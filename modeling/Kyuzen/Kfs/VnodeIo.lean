import Kyuzen.Kfs.Layout

/-!
`v4_read`, `v4_write` and `v4_truncate` in terms of the bytes of the inode.
-/

namespace Kyuzen.Kfs

open List Fs

variable {fs : Fs} {h : Nat} {n : Vnode}

theorem readPieces_spec {v : Vol} {inn : InodeMem} {off count fuel total : Nat} {buf : Buf}
    (hv : v.Sound) (h : FileInv v inn) (hfuel : count - total ≤ fuel) :
    ∃ buf' n, readPieces v inn off count fuel buf total = (.eok, buf', total + n) ∧
      n = min (count - total) (inn.sizeBytes - (off + total)) ∧
      (∀ i < total, buf' i = buf i) ∧
      ∀ i < n, buf' (total + i) = fileByte v inn (off + total + i) := by
  induction fuel generalizing total buf with
  | zero =>
    exact ⟨buf, 0, rfl, by omega, fun _ _ => rfl, fun i hi => absurd hi (Nat.not_lt_zero i)⟩
  | succ fuel ih =>
    rw [readPieces]
    split
    · generalize hpiece : (if count - total > 1048576 then 1048576 else count - total) = piece
      have hpos : 0 < piece := by rw [← hpiece]; split <;> omega
      have hle : piece ≤ count - total := by rw [← hpiece]; split <;> omega
      obtain ⟨b, hread, hbytes, -⟩ :=
        blkReadFile_spec hv h (off + total) (fun i => buf (total + i)) piece
      simp only [hpiece, hread]
      generalize hgot : min piece (inn.sizeBytes - (off + total)) = got at hbytes
      have hcopy : ∀ i < got,
          memcpy buf total b 0 got (total + i) = fileByte v inn (off + total + i) := by
        intro i hi
        rw [memcpy_inside (by omega) (by omega), ← hbytes i hi]
        congr 1
        omega
      split_ifs with hshort
      · exact ⟨_, got, rfl, by omega, fun i hi => memcpy_outside (by omega), hcopy⟩
      obtain ⟨buf', n, hrun, hn, hbefore, hafter⟩ :=
        @ih (total + got) (memcpy buf total b 0 got) (by omega)
      refine ⟨buf', got + n, by rw [hrun, add_assoc], by omega, ?_, ?_⟩
      · intro i hi
        rw [hbefore i (by omega)]
        exact memcpy_outside (by omega)
      intro i hi
      by_cases hin : i < got
      · rw [hbefore _ (by omega), hcopy i hin]
      · have hrest := hafter (i - got) (by omega)
        have hsub : got + (i - got) = i := by omega
        rwa [add_assoc total, hsub, ← add_assoc off, add_assoc (off + total), hsub] at hrest
    · exact ⟨buf, 0, rfl, by omega, fun _ _ => rfl, fun i hi => absurd hi (Nat.not_lt_zero i)⟩

theorem writePieces_spec {buf : Buf} {off count fuel total : Nat} {v : Vol} {inn : InodeMem}
    (hv : v.Sound) (h : FileInv v inn) (hfuel : count - total ≤ fuel) (hle : total ≤ count) :
    ∃ rc v' inn' w, writePieces buf off count fuel v inn total = (rc, v', inn', total + w) ∧
      Written v inn v' inn' (off + total) w (fun i => buf (total + i)) ∧ total + w ≤ count ∧
      (rc = .eok → total + w = count) := by
  induction fuel generalizing total v inn with
  | zero =>
    exact ⟨.eok, v, inn, 0, rfl, (Growth.refl h).written _ _, by omega, fun _ => by omega⟩
  | succ fuel ih =>
    rw [writePieces]
    split
    · generalize hpiece : (if count - total > 1048576 then 1048576 else count - total) = piece
      have hpos : 0 < piece := by rw [← hpiece]; split <;> omega
      have hpiece' : piece ≤ count - total := by rw [← hpiece]; split <;> omega
      obtain ⟨rc, v₁, inn₁, w, hwrite, hwritten, hw, hfull⟩ :=
        blkWriteFile_spec hv h (off + total) (fun i => buf (total + i)) piece
      simp only [hpiece, hwrite]
      cases rc with
      | eok =>
        have hall := hfull rfl
        subst hall
        simp only [lt_irrefl, if_false]
        obtain ⟨rc, v', inn', w', hrun, hrest, hend, hdone⟩ :=
          @ih (total + w) v₁ inn₁ (hwritten.effect.shape.sound hv) hwritten.effect.inv
            (by omega) (by omega)
        rw [← add_assoc] at hrest
        exact ⟨rc, v', inn', w + w', by rw [hrun, add_assoc],
          hwritten.trans hrest fun i _ => by simp [add_assoc], by omega,
          fun hok => by have := hdone hok; omega⟩
      | enoent | eio | enospc | einval | eexist | enotdir | eisdir | enomem | enametoolong =>
        exact ⟨_, v₁, inn₁, w, rfl, hwritten, by omega, nofun⟩
    · exact ⟨.eok, v, inn, 0, rfl, (Growth.refl h).written _ _, by omega, fun _ => by omega⟩

/-! ## The state after a call -/

theorem Fs.inode_setIno (fs : Fs) (e e' : Nat) (inn : InodeMem) :
    (fs.setIno e inn).inode e' = if e' = e then inn else fs.inode e' := by
  unfold inode setIno setEntry
  simp only
  split <;> rfl

@[simp] theorem Fs.inode_setIno_self (fs : Fs) (e : Nat) (inn : InodeMem) :
    (fs.setIno e inn).inode e = inn := by
  rw [inode_setIno, if_pos rfl]

@[simp] theorem Fs.setVnodeSize_inode (fs : Fs) (h size e : Nat) :
    (fs.setVnodeSize h size).inode e = fs.inode e := rfl

theorem lookup_map_snd {α β : Type} [BEq α] [LawfulBEq α] (f : α → β → β) (l : List (α × β)) (k : α) :
    (l.map fun p => (p.1, f p.1 p.2)).lookup k = (l.lookup k).map (f k) := by
  induction l with
  | nil => rfl
  | cons p l ih =>
    rw [List.map_cons, lookup_cons, lookup_cons, ih]
    cases hk : k == p.1 with
    | true => simp [eq_of_beq hk]
    | false => rfl

theorem Fs.vnode_setVnodeSize (fs : Fs) (h h' size : Nat) : (fs.setVnodeSize h size).vnode h' =
      (fs.vnode h').map fun n => if h' = h then {n with size := size} else n := by
  have hmap := lookup_map_snd
    (fun k (n : Vnode) => if k = h then {n with size := size} else n) fs.vnodes h'
  refine Eq.trans ?_ hmap
  refine congrArg (lookup h') (map_congr_left fun p _ => ?_)
  by_cases hp : p.1 = h
  · simp [hp]
  · simp [hp]

/-- What a successful write or truncate does after the data: the inode slot, the
block bitmap and the superblock go to the cache. -/
def persist (v : Vol) (inn : InodeMem) : Vol := (sbSave (bmFlush (inoSyncNolock v inn).2).2).2

theorem Fs.persist_eq (fs : Fs) (v : Vol) (e : Nat) (inn : InodeMem) :
    ((({fs with vol := v}.setIno e inn).syncEntry e).bmFlush).sbSave =
      {fs with vol := persist v inn}.setIno e inn := by
  unfold sbSave bmFlush syncEntry
  rw [inode_setIno_self]
  rfl

theorem persist_meta {v : Vol} {inn : InodeMem} (hv : v.Sound) (hl : v.Layout)
    (hslot : slotBlock v inn.ino < v.dataStart) : MetaWrite v (persist v inn) := by
  obtain ⟨v₁, hsync, hmeta₁⟩ := inoSyncNolock_meta hv hslot
  obtain ⟨v₂, hflush, hmeta₂⟩ := bmFlush_meta (hmeta₁.sound hv) (hmeta₁.layout hl)
  obtain ⟨v₃, hsave, hmeta₃⟩ := sbSave_meta (hmeta₂.sound (hmeta₁.sound hv))
  unfold persist
  rw [hsync, hflush, hsave]
  exact (hmeta₁.trans hmeta₂).trans hmeta₃

section
variable (hn : fs.vnode h = some n) (htype : n.type = .vReg) (hv : fs.vol.Sound)
  (hinv : FileInv fs.vol (fs.inode n.fsData))
include hn htype hv hinv

theorem v4Read_spec (off : Nat) (buf : Buf) (count : Nat) : v4Read fs h off buf count =
      .ok ((List.range (min count ((fs.inode n.fsData).sizeBytes - off))).map fun i =>
        fileByte fs.vol (fs.inode n.fsData) (off + i)) := by
  obtain ⟨buf', got, hrun, hgot, -, hbytes⟩ :=
    @readPieces_spec fs.vol (fs.inode n.fsData) off count count 0 buf hv hinv (by omega)
  simp only [zero_add, add_zero, Nat.sub_zero] at hrun hgot hbytes
  unfold v4Read
  simp only [hn, htype, hrun, reduceCtorEq, if_false]
  rw [← hgot]
  refine congrArg Except.ok (map_congr_left fun i hi => ?_)
  exact hbytes i (List.mem_range.mp hi)

theorem v4Write_spec (off : Nat) (data : List UInt8) :
    ∃ rc v' inn' w, writePieces (nameBuf data) off data.length data.length fs.vol
        (fs.inode n.fsData) 0 = (rc, v', inn', w) ∧
      Written fs.vol (fs.inode n.fsData) v' inn' off w (nameBuf data) ∧
      w ≤ data.length ∧ (rc = Rc.eok → w = data.length) ∧
      v4Write fs h off data = (if rc = Rc.eok then .ok w else .error rc,
          ({fs with vol := if rc = Rc.eok ∧ w > 0 then persist v' inn' else v'}.setIno
            n.fsData inn').setVnodeSize h inn'.sizeBytes) := by
  obtain ⟨rc, v', inn', w, hrun, hwritten, hw, hfull⟩ :=
    @writePieces_spec (nameBuf data) off data.length data.length 0 fs.vol (fs.inode n.fsData) hv
      hinv (by omega) (Nat.zero_le _)
  simp only [zero_add, add_zero] at hrun hwritten hw hfull
  refine ⟨rc, v', inn', w, hrun, hwritten, hw, hfull, ?_⟩
  unfold v4Write
  simp only [hn, htype, hrun, reduceCtorEq, if_false]
  by_cases hsync : rc = Rc.eok ∧ w > 0
  · simp [hsync, persist_eq, inode_setIno_self]
  · simp [hsync, inode_setIno_self]

theorem v4Write_ok_length {fs' : Fs} {off w : Nat}
    {data : List UInt8} (hcall : v4Write fs h off data = (.ok w, fs')) :
    w = data.length := by
  obtain ⟨rc, v', inn', w', -, -, -, hfull, hrun⟩ := v4Write_spec hn htype hv hinv off data
  rw [hrun] at hcall
  by_cases hok : rc = .eok
  · rw [if_pos hok, hfull hok] at hcall
    simpa using (congrArg Prod.fst hcall).symm
  · rw [if_neg hok] at hcall
    exact absurd (congrArg Prod.fst hcall) (by simp)

end

theorem v4Truncate_spec (hn : fs.vnode h = some n) (hv : fs.vol.Sound)
    (hinv : FileInv fs.vol (fs.inode n.fsData)) (size : Nat) :
    ∃ v' inn', truncateNolock fs.vol (fs.inode n.fsData) size = (.eok, v', inn') ∧
      v4Truncate fs h size =
        (.eok, ({fs with vol := persist v' inn'}.setIno n.fsData inn').setVnodeSize h
          inn'.sizeBytes) := by
  obtain ⟨v', inn', hrun, -⟩ := truncateNolock_spec hv hinv size
  refine ⟨v', inn', hrun, ?_⟩
  unfold v4Truncate
  simp [hn, onInode, hrun, persist_eq, inode_setIno_self]

end Kyuzen.Kfs
