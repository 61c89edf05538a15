import Kyuzen.Kfs.FileRefine

/-!
A write that fails. It changes nothing when the first run of blocks that it misses cannot be
added and the blocks that the file has show the bytes already. Otherwise `grow_to_nolock`
leaves blocks behind, or `blk_write_file` leaves bytes.
-/

namespace Kyuzen.Kfs

open List

variable {off w : Nat} {rc : Rc} {v v' : Vol} {inn inn' : InodeMem}

/-! ## The first run -/

def firstMissing (v : Vol) (inn : InodeMem) (off : Nat) : Nat :=
  max (off / 4096) (dataBlocks v inn).length

/-- No block is free, or the inode cannot take the run that fits first for the blocks
missing up to `lb`. -/
def NoRunFits (v : Vol) (inn : InodeMem) (lb : Nat) : Prop :=
  (∀ b, ¬ v.IsFree b) ∨ ∃ start n,
    v.FirstFit (min 64 (lb + 1 - (dataBlocks v inn).length)) start n ∧ Refuses v inn start n

theorem Growth.used_le {added : List Nat} (h : Growth v inn v' inn' added) (hinv : FileInv v inn) :
    inn.blocksUsed + added.length ≤ inn'.blocksUsed := by
  have hind := (Nodup.subperm hinv.nodup.of_append_right h.indirect).length_le
  have hdata := h.perm.length_eq
  rw [length_append] at hdata
  rw [hinv.used, h.effect.inv.used, inodeBlocks, inodeBlocks, length_append, length_append]
  omega

theorem Growth.bmTest_eq (h : Growth v inn v' inn []) (hinv : FileInv v inn) (b : Nat) :
    bmTest v'.bmMem b = bmTest v.bmMem b := by
  have hmem : b ∈ inodeBlocks v' inn ↔ b ∈ inodeBlocks v inn := by
    rw [mem_inodeBlocks, mem_inodeBlocks, h.perm.mem_iff, append_nil]
  rw [Bool.eq_iff_iff, h.effect.bits b, hmem]
  constructor
  · rintro (hold | hb)
    · exact hold.1
    · exact (hinv.isUsed b hb).2.2
  · intro hset
    by_cases hb : b ∈ inodeBlocks v inn
    · exact .inr hb
    · exact .inl ⟨hset, hb⟩

/-- `grow_to_nolock` beyond the mapped blocks: it adds some exactly if the first run has room. -/
theorem growToNolock_room {lb : Nat} (hv : v.Sound) (h : FileInv v inn)
    (hlb : (dataBlocks v inn).length ≤ lb) :
    ∃ rc v' inn' added, growToNolock v inn lb = (rc, v', inn') ∧ Growth v inn v' inn' added ∧
      (NoRunFits v inn lb → (rc = .einval ∨ rc = .enospc) ∧ inn' = inn ∧ added = [] ∧
        v'.innerMerges = v.innerMerges) ∧
      (¬ NoRunFits v inn lb → added ≠ []) := by
  have hcover : coveredLoop v inn 345 0 0 = .ok (dataBlocks v inn).length :=
    (coveredLoop_eq hv.io h.slots rfl).trans (congrArg Except.ok (zero_add _))
  obtain ⟨fuel, hfuel⟩ : ∃ fuel, lb + 1 - (dataBlocks v inn).length = fuel + 1 :=
    ⟨lb - (dataBlocks v inn).length, by omega⟩
  have hwant : (if lb - (dataBlocks v inn).length + 1 > 64 then 64
      else lb - (dataBlocks v inn).length + 1) = min 64 (fuel + 1) := by
    split <;> omega
  unfold growToNolock NoRunFits
  rw [hcover]
  simp only
  rw [if_neg (not_lt.mpr hlb), hfuel, growLoop, if_neg (not_lt.mpr hlb)]
  dsimp only
  rw [hwant]
  generalize hw : min 64 (fuel + 1) = want
  rcases @growRound_spec v inn want hv h (by omega) (by omega) with
    ⟨halloc, hnone⟩ | ⟨start, n, halloc, hne, hfit, ⟨v₁, inn₁, happ, hgrow, -, -, htaken⟩ |
      ⟨rc, happ, hrc, hgrow, hrefused⟩⟩
  · simp only [halloc, if_true]
    exact ⟨_, _, _, [], rfl, .refl h, fun _ => ⟨.inr rfl, rfl, rfl, rfl⟩,
      fun hroom => absurd (.inl hnone) hroom⟩
  · obtain ⟨hn, hle, hrunFree, -, -⟩ := id hfit
    have hlen := hgrow.perm.length_eq
    rw [length_append, length_range'] at hlen
    obtain ⟨rc, v₂, inn₂, added, hrun, hrest, -⟩ := @growLoop_spec lb fuel v₁ _
      ((dataBlocks v inn).length + n) (hgrow.effect.shape.sound hv) hgrow.effect.inv hlen.symm
      (by omega) (by omega)
    simp only [halloc, hne, if_false, happ, hrun]
    refine ⟨rc, v₂, inn₂, _, rfl, hgrow.trans hrest, ?_, ?_⟩
    · rintro (hnone | ⟨start', n', hfit', hrefused⟩)
      · exact absurd (hrunFree start le_rfl (by omega)) (hnone start)
      · obtain ⟨rfl, rfl⟩ := hfit.unique hfit'
        exact absurd hrefused htaken
    · intro _ hnil
      have hzero := congrArg length (append_eq_nil_iff.mp hnil).1
      rw [length_range'] at hzero
      exact absurd hzero (hn.ne')
  · simp only [halloc, hne, if_false, happ]
    rcases hrc with rfl | rfl
    · exact ⟨_, _, _, [], rfl, hgrow, fun _ => ⟨.inl rfl, rfl, rfl, rfl⟩,
        fun hroom => absurd (.inr ⟨start, n, hfit, hrefused⟩) hroom⟩
    · exact ⟨_, _, _, [], rfl, hgrow, fun _ => ⟨.inr rfl, rfl, rfl, rfl⟩,
        fun hroom => absurd (.inr ⟨start, n, hfit, hrefused⟩) hroom⟩

/-! ## Writes in place -/

/-- Only bytes of mapped blocks, the size and the dirty flag have changed. -/
structure InPlace (v : Vol) (inn : InodeMem) (v' : Vol) (inn' : InodeMem) : Prop where
  effect : Effect v inn v' inn'
  list : extentList v' inn' = extentList v inn
  bm : v'.bmMem = v.bmMem
  sb : v'.sb = v.sb
  merges : v'.innerMerges = v.innerMerges

namespace InPlace

theorem refl (h : FileInv v inn) : InPlace v inn v inn := ⟨.refl h, rfl, rfl, rfl, rfl⟩

section
variable (h : InPlace v inn v' inn')
include h

theorem trans {v'' : Vol} {inn'' : InodeMem}
    (h' : InPlace v' inn' v'' inn'') : InPlace v inn v'' inn'' :=
  ⟨h.effect.trans h'.effect, h'.list.trans h.list, h'.bm.trans h.bm, h'.sb.trans h.sb,
    h'.merges.trans h.merges⟩

theorem dataBlocks_eq : dataBlocks v' inn' = dataBlocks v inn := congrArg blocksOf h.list

/-- The bitmap is the same, so the inode has the same blocks. -/
theorem length_eq (hinv : FileInv v inn) :
    (inodeBlocks v' inn').length = (inodeBlocks v inn).length := by
  apply Perm.length_eq
  apply (perm_ext_iff_of_nodup h.effect.inv.nodup hinv.nodup).mpr
  intro b
  have hbits := h.effect.bits b
  rw [h.bm] at hbits
  constructor
  · intro hb
    rcases h.effect.fresh b hb with hold | hfree
    · exact hold
    · exact absurd (hbits.mpr (.inr hb)) hfree.not_set
  · intro hb
    rcases hbits.mp (hinv.isUsed b hb).2.2 with hother | hnew
    · exact absurd hb hother.2
    · exact hnew

theorem used (hinv : FileInv v inn) : inn'.blocksUsed = inn.blocksUsed := by
  rw [h.effect.inv.used, hinv.used, h.length_eq hinv]

theorem isFree_iff (b : Nat) : v'.IsFree b ↔ v.IsFree b := by
  rw [h.effect.shape.isFree_iff, h.bm]
  rfl

theorem indirect_iff (hinv : FileInv v inn) :
    inn'.indirectExtentBlock = 0 ↔ inn.indirectExtentBlock = 0 := by
  have hlen := h.length_eq hinv
  rw [inodeBlocks, inodeBlocks, length_append, length_append, h.dataBlocks_eq,
    indirectBlocks, indirectBlocks] at hlen
  split at hlen <;> split at hlen <;> simp_all

theorem noRunFits_iff (hinv : FileInv v inn) (lb : Nat) : NoRunFits v' inn' lb ↔ NoRunFits v inn lb := by
  simp only [NoRunFits, Refuses, Vol.firstFit_iff, Vol.FreeRun, h.isFree_iff, h.dataBlocks_eq, h.list,
    h.indirect_iff hinv]

end

end InPlace

/-! ## The outcome of a write -/

/-- How a write of `w` bytes at `off` can end: it added blocks; or all its bytes went into
mapped blocks; or it filled the mapped blocks and then found no room. -/
inductive Outcome (v : Vol) (inn : InodeMem) (off : Nat) : Rc → Vol → InodeMem → Nat → Prop
  | added {rc : Rc} {v' : Vol} {inn' : InodeMem} {w : Nat} (more : inn.blocksUsed < inn'.blocksUsed)
      (room : ¬ NoRunFits v inn (firstMissing v inn off)) : Outcome v inn off rc v' inn' w
  | inPlace {v' : Vol} {inn' : InodeMem} {w : Nat} (same : InPlace v inn v' inn')
      (fits : w = 0 ∨ off + w ≤ covered v inn) : Outcome v inn off .eok v' inn' w
  | refused {rc : Rc} {v₁ v' : Vol} {inn' : InodeMem} {w : Nat} (same : InPlace v inn v₁ inn')
      (undone : Growth v₁ inn' v' inn' []) (merges : v'.innerMerges = v₁.innerMerges)
      (noRoom : NoRunFits v inn (firstMissing v inn off)) (fills : w = covered v inn - off)
      (bad : rc ≠ .eok) : Outcome v inn off rc v' inn' w

theorem Outcome.used_le (h : Outcome v inn off rc v' inn' w) (hinv : FileInv v inn) :
    inn.blocksUsed ≤ inn'.blocksUsed := by
  cases h with
  | added more => exact more.le
  | inPlace same => exact le_of_eq (same.used hinv).symm
  | refused same => exact le_of_eq (same.used hinv).symm

theorem Outcome.trans {v₁ : Vol} {inn₁ : InodeMem} {w' : Nat} (hinv : FileInv v inn)
    (hinv₁ : FileInv v₁ inn₁) (h : Outcome v inn off .eok v₁ inn₁ w)
    (h' : Outcome v₁ inn₁ (off + w) rc v' inn' w') : Outcome v inn off rc v' inn' (w + w') := by
  cases h with
  | added more room => exact .added (lt_of_lt_of_le more (h'.used_le hinv₁)) room
  | refused _ _ _ _ _ bad => exact absurd rfl bad
  | inPlace same fits =>
    have hcov : covered v₁ inn₁ = covered v inn := by rw [covered, covered, same.dataBlocks_eq]
    have hfirst : firstMissing v₁ inn₁ (off + w) = firstMissing v inn off := by
      rw [firstMissing, firstMissing, same.dataBlocks_eq]
      unfold covered at fits
      omega
    have hroom := same.noRunFits_iff hinv (firstMissing v inn off)
    cases h' with
    | added more room =>
      rw [hfirst, hroom] at room
      rw [same.used hinv] at more
      exact .added more room
    | inPlace same' fits' =>
      rw [hcov] at fits'
      exact .inPlace (same.trans same') (by omega)
    | refused same' undone merges noRoom fills bad =>
      rw [hfirst, hroom] at noRoom
      rw [hcov] at fills
      exact .refused (same.trans same') undone merges noRoom (by omega) bad

theorem Outcome.of_eq {nw : Nat} (h : FileInv v inn)
    (heq : (Rc.eok, v, inn, nw) = (rc, v', inn', nw + w)) : Outcome v inn off rc v' inn' w := by
  simp only [Prod.mk.injEq] at heq
  obtain ⟨rfl, rfl, rfl, hw⟩ := heq
  exact .inPlace (.refl h) (.inl (by omega))

section
variable (hv : v.Sound) (h : FileInv v inn)
include hv h

theorem writeTarget_missing {lb : Nat} (hlb : (dataBlocks v inn).length ≤ lb) :
    (NoRunFits v inn lb → ∃ rc v', writeTarget v inn lb = (.error rc, v', inn) ∧ rc ≠ .eok ∧
      Growth v inn v' inn [] ∧ v'.innerMerges = v.innerMerges) ∧
    (¬ NoRunFits v inn lb → inn.blocksUsed < (writeTarget v inn lb).2.2.blocksUsed) := by
  obtain ⟨rc, v', inn', added, hrun, hgrow, hno, hroom⟩ := growToNolock_room hv h hlb
  unfold writeTarget
  rw [h.phys_eq hv, getElem?_eq_none hlb]
  simp only [hrun]
  constructor
  · intro hnone
    obtain ⟨hrc, rfl, rfl, hmerges⟩ := hno hnone
    rcases hrc with rfl | rfl
    · exact ⟨_, _, rfl, by decide, hgrow, hmerges⟩
    · exact ⟨_, _, rfl, by decide, hgrow, hmerges⟩
  intro hsome
  have hmore := hgrow.used_le h
  have hpos := length_pos_iff.mpr (hroom hsome)
  have hlt : inn.blocksUsed < inn'.blocksUsed := by omega
  cases rc
  case eok =>
    simp only
    cases kzfsGetPhysBlock v' inn' lb with
    | none => exact hlt
    | some _ => exact hlt
  all_goals exact hlt

theorem writeLoop_outcome {buf : Buf} {fuel count nw : Nat}
    (hfuel : count ≤ fuel) (hrun : writeLoop buf fuel v inn off count nw = (rc, v', inn', nw + w)) :
    Outcome v inn off rc v' inn' w := by
  induction fuel generalizing v inn off count nw w with
  | zero => exact .of_eq h hrun
  | succ fuel ih =>
    rw [writeLoop] at hrun
    split_ifs at hrun with hz
    · exact .of_eq h hrun
    simp only [chunkLen_eq] at hrun
    have hpos := @chunkLen_pos off count hz
    have hle := chunkLen_le off count
    have hin := chunkLen_inside off count
    generalize chunkLen off count = chunk at hpos hle hin hrun
    -- The rest of the loop behind a chunk that went into block `phys`.
    have hrest : ∀ {v₁ : Vol} {inn₁ : InodeMem} {phys : Nat}, v₁.Sound → FileInv v₁ inn₁ →
        (dataBlocks v₁ inn₁)[off / 4096]? = some phys →
        writeLoop buf fuel (v₁.putBlock phys (memcpy (v₁.disk phys) (off % 4096) buf nw chunk))
          (chunkInode inn₁ (off + chunk)) (off + chunk) (count - chunk) (nw + chunk) =
            (rc, v', inn', nw + w) →
        ∃ w', w = chunk + w' ∧
          Outcome (v₁.putBlock phys (memcpy (v₁.disk phys) (off % 4096) buf nw chunk))
            (chunkInode inn₁ (off + chunk)) (off + chunk) rc v' inn' w' := by
      intro v₁ inn₁ phys hv₁ h₁ hphys hloop
      have heffect := (@written_chunk v₁ inn₁ off phys chunk buf nw h₁ hphys hin hpos).effect
      have hsound := heffect.shape.sound hv₁
      obtain ⟨_, _, _, w', hloop', -⟩ :=
        @writeLoop_spec buf fuel (off + chunk) (count - chunk) (nw + chunk) _ _ hsound
          heffect.inv (by omega)
      have hw := congrArg (fun r => r.2.2.2) (hloop.symm.trans hloop')
      dsimp only at hw
      exact ⟨w', by omega, ih hsound heffect.inv (by omega) (hloop.trans (by rw [hw]))⟩
    by_cases hlt : off / 4096 < (dataBlocks v inn).length
    · obtain ⟨phys, hphys, htarget⟩ := writeTarget_mapped hv h hlt
      simp only [htarget, bcacheGet, bcacheRead, hv.io, if_true, ite_self] at hrun
      obtain ⟨w', rfl, hout⟩ := hrest hv h hphys hrun
      have heffect := (@written_chunk v inn off phys chunk buf nw h hphys hin hpos).effect
      have hput := @FileInv.putBlock v inn (chunkInode inn (off + chunk)) phys
        (memcpy (v.disk phys) (off % 4096) buf nw chunk) h (mem_of_getElem? hphys) rfl rfl rfl
      apply Outcome.trans h heffect.inv (.inPlace ⟨heffect, hput.2.1, rfl, rfl, rfl⟩ _) hout
      right
      unfold covered
      omega
    · have hfirst : firstMissing v inn off = off / 4096 := max_eq_left (not_lt.mp hlt)
      obtain ⟨hno, hroom⟩ := writeTarget_missing hv h (not_lt.mp hlt)
      by_cases hnone : NoRunFits v inn (off / 4096)
      · obtain ⟨rc₁, v₁, htarget, hbad, hgrow, hmerges⟩ := hno hnone
        simp only [htarget, Prod.mk.injEq] at hrun
        obtain ⟨rfl, rfl, rfl, hw⟩ := hrun
        apply Outcome.refused (.refl h) hgrow hmerges (hfirst ▸ hnone) _ hbad
        unfold covered
        omega
      obtain ⟨r, v₁, inn₁, added, htarget, hgrow, hend⟩ := writeTarget_spec hv h (off / 4096)
      have hmore := hroom hnone
      rw [htarget] at hmore
      have hv₁ := hgrow.effect.shape.sound hv
      apply Outcome.added _ (hfirst ▸ hnone)
      rcases hend with ⟨phys, rfl, hphys⟩ | ⟨rc₁, rfl, -⟩
      · simp only [htarget, bcacheGet, bcacheRead, hv₁.io, if_true, ite_self] at hrun
        obtain ⟨w', -, hout⟩ := hrest hv₁ hgrow.effect.inv hphys hrun
        exact lt_of_lt_of_le hmore (hout.used_le
          (written_chunk hgrow.effect.inv hphys hin hpos).effect.inv)
      · simp only [htarget, Prod.mk.injEq] at hrun
        obtain ⟨-, -, rfl, -⟩ := hrun
        exact hmore

theorem writePieces_outcome {buf : Buf} {count fuel total : Nat}
    (hfuel : count - total ≤ fuel) (hle : total ≤ count)
    (hrun : writePieces buf off count fuel v inn total = (rc, v', inn', total + w)) :
    Outcome v inn (off + total) rc v' inn' w := by
  induction fuel generalizing v inn total w with
  | zero => exact .of_eq h hrun
  | succ fuel ih =>
    rw [writePieces] at hrun
    split at hrun
    case isFalse => exact .of_eq h hrun
    case isTrue hlt =>
      generalize hpiece : (if count - total > 1048576 then 1048576 else count - total) = piece
      have hpos : 0 < piece ∧ piece ≤ count - total := by rw [← hpiece]; split <;> omega
      obtain ⟨rc₁, v₁, inn₁, w₁, hwrite, hwritten, -, hfull⟩ :=
        blkWriteFile_spec hv h (off + total) (fun i => buf (total + i)) piece
      have hfirst := writeLoop_outcome hv h le_rfl (hwrite.trans (by rw [zero_add]))
      simp only [hpiece, hwrite] at hrun
      by_cases hok : rc₁ = .eok
      · subst hok
        have hv₁ := hwritten.effect.shape.sound hv
        simp only [hfull rfl, lt_irrefl, if_false] at hrun hfirst
        obtain ⟨_, _, _, w', hrest, -⟩ := @writePieces_spec buf off count fuel (total + piece) _ _
          hv₁ hwritten.effect.inv (by omega) (by omega)
        have hw := congrArg (fun r => r.2.2.2) (hrun.symm.trans hrest)
        dsimp only at hw
        obtain rfl : w = piece + w' := by omega
        rw [← add_assoc] at hrun
        have htail := ih hv₁ hwritten.effect.inv (by omega) (by omega) hrun
        rw [← add_assoc] at htail
        exact .trans h hwritten.effect.inv hfirst htail
      · have hend : (rc₁, v₁, inn₁, total + w₁) = (rc, v', inn', total + w) := by
          cases rc₁
          case eok => exact absurd rfl hok
          all_goals exact hrun
        simp only [Prod.mk.injEq] at hend
        obtain ⟨rfl, rfl, rfl, hw⟩ := hend
        obtain rfl : w₁ = w := by omega
        exact hfirst

end

/-! ## Failed writes -/

structure Untouched (fs fs' : Fs) (h : Nat) (n : Vnode) : Prop where
  reads : ∀ off buf count, v4Read fs' h off buf count = v4Read fs h off buf count
  size : (fs'.inode n.fsData).sizeBytes = (fs.inode n.fsData).sizeBytes
  used : (fs'.inode n.fsData).blocksUsed = (fs.inode n.fsData).blocksUsed
  free : fs'.vol.sb.freeBlocks = fs.vol.sb.freeBlocks

/-- There is no room for the first block that the write misses, and the part of the data that
lies in mapped blocks is what the file shows there already. -/
structure RefusedAtOnce (v : Vol) (inn : InodeMem) (off : Nat) (data : List UInt8) : Prop where
  noRoom : NoRunFits v inn (firstMissing v inn off)
  shown : off < covered v inn → covered v inn ≤ inn.sizeBytes
  same : ∀ i, off + i < covered v inn → nameBuf data i = fileByte v inn (off + i)

theorem Outcome.refused_of_le (h : Outcome v inn off rc v' inn' w) (hbad : rc ≠ .eok)
    (hle : inn'.blocksUsed ≤ inn.blocksUsed ∨ NoRunFits v inn (firstMissing v inn off)) :
    NoRunFits v inn (firstMissing v inn off) ∧ w = covered v inn - off ∧
      ∃ v₁, InPlace v inn v₁ inn' ∧ Growth v₁ inn' v' inn' [] ∧
        v'.innerMerges = v₁.innerMerges := by
  cases h with
  | added more room => exact hle.elim (fun h => absurd more (not_lt.mpr h)) (absurd · room)
  | inPlace => exact absurd rfl hbad
  | refused same undone merges noRoom fills => exact ⟨noRoom, fills, _, same, undone, merges⟩

theorem v4Read_eq_iff {fs fs' : Fs} {h : Nat} {n n' : Vnode} (hn : fs.vnode h = some n)
    (hn' : fs'.vnode h = some n') (htype : n.type = .vReg) (htype' : n'.type = .vReg)
    (hv : fs.vol.Sound) (hv' : fs'.vol.Sound) (hinv : FileInv fs.vol (fs.inode n.fsData))
    (hinv' : FileInv fs'.vol (fs'.inode n'.fsData))
    (hsize : (fs'.inode n'.fsData).sizeBytes = (fs.inode n.fsData).sizeBytes) :
    (∀ off buf count, v4Read fs' h off buf count = v4Read fs h off buf count) ↔
      ∀ p < (fs.inode n.fsData).sizeBytes,
        fileByte fs'.vol (fs'.inode n'.fsData) p = fileByte fs.vol (fs.inode n.fsData) p := by
  simp only [v4Read_spec hn htype hv hinv, v4Read_spec hn' htype' hv' hinv', hsize,
    Except.ok.injEq, map_inj_left, mem_range]
  constructor
  · intro hall p hp
    exact hall p (fun _ => 0) 1 0 (by omega)
  · intro hall off _ count i hi
    exact hall (off + i) (by omega)

theorem v4Write_failed {fs : Fs} {h : Nat} {n : Vnode} (hn : fs.vnode h = some n)
    (htype : n.type = .vReg) (hv : fs.vol.Sound) (hinv : FileInv fs.vol (fs.inode n.fsData))
    {data : List UInt8} (hfail : (v4Write fs h off data).1 = .error rc) :
    ∃ v' inn' w, rc ≠ .eok ∧ Written fs.vol (fs.inode n.fsData) v' inn' off w (nameBuf data) ∧
      Outcome fs.vol (fs.inode n.fsData) off rc v' inn' w ∧
      (v4Write fs h off data).2 =
        ({fs with vol := v'}.setIno n.fsData inn').setVnodeSize h inn'.sizeBytes := by
  obtain ⟨rc', v', inn', w, hrun, hwritten, -⟩ :=
    @writePieces_spec (nameBuf data) off data.length data.length 0 fs.vol (fs.inode n.fsData) hv
      hinv (by omega) (Nat.zero_le _)
  have hout := writePieces_outcome hv hinv (by omega) (Nat.zero_le _) hrun
  simp only [zero_add, add_zero] at hrun hwritten hout
  unfold v4Write at hfail ⊢
  simp only [hn, htype, hrun, reduceCtorEq, if_false] at hfail ⊢
  by_cases hok : rc' = .eok
  · rw [if_pos hok] at hfail
    exact nomatch hfail
  · rw [if_neg hok] at hfail
    obtain rfl := Except.error.inj hfail
    refine ⟨v', inn', w, hok, hwritten, hout, ?_⟩
    simp [hok, Fs.inode_setIno_self]

def fullFs : Fs :=
  {smallFs with
    vol := {smallVol with bmMem := fun _ => 255, sb := {smallVol.sb with freeBlocks := 0}}}

end Kyuzen.Kfs
