import Kyuzen.Kfs.Shrink

/-!
The bytes of a file: what `blk_read_file` returns and what `blk_write_file` does
to them, over whole calls of any length.
-/

namespace Kyuzen.Kfs

open List

variable {v v' : Vol} {inn inn' : InodeMem}

/-- Byte `p` of a file, read through its mapping; a hole is zero. -/
def fileByte (v : Vol) (inn : InodeMem) (p : Nat) : UInt8 :=
  match (dataBlocks v inn)[p / 4096]? with
  | some b => v.disk b (p % 4096)
  | none => 0

def covered (v : Vol) (inn : InodeMem) : Nat := (dataBlocks v inn).length * 4096

theorem fileByte_hole {p : Nat} (h : covered v inn ≤ p) : fileByte v inn p = 0 := by
  have hlen : (dataBlocks v inn).length ≤ p / 4096 := by
    unfold covered at h
    omega
  rw [fileByte, getElem?_eq_none hlen]

theorem fileByte_congr {p : Nat} (h : p < covered v inn)
    (hblocks : dataBlocks v inn <+: dataBlocks v' inn')
    (hdisk : ∀ b ∈ dataBlocks v inn, v'.disk b (p % 4096) = v.disk b (p % 4096)) :
    fileByte v' inn' p = fileByte v inn p := by
  have hlt : p / 4096 < (dataBlocks v inn).length := by
    unfold covered at h
    omega
  have hget := getElem?_eq_getElem hlt
  obtain ⟨rest, hrest⟩ := hblocks
  rw [fileByte, fileByte, ← hrest, getElem?_append_left hlt, hget]
  exact hdisk _ (getElem_mem hlt)

/-! ## Reading -/

/-- The bytes of one round: up to the end of the block or of the request. -/
def chunkLen (off count : Nat) : Nat := min (4096 - off % 4096) count

theorem chunkLen_eq (off count : Nat) :
    (if 4096 - off % 4096 > count then count else 4096 - off % 4096) = chunkLen off count := by
  unfold chunkLen
  split <;> omega

theorem chunkLen_pos {off count : Nat} (h : count ≠ 0) : 0 < chunkLen off count := by
  unfold chunkLen
  omega

theorem chunkLen_le (off count : Nat) : chunkLen off count ≤ count := Nat.min_le_right _ _

theorem chunkLen_inside (off count : Nat) : off % 4096 + chunkLen off count ≤ 4096 := by
  unfold chunkLen
  omega

theorem chunkLen_block {off count i : Nat} (h : i < chunkLen off count) :
    (off + i) / 4096 = off / 4096 ∧ (off + i) % 4096 = off % 4096 + i := by
  have hin := chunkLen_inside off count
  omega

theorem readLoop_succ {v : Vol} {inn : InodeMem} {fuel off count nread : Nat} {buf : Buf}
    (hv : v.Sound) (h : FileInv v inn) (hz : count ≠ 0) :
    ∃ buf', readLoop v inn (fuel + 1) off count buf nread =
        readLoop v inn fuel (off + chunkLen off count) (count - chunkLen off count) buf'
          (nread + chunkLen off count) ∧
      (∀ i < chunkLen off count, buf' (nread + i) = fileByte v inn (off + i)) ∧
      ∀ i, ¬ (nread ≤ i ∧ i < nread + chunkLen off count) → buf' i = buf i := by
  rw [readLoop, if_neg hz]
  simp only [chunkLen_eq, h.phys_eq hv]
  cases hphys : (dataBlocks v inn)[off / 4096]? with
  | none =>
    refine ⟨_, rfl, ?_, fun i hi => memset_outside hi⟩
    intro i hi
    obtain ⟨hdiv, -⟩ := chunkLen_block hi
    rw [memset_inside (by omega) (by omega), fileByte, hdiv, hphys]
  | some phys =>
    simp only [bcacheRead, hv.io, if_true]
    refine ⟨_, rfl, ?_, fun i hi => memcpy_outside hi⟩
    intro i hi
    obtain ⟨hdiv, hmod⟩ := chunkLen_block hi
    rw [memcpy_inside (by omega) (by omega), fileByte, hdiv, hphys, hmod]
    simp

theorem readLoop_spec {v : Vol} {inn : InodeMem} {fuel off count nread : Nat} {buf : Buf}
    (hv : v.Sound) (h : FileInv v inn) (hfuel : count ≤ fuel) :
    ∃ buf', readLoop v inn fuel off count buf nread = (.eok, buf', nread + count) ∧
      (∀ i < count, buf' (nread + i) = fileByte v inn (off + i)) ∧
      ∀ i, ¬ (nread ≤ i ∧ i < nread + count) → buf' i = buf i := by
  induction fuel generalizing off count buf nread with
  | zero =>
    have hz : count = 0 := by omega
    subst hz
    exact ⟨buf, rfl, fun i hi => absurd hi (Nat.not_lt_zero i), fun _ _ => rfl⟩
  | succ fuel ih =>
    by_cases hz : count = 0
    · subst hz
      exact ⟨buf, by simp [readLoop], fun i hi => absurd hi (Nat.not_lt_zero i), fun _ _ => rfl⟩
    have hpos := @chunkLen_pos off count hz
    have hle := chunkLen_le off count
    obtain ⟨buf₁, hstep, hchunk, hother⟩ := @readLoop_succ v inn fuel off count nread buf hv h hz
    generalize chunkLen off count = chunk at hpos hle hstep hchunk hother
    obtain ⟨buf', hrun, hbytes, hsame⟩ :=
      @ih (off + chunk) (count - chunk) (nread + chunk) buf₁ (by omega)
    have hend : nread + chunk + (count - chunk) = nread + count := by omega
    rw [hend] at hrun hsame
    refine ⟨buf', hstep.trans hrun, ?_, ?_⟩
    · intro i hi
      by_cases hlt : i < chunk
      · rw [hsame _ (by omega), hchunk i hlt]
      · have hrest := hbytes (i - chunk) (by omega)
        have hsub : chunk + (i - chunk) = i := by omega
        rwa [add_assoc, add_assoc, hsub] at hrest
    · intro i hi
      rw [hsame i (by omega), hother i (by omega)]

theorem blkReadFile_spec (hv : v.Sound) (h : FileInv v inn) (off : Nat) (buf : Buf) (count : Nat) :
    ∃ buf', blkReadFile v inn off buf count = (.eok, buf', min count (inn.sizeBytes - off)) ∧
      (∀ i < min count (inn.sizeBytes - off), buf' i = fileByte v inn (off + i)) ∧
      ∀ i, min count (inn.sizeBytes - off) ≤ i → buf' i = buf i := by
  unfold blkReadFile
  by_cases heof : off ≥ inn.sizeBytes
  · have hz : min count (inn.sizeBytes - off) = 0 := by omega
    rw [if_pos heof, hz]
    exact ⟨buf, rfl, fun i hi => absurd hi (Nat.not_lt_zero i), fun _ _ => rfl⟩
  have hcut : (if count > inn.sizeBytes - off then inn.sizeBytes - off else count) =
      min count (inn.sizeBytes - off) := by
    split <;> omega
  rw [if_neg heof]
  simp only [hcut]
  generalize min count (inn.sizeBytes - off) = n
  obtain ⟨buf', hrun, hbytes, hsame⟩ := @readLoop_spec v inn n off n 0 buf hv h le_rfl
  simp only [zero_add] at hrun hbytes
  exact ⟨buf', hrun, hbytes, fun i hi => hsame i (by omega)⟩

/-! ## Writing -/

/-- The effect of writing `n` bytes of `data` at `off`. The bytes are where they
belong if no run was merged into an inner extent on the way, and a byte of a new
block that was not written is that of a block that was free. -/
structure Written (v : Vol) (inn : InodeMem) (v' : Vol) (inn' : InodeMem) (off n : Nat)
    (data : Buf) : Prop where
  effect : Effect v inn v' inn'
  size : inn'.sizeBytes = if n = 0 then inn.sizeBytes else max inn.sizeBytes (off + n)
  grows : covered v inn ≤ covered v' inn'
  mapped : n ≠ 0 → off + n ≤ covered v' inn'
  order : v'.innerMerges = v.innerMerges → dataBlocks v inn <+: dataBlocks v' inn'
  inside : v'.innerMerges = v.innerMerges → ∀ i < n, fileByte v' inn' (off + i) = data i
  outside : v'.innerMerges = v.innerMerges → ∀ p < covered v inn,
    ¬ (off ≤ p ∧ p < off + n) → fileByte v' inn' p = fileByte v inn p
  free : ∀ b, v'.IsFree b → v.IsFree b ∧ v'.disk b = v.disk b
  fresh : v'.innerMerges = v.innerMerges → ∀ p, covered v inn ≤ p → p < covered v' inn' →
    ¬ (off ≤ p ∧ p < off + n) → ∃ b, v.IsFree b ∧ fileByte v' inn' p = v.disk b (p % 4096)

theorem Written.trans {v'' : Vol} {inn'' : InodeMem} {off n n' : Nat} {data data' : Buf}
    (h : Written v inn v' inn' off n data) (h' : Written v' inn' v'' inn'' (off + n) n' data')
    (hdata : ∀ i < n', data' i = data (n + i)) :
    Written v inn v'' inn'' off (n + n') data := by
  have hmid : v''.innerMerges = v.innerMerges →
      v'.innerMerges = v.innerMerges ∧ v''.innerMerges = v'.innerMerges := by
    have hle := h.effect.merges
    have hle' := h'.effect.merges
    omega
  refine ⟨h.effect.trans h'.effect, ?_, h.grows.trans h'.grows, ?_, ?_, ?_, ?_, ?_, ?_⟩
  · rw [h'.size, h.size]
    by_cases hn : n = 0
    · simp [hn]
    · by_cases hn' : n' = 0
      · simp [hn, hn']
      · have hsum : ¬ n + n' = 0 := by omega
        rw [if_neg hn, if_neg hn', if_neg hsum]
        omega
  · intro hsum
    by_cases hn' : n' = 0
    · have hfirst := h.mapped (by omega)
      have hgrows := h'.grows
      omega
    · have hsecond := h'.mapped hn'
      omega
  · intro hcount
    obtain ⟨hfirst, hsecond⟩ := hmid hcount
    exact (h.order hfirst).trans (h'.order hsecond)
  · intro hcount i hi
    obtain ⟨hfirst, hsecond⟩ := hmid hcount
    by_cases hlt : i < n
    · have hmapped := h.mapped (by omega)
      rw [h'.outside hsecond _ (by omega) (by omega), h.inside hfirst i hlt]
    · have hbyte := h'.inside hsecond (i - n) (by omega)
      have hsub : n + (i - n) = i := by omega
      rwa [add_assoc, hsub, hdata _ (by omega), hsub] at hbyte
  · intro hcount p hp hout
    obtain ⟨hfirst, hsecond⟩ := hmid hcount
    have hgrows := h.grows
    rw [h'.outside hsecond p (by omega) (by omega), h.outside hfirst p hp (by omega)]
  · intro b hb
    obtain ⟨hfree', hdisk'⟩ := h'.free b hb
    obtain ⟨hfree, hdisk⟩ := h.free b hfree'
    exact ⟨hfree, hdisk'.trans hdisk⟩
  · intro hcount p hp hp' hout
    obtain ⟨hfirst, hsecond⟩ := hmid hcount
    by_cases hmapped : p < covered v' inn'
    · obtain ⟨b, hb, hbyte⟩ := h.fresh hfirst p hp hmapped (by omega)
      exact ⟨b, hb, (h'.outside hsecond p hmapped (by omega)).trans hbyte⟩
    · obtain ⟨b, hb, hbyte⟩ := h'.fresh hsecond p (by omega) hp' (by omega)
      obtain ⟨hfree, hdisk⟩ := h.free b hb
      exact ⟨b, hfree, by rw [hbyte, hdisk]⟩

theorem Growth.isFree {added : List Nat} (h : Growth v inn v' inn' added) {b : Nat}
    (hb : v'.IsFree b) : v.IsFree b := by
  rw [h.effect.shape.isFree_iff] at hb
  refine ⟨hb.1, hb.2.1, ?_⟩
  by_contra hset
  have hset' := (h.effect.bits b).mpr (by
    by_cases hown : b ∈ inodeBlocks v inn
    · exact .inr (h.blocks_subset hown)
    · exact .inl ⟨by simpa using hset, hown⟩)
  rw [hb.2.2] at hset'
  exact Bool.noConfusion hset'

theorem Growth.written {added : List Nat} (h : Growth v inn v' inn' added) (off : Nat)
    (data : Buf) : Written v inn v' inn' off 0 data := by
  have hlen := h.perm.length_eq
  rw [length_append] at hlen
  have horder : v'.innerMerges = v.innerMerges → dataBlocks v inn <+: dataBlocks v' inn' :=
    fun hcount => ⟨added, (h.order hcount).symm⟩
  -- A data block is no indirect block, neither before nor after.
  have hdata : ∀ b ∈ dataBlocks v' inn', v'.disk b = v.disk b := fun b hb =>
    h.disk b fun hind => (nodup_append.mp h.effect.inv.nodup).2.2 b hb b hind rfl
  refine ⟨h.effect, by simp [h.size], ?_, absurd rfl, horder,
    fun _ i hi => absurd hi (Nat.not_lt_zero i), ?_, ?_, ?_⟩
  · unfold covered
    omega
  · intro hcount p hp _
    refine fileByte_congr hp (horder hcount) fun b hb => ?_
    rw [hdata b (h.perm.mem_iff.mpr (mem_append_left _ hb))]
  · intro b hb
    refine ⟨h.isFree hb, h.disk b fun hind => ?_⟩
    exact (h.effect.inv.isUsed b (mem_inodeBlocks.mpr (.inr hind))).not_free hb
  · intro hcount p hp hp' _
    have hlt : p / 4096 < (dataBlocks v' inn').length := by
      unfold covered at hp'
      omega
    have hge : (dataBlocks v inn).length ≤ p / 4096 := by
      unfold covered at hp
      omega
    obtain ⟨b, hget⟩ : ∃ b, (dataBlocks v' inn')[p / 4096]? = some b := ⟨_, getElem?_eq_getElem hlt⟩
    have hadded : b ∈ added := by
      rw [h.order hcount, getElem?_append_right hge] at hget
      exact mem_of_getElem? hget
    refine ⟨b, h.free b hadded, ?_⟩
    rw [fileByte, hget]
    simp only [hdata b (mem_of_getElem? hget)]

theorem FileInv.putBlock {v : Vol} {inn inn' : InodeMem} {phys : Nat} {data : Buf}
    (h : FileInv v inn) (hmem : phys ∈ dataBlocks v inn) (hdir : inn'.direct = inn.direct)
    (hind : inn'.indirectExtentBlock = inn.indirectExtentBlock)
    (hused : inn'.blocksUsed = inn.blocksUsed) :
    FileInv (v.putBlock phys data) inn' ∧
      extentList (v.putBlock phys data) inn' = extentList v inn ∧
      inodeBlocks (v.putBlock phys data) inn' = inodeBlocks v inn := by
  have hnotInd : phys ∉ indirectBlocks inn := fun hb =>
    (nodup_append.mp h.nodup).2.2 phys hmem phys hb rfl
  have hslot : ∀ m, slotAt (v.putBlock phys data) inn' m = slotAt v inn m := by
    refine slotAt_congr hdir hind fun b hb => if_neg ?_
    rintro rfl
    exact hnotInd hb
  have hindBlocks : indirectBlocks inn' = indirectBlocks inn := by
    rw [indirectBlocks, indirectBlocks, hind]
  exact h.congr (fun m _ => hslot m) hindBlocks hused h.isUsed

/-- The inode after a chunk of `blk_write_file` that ends at `stop`. -/
def chunkInode (inn : InodeMem) (stop : Nat) : InodeMem :=
  {inn with sizeBytes := if stop > inn.sizeBytes then stop else inn.sizeBytes, dirty := true}

theorem written_chunk {v : Vol} {inn : InodeMem} {off phys n : Nat} {buf : Buf} {at_ : Nat}
    (h : FileInv v inn) (hphys : (dataBlocks v inn)[off / 4096]? = some phys)
    (hin : off % 4096 + n ≤ 4096) (hpos : 0 < n) :
    Written v inn (v.putBlock phys (memcpy (v.disk phys) (off % 4096) buf at_ n))
      (chunkInode inn (off + n)) off n (fun i => buf (at_ + i)) := by
  obtain ⟨hlt, hget⟩ := List.getElem?_eq_some_iff.mp hphys
  have hmem : phys ∈ dataBlocks v inn := mem_of_getElem? hphys
  have hsize : (chunkInode inn (off + n)).sizeBytes = max inn.sizeBytes (off + n) := by
    rw [chunkInode]
    dsimp only
    split <;> omega
  have hsame : SameId inn (chunkInode inn (off + n)) := ⟨rfl, rfl, rfl, rfl⟩
  obtain ⟨hinv', hlist, hblocks⟩ := @FileInv.putBlock v inn (chunkInode inn (off + n)) phys
    (memcpy (v.disk phys) (off % 4096) buf at_ n) h hmem rfl rfl rfl
  generalize hv' : v.putBlock phys (memcpy (v.disk phys) (off % 4096) buf at_ n) = v'
    at hinv' hlist hblocks
  generalize chunkInode inn (off + n) = inn' at *
  have hdisk : ∀ b ≠ phys, v'.disk b = v.disk b := by
    intro b hb
    rw [← hv']
    exact if_neg hb
  have hphysDisk : v'.disk phys = memcpy (v.disk phys) (off % 4096) buf at_ n := by
    rw [← hv']
    exact if_pos rfl
  have hshape : SameShape v v' := hv' ▸ SameShape.putBlock _ _ _
  have hbm : v'.bmMem = v.bmMem := by rw [← hv']; rfl
  have hdata : dataBlocks v' inn' = dataBlocks v inn := by rw [dataBlocks, hlist, dataBlocks]
  have hcovered : covered v' inn' = covered v inn := by rw [covered, hdata, covered]
  have hreflexive := Effect.refl h
  refine ⟨⟨hshape, hsame, hinv', ?_, ?_, ?_, ?_, ?_⟩, ?_, hcovered.ge, ?_, ?_, ?_, ?_, ?_, ?_⟩
  · intro b
    rw [hbm, hblocks]
    exact hreflexive.bits b
  · intro b hb
    rw [hblocks] at hb
    exact .inl hb
  · intro b _ hb
    exact hdisk b fun heq => hb (mem_inodeBlocks.mpr (.inl (heq ▸ hmem)))
  · rw [Vol.FreeExact, Vol.FreeExact, ← hv']
    exact id
  · rw [← hv']
    exact le_rfl
  · rw [if_neg (by omega), hsize]
  · intro _
    rw [hcovered, covered]
    omega
  · exact fun _ => by rw [hdata]
  · intro _ i hi
    have hdiv : (off + i) / 4096 = off / 4096 := by omega
    have hmod : (off + i) % 4096 = off % 4096 + i := by omega
    rw [fileByte, hdata, hdiv, hphys, hmod]
    simp only [hphysDisk]
    rw [memcpy_inside (by omega) (by omega)]
    simp
  · intro _ p hp hout
    unfold fileByte
    rw [hdata]
    cases hblock : (dataBlocks v inn)[p / 4096]? with
    | none => rfl
    | some b =>
      by_cases hb : b = phys
      · -- The same physical block is the same logical block, since no block occurs twice.
        subst hb
        obtain ⟨hlt', hget'⟩ := List.getElem?_eq_some_iff.mp hblock
        have hsameBlock : p / 4096 = off / 4096 :=
          (List.Nodup.getElem_inj_iff h.dataBlocks_nodup).mp (hget'.trans hget.symm)
        simp only [hphysDisk]
        exact memcpy_outside (by omega)
      · simp [hdisk b hb]
  · intro b hb
    have hfree : v.IsFree b := by
      rw [hshape.isFree_iff, hbm] at hb
      exact hb
    refine ⟨hfree, hdisk b ?_⟩
    rintro rfl
    exact (h.isUsed b (mem_inodeBlocks.mpr (.inl hmem))).not_free hfree
  · intro _ p hp hp' _
    omega

theorem writeTarget_mapped (hv : v.Sound) (h : FileInv v inn) {lb : Nat}
    (hlt : lb < (dataBlocks v inn).length) : ∃ phys, (dataBlocks v inn)[lb]? = some phys ∧
      writeTarget v inn lb = (.ok phys, v, inn) := by
  refine ⟨_, getElem?_eq_getElem hlt, ?_⟩
  unfold writeTarget
  rw [h.phys_eq hv, getElem?_eq_getElem hlt]

theorem writeTarget_spec (hv : v.Sound) (h : FileInv v inn) (lb : Nat) :
    ∃ r v' inn' added, writeTarget v inn lb = (r, v', inn') ∧ Growth v inn v' inn' added ∧
      ((∃ phys, r = .ok phys ∧ (dataBlocks v' inn')[lb]? = some phys) ∨
        ∃ rc, r = .error rc ∧ rc ≠ .eok) := by
  unfold writeTarget
  rw [h.phys_eq hv]
  cases hphys : (dataBlocks v inn)[lb]? with
  | some phys => exact ⟨.ok phys, v, inn, [], rfl, Growth.refl h, .inl ⟨phys, rfl, hphys⟩⟩
  | none =>
    obtain ⟨rc, v', inn', added, hrun, hgrow, hend⟩ := growToNolock_spec hv h lb
    have hv' := hgrow.effect.shape.sound hv
    rcases hend with ⟨rfl, hlt, -⟩ | rfl | rfl
    · have hget := getElem?_eq_getElem hlt
      exact ⟨.ok _, v', inn', added, by simp only [hrun, hgrow.effect.inv.phys_eq hv', hget],
        hgrow, .inl ⟨_, rfl, hget⟩⟩
    · exact ⟨.error .einval, v', inn', added, by simp only [hrun], hgrow,
        .inr ⟨_, rfl, by decide⟩⟩
    · exact ⟨.error .enospc, v', inn', added, by simp only [hrun], hgrow,
        .inr ⟨_, rfl, by decide⟩⟩

theorem writeLoop_spec {buf : Buf} {fuel off count nw : Nat} {v : Vol} {inn : InodeMem}
    (hv : v.Sound) (h : FileInv v inn) (hfuel : count ≤ fuel) :
    ∃ rc v' inn' w, writeLoop buf fuel v inn off count nw = (rc, v', inn', nw + w) ∧
      Written v inn v' inn' off w (fun i => buf (nw + i)) ∧ w ≤ count ∧
      (rc = .eok → w = count) := by
  induction fuel generalizing off count nw v inn with
  | zero =>
    exact ⟨.eok, v, inn, 0, rfl, (Growth.refl h).written off _, Nat.zero_le _,
      fun _ => by omega⟩
  | succ fuel ih =>
    rw [writeLoop]
    split_ifs with hz
    · exact ⟨.eok, v, inn, 0, rfl, (Growth.refl h).written off _, Nat.zero_le _,
        fun _ => hz.symm⟩
    have hpos := @chunkLen_pos off count hz
    have hle := chunkLen_le off count
    have hin := chunkLen_inside off count
    obtain ⟨r, v₁, inn₁, added, htarget, hgrow, ⟨phys, rfl, hphys⟩ | ⟨rc, rfl, hrc⟩⟩ :=
      writeTarget_spec hv h (off / 4096)
    · have hv₁ := hgrow.effect.shape.sound hv
      have hfirst := hgrow.written off fun i => buf (nw + i)
      simp only [chunkLen_eq, htarget, bcacheGet, bcacheRead, hv₁.io, if_true, ite_self]
      generalize chunkLen off count = chunk at hpos hle hin
      have hchunk := @written_chunk v₁ inn₁ off phys chunk buf nw hgrow.effect.inv hphys hin hpos
      have hboth := hfirst.trans hchunk fun i _ => by simp
      rw [zero_add] at hboth
      obtain ⟨rc, v', inn', w, hrun, hrest, hw, hfull⟩ :=
        @ih (off + chunk) (count - chunk) (nw + chunk) _ _
          (hboth.effect.shape.sound hv) hboth.effect.inv (by omega)
      refine ⟨rc, v', inn', chunk + w, hrun.trans (by rw [add_assoc]), ?_, by omega,
        fun hok => by have := hfull hok; omega⟩
      exact hboth.trans hrest fun i _ => by simp [add_assoc]
    · refine ⟨rc, v₁, inn₁, 0, by simp only [htarget, add_zero],
        hgrow.written off _, Nat.zero_le _, fun hok => absurd hok hrc⟩

theorem blkWriteFile_spec (hv : v.Sound) (h : FileInv v inn) (off : Nat) (buf : Buf) (count : Nat) :
    ∃ rc v' inn' w, blkWriteFile v inn off buf count = (rc, v', inn', w) ∧
      Written v inn v' inn' off w buf ∧ w ≤ count ∧ (rc = .eok → w = count) := by
  obtain ⟨rc, v', inn', w, hrun, hwritten, hw, hfull⟩ :=
    @writeLoop_spec buf count off count 0 v inn hv h le_rfl
  simp only [zero_add] at hrun hwritten
  exact ⟨rc, v', inn', w, hrun, hwritten, hw, hfull⟩

/-- The loop of `blk_write_file` over bytes that are all mapped: it succeeds and
allocates nothing. -/
theorem writeLoop_mapped {buf : Buf} {fuel off count nw : Nat} {v : Vol} {inn : InodeMem}
    (hv : v.Sound) (h : FileInv v inn) (hfuel : count ≤ fuel)
    (hcov : off + count ≤ covered v inn) :
    ∃ v' inn', writeLoop buf fuel v inn off count nw = (.eok, v', inn', nw + count) ∧
      Written v inn v' inn' off count (fun i => buf (nw + i)) ∧
      v'.innerMerges = v.innerMerges ∧ v'.bmMem = v.bmMem ∧ v'.sb = v.sb ∧
      extentList v' inn' = extentList v inn := by
  induction fuel generalizing off count nw v inn with
  | zero =>
    obtain rfl : count = 0 := by omega
    exact ⟨v, inn, rfl, (Growth.refl h).written off _, rfl, rfl, rfl, rfl⟩
  | succ fuel ih =>
    rw [writeLoop]
    by_cases hz : count = 0
    · subst hz
      rw [if_pos rfl]
      exact ⟨v, inn, rfl, (Growth.refl h).written off _, rfl, rfl, rfl, rfl⟩
    rw [if_neg hz]
    have hpos := @chunkLen_pos off count hz
    have hle := chunkLen_le off count
    have hin := chunkLen_inside off count
    have hlt : off / 4096 < (dataBlocks v inn).length := by
      unfold covered at hcov
      omega
    obtain ⟨phys, hphys, htarget⟩ := writeTarget_mapped hv h hlt
    simp only [chunkLen_eq, htarget, bcacheGet, bcacheRead, hv.io, if_true, ite_self]
    generalize chunkLen off count = chunk at hpos hle hin
    have hchunk := @written_chunk v inn off phys chunk buf nw h hphys hin hpos
    obtain ⟨-, hlist₂, -⟩ := @FileInv.putBlock v inn (chunkInode inn (off + chunk)) phys
      (memcpy (v.disk phys) (off % 4096) buf nw chunk) h (mem_of_getElem? hphys) rfl rfl rfl
    have hgrows := hchunk.grows
    obtain ⟨v', inn', hrun, hrest, hmerges, hbm, hsb, hlist⟩ :=
      @ih (off + chunk) (count - chunk) (nw + chunk) _ _
        (hchunk.effect.shape.sound hv) hchunk.effect.inv (by omega) (by omega)
    have hboth := hchunk.trans hrest fun i _ => by simp [add_assoc]
    have hsum : chunk + (count - chunk) = count := by omega
    rw [hsum] at hboth
    exact ⟨v', inn', hrun.trans (by rw [add_assoc, hsum]), hboth, hmerges, hbm, hsb,
      hlist.trans hlist₂⟩

theorem blkWriteFile_mapped {v : Vol} {inn : InodeMem} (hv : v.Sound) (h : FileInv v inn)
    {off count : Nat} (buf : Buf) (hcov : off + count ≤ covered v inn) :
    ∃ v' inn', blkWriteFile v inn off buf count = (.eok, v', inn', count) ∧
      Written v inn v' inn' off count buf ∧ v'.innerMerges = v.innerMerges ∧
      v'.bmMem = v.bmMem ∧ v'.sb = v.sb ∧ extentList v' inn' = extentList v inn := by
  obtain ⟨v', inn', hrun, hwritten, hrest⟩ :=
    @writeLoop_mapped buf count off count 0 v inn hv h le_rfl hcov
  simp only [zero_add] at hrun hwritten
  exact ⟨v', inn', hrun, hwritten, hrest⟩

/-- `blk_write_file` of at most one block right behind the mapped blocks: it takes
the lowest free block, or fails without a change of the inode. -/
theorem blkWriteFile_next {v : Vol} {inn : InodeMem} (hv : v.Sound) (h : FileInv v inn)
    {count : Nat} (buf : Buf) (hpos : 0 < count) (hcount : count ≤ 4096) :
    (∃ v' inn' start, blkWriteFile v inn (covered v inn) buf count = (.eok, v', inn', count) ∧
      Written v inn v' inn' (covered v inn) count buf ∧
      (dataBlocks v' inn').Perm (dataBlocks v inn ++ [start]) ∧
      v.IsFree start ∧ (∀ b, v.IsFree b → start ≤ b) ∧ (∀ b, v'.IsFree b → v.IsFree b) ∧
      v'.innerMerges = v.innerMerges + (mergesInside (extentList v inn) start).toNat) ∨
    ∃ rc v', blkWriteFile v inn (covered v inn) buf count = (rc, v', inn, 0) ∧
      (rc = .einval ∨ rc = .enospc) ∧ Growth v inn v' inn [] ∧
      v'.innerMerges = v.innerMerges ∧ Full v inn := by
  have hdiv : covered v inn / 4096 = (dataBlocks v inn).length := by
    unfold covered
    omega
  have hmod : covered v inn % 4096 = 0 := by
    unfold covered
    omega
  have hnone : kzfsGetPhysBlock v inn (dataBlocks v inn).length = none := by
    rw [h.phys_eq hv]
    exact getElem?_eq_none le_rfl
  have hchunk : (if 4096 - covered v inn % 4096 > count then count
      else 4096 - covered v inn % 4096) = count := by
    rw [hmod]
    split <;> omega
  obtain ⟨fuel, rfl⟩ : ∃ fuel, count = fuel + 1 := ⟨count - 1, by omega⟩
  rcases growToNolock_next hv h with ⟨v₁, inn₁, start, hcall, hgrow, hlowest, hmerges⟩ |
    ⟨rc, v', hcall, hrc, hgrow, hmerges, hwhy⟩
  · left
    have hv₁ := hgrow.effect.shape.sound hv
    have hperm := hgrow.perm
    have hlen := hperm.length_eq
    rw [length_append, length_singleton] at hlen
    have hlt : (dataBlocks v inn).length < (dataBlocks v₁ inn₁).length := by omega
    obtain ⟨phys, hphys⟩ : ∃ phys, (dataBlocks v₁ inn₁)[(dataBlocks v inn).length]? = some phys :=
      ⟨_, getElem?_eq_getElem hlt⟩
    have htarget : writeTarget v inn (dataBlocks v inn).length = (.ok phys, v₁, inn₁) := by
      unfold writeTarget
      rw [hnone]
      simp [hcall, hgrow.effect.inv.phys_eq hv₁, hphys]
    have hphys' : (dataBlocks v₁ inn₁)[covered v inn / 4096]? = some phys := by
      rw [hdiv]
      exact hphys
    have hinside : covered v inn % 4096 + (fuel + 1) ≤ 4096 := by
      rw [hmod]
      omega
    have hput := @written_chunk v₁ inn₁ (covered v inn) phys (fuel + 1) buf 0 hgrow.effect.inv hphys'
      hinside hpos
    obtain ⟨-, hlist₂, -⟩ := @FileInv.putBlock v₁ inn₁ (chunkInode inn₁ (covered v inn + (fuel + 1)))
      phys (memcpy (v₁.disk phys) (covered v inn % 4096) buf 0 (fuel + 1)) hgrow.effect.inv
      (mem_of_getElem? hphys) rfl rfl rfl
    simp only [zero_add] at hput
    rw [← add_zero (covered v inn)] at hput
    have hboth := (hgrow.written (covered v inn) buf).trans hput fun i _ => by rw [zero_add]
    rw [zero_add, add_zero] at hboth
    refine ⟨_, _, start, ?_, hboth, ?_, hgrow.free start (by simp), hlowest,
      fun b hb => hgrow.isFree hb, hmerges⟩
    · rw [blkWriteFile, writeLoop, if_neg (by omega)]
      simp only [hchunk, hdiv, htarget, bcacheGet, bcacheRead, hv₁.io, if_true, ite_self,
        Nat.sub_self, zero_add]
      cases fuel with
      | zero => rfl
      | succ fuel =>
        rw [writeLoop, if_pos rfl]
        rfl
    · rw [dataBlocks, hlist₂]
      exact hperm
  · right
    refine ⟨rc, v', ?_, hrc, hgrow, hmerges, hwhy⟩
    have htarget : writeTarget v inn (dataBlocks v inn).length = (.error rc, v', inn) := by
      unfold writeTarget
      rw [hnone]
      rcases hrc with rfl | rfl <;> simp [hcall]
    rw [blkWriteFile, writeLoop, if_neg (by omega)]
    simp [hdiv, htarget]

end Kyuzen.Kfs
