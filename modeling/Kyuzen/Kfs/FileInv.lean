import Kyuzen.Kfs.SlotUpdate

/-!
The invariant of one inode against the bitmap, and the effect that a call on
that inode may have on the volume. Effects compose, so each loop of the block
layer is described by the effect of one round.
-/

namespace Kyuzen.Kfs

variable {v v' : Vol} {inn inn' : InodeMem} {b : Nat}

/-- Block accesses succeed, block 0 is no data block, and the volume is one of a
disk with 32-bit sector numbers. -/
structure Vol.Sound (v : Vol) : Prop where
  io : ∀ b, v.env.io b = true
  data : 0 < v.dataStart
  total : v.sb.totalBlocks ≤ 2 ^ 29

theorem SameShape.sound (h : SameShape v v') (hv : v.Sound) : v'.Sound :=
  ⟨by rw [h.env]; exact hv.io, by rw [h.dataStart]; exact hv.data,
    by rw [h.totalBlocks]; exact hv.total⟩

def dataBlocks (v : Vol) (inn : InodeMem) : List Nat := blocksOf (extentList v inn)

def inodeBlocks (v : Vol) (inn : InodeMem) : List Nat := dataBlocks v inn ++ indirectBlocks inn

def Vol.IsUsed (v : Vol) (b : Nat) : Prop :=
  v.dataStart ≤ b ∧ b < v.sb.totalBlocks ∧ bmTest v.bmMem b = true

theorem Vol.IsFree.not_set (h : v.IsFree b) : ¬ bmTest v.bmMem b = true := by
  rw [h.2.2]
  exact Bool.false_ne_true

theorem Vol.IsUsed.not_free (h : v.IsUsed b) : ¬ v.IsFree b := by
  intro hfree
  exact hfree.not_set h.2.2

/-- The used slots stand in front, and the inode owns each of its blocks once. -/
structure FileInv (v : Vol) (inn : InodeMem) : Prop where
  slots : SlotsFrom v inn 0 (extentList v inn)
  nodup : (inodeBlocks v inn).Nodup
  isUsed : ∀ b ∈ inodeBlocks v inn, v.IsUsed b
  used : inn.blocksUsed = (inodeBlocks v inn).length

theorem FileInv.phys_eq (hv : v.Sound) (h : FileInv v inn) (lb : Nat) :
    kzfsGetPhysBlock v inn lb = (dataBlocks v inn)[lb]? := kzfsGetPhysBlock_eq hv.io h.slots lb

theorem mem_inodeBlocks : b ∈ inodeBlocks v inn ↔ b ∈ dataBlocks v inn ∨ b ∈ indirectBlocks inn :=
  List.mem_append

theorem mem_indirectBlocks :
    b ∈ indirectBlocks inn ↔ inn.indirectExtentBlock ≠ 0 ∧ b = inn.indirectExtentBlock := by
  unfold indirectBlocks
  by_cases hz : inn.indirectExtentBlock = 0
  · simp [hz]
  · simp [hz]

theorem indirectBlocks_inj (h : indirectBlocks inn' = indirectBlocks inn) :
    inn'.indirectExtentBlock = inn.indirectExtentBlock := by
  have hmem : ∀ b, b ∈ indirectBlocks inn' ↔ b ∈ indirectBlocks inn := by simp [h]
  simp only [mem_indirectBlocks] at hmem
  have hleft := hmem inn.indirectExtentBlock
  have hright := hmem inn'.indirectExtentBlock
  by_cases hz : inn'.indirectExtentBlock = 0
  · by_contra hne
    exact hne (hleft.mpr ⟨by omega, rfl⟩).2.symm
  · exact (hright.mp ⟨hz, rfl⟩).2

theorem mem_blocksOf {l : List Extent} :
    b ∈ blocksOf l ↔ ∃ e ∈ l, e.startBlock ≤ b ∧ b < e.stop := by
  simp [blocksOf, List.mem_flatMap, List.mem_range'_1, Extent.stop]

theorem FileInv.congr {v v' : Vol} {inn inn' : InodeMem} (h : FileInv v inn)
    (hslot : ∀ m < 345, slotAt v' inn' m = slotAt v inn m)
    (hind : indirectBlocks inn' = indirectBlocks inn)
    (hused : inn'.blocksUsed = inn.blocksUsed)
    (hbits : ∀ b ∈ inodeBlocks v inn, v'.IsUsed b) :
    FileInv v' inn' ∧ extentList v' inn' = extentList v inn ∧
      inodeBlocks v' inn' = inodeBlocks v inn := by
  have hslots : SlotsFrom v' inn' 0 (extentList v inn) := h.slots.congr fun m _ => hslot m
  have hlist := hslots.extentList_eq
  have hblocks : inodeBlocks v' inn' = inodeBlocks v inn := by
    rw [inodeBlocks, dataBlocks, hlist, hind, inodeBlocks, dataBlocks]
  refine ⟨⟨by rw [hlist]; exact hslots, by rw [hblocks]; exact h.nodup,
    by rw [hblocks]; exact hbits, by rw [hblocks, hused]; exact h.used⟩, hlist, hblocks⟩

theorem slotAt_congr (hdir : inn'.direct = inn.direct)
    (hind : inn'.indirectExtentBlock = inn.indirectExtentBlock)
    (hdisk : ∀ b ∈ indirectBlocks inn, v'.disk b = v.disk b) (m : Nat) :
    slotAt v' inn' m = slotAt v inn m := by
  unfold slotAt
  by_cases hz : inn.indirectExtentBlock = 0
  · simp [hdir, hind, hz]
  · rw [hdir, hind, hdisk _ (mem_indirectBlocks.mpr ⟨hz, rfl⟩)]

/-! ## Effects -/

/-- What a call on one inode may do to the volume: it exchanges the blocks of
the inode for others that were its own or free, and leaves every other used
block alone. -/
structure Effect (v : Vol) (inn : InodeMem) (v' : Vol) (inn' : InodeMem) : Prop where
  shape : SameShape v v'
  same : SameId inn inn'
  inv : FileInv v' inn'
  bits : ∀ b, bmTest v'.bmMem b = true ↔
    (bmTest v.bmMem b = true ∧ b ∉ inodeBlocks v inn) ∨ b ∈ inodeBlocks v' inn'
  fresh : ∀ b ∈ inodeBlocks v' inn', b ∈ inodeBlocks v inn ∨ v.IsFree b
  disk : ∀ b, bmTest v.bmMem b = true → b ∉ inodeBlocks v inn → v'.disk b = v.disk b
  count : v.FreeExact → v'.FreeExact
  merges : v.innerMerges ≤ v'.innerMerges

theorem Effect.refl (h : FileInv v inn) : Effect v inn v inn where
  shape := SameShape.refl v
  same := SameId.refl inn
  inv := h
  bits b := by
    constructor
    · intro hset
      by_cases hb : b ∈ inodeBlocks v inn
      · exact .inr hb
      · exact .inl ⟨hset, hb⟩
    · rintro (⟨hset, -⟩ | hb)
      · exact hset
      · exact (h.isUsed b hb).2.2
  fresh _ hb := .inl hb
  disk _ _ _ := rfl
  count hv := hv
  merges := le_rfl

theorem Effect.foreign (h : Effect v inn v' inn') (hset : bmTest v.bmMem b = true)
    (hb : b ∉ inodeBlocks v inn) :
    b ∉ inodeBlocks v' inn' := by
  intro hb'
  rcases h.fresh b hb' with hold | hfree
  · exact hb hold
  · exact hfree.not_set hset

theorem Effect.trans {v'' : Vol} {inn'' : InodeMem} (h : Effect v inn v' inn')
    (h' : Effect v' inn' v'' inn'') : Effect v inn v'' inn'' where
  shape := h.shape.trans h'.shape
  same := h.same.trans h'.same
  inv := h'.inv
  bits b := by
    rw [h'.bits b, h.bits b]
    constructor
    · rintro (⟨hold | hnew, hb⟩ | hb)
      · exact .inl hold
      · exact absurd hnew hb
      · exact .inr hb
    · rintro (⟨hset, hb⟩ | hb)
      · exact .inl ⟨.inl ⟨hset, hb⟩, h.foreign hset hb⟩
      · exact .inr hb
  fresh b hb := by
    rcases h'.fresh b hb with hmid | hfree
    · exact h.fresh b hmid
    by_cases hold : b ∈ inodeBlocks v inn
    · exact .inl hold
    rw [h.shape.isFree_iff] at hfree
    refine .inr ⟨hfree.1, hfree.2.1, ?_⟩
    by_contra hset
    have hset' := (h.bits b).mpr (.inl ⟨by simpa using hset, hold⟩)
    rw [hfree.2.2] at hset'
    exact Bool.noConfusion hset'
  disk b hset hb := by
    have hset' := (h.bits b).mpr (.inl ⟨hset, hb⟩)
    rw [h'.disk b hset' (h.foreign hset hb), h.disk b hset hb]
  count hv := h'.count (h.count hv)
  merges := le_trans h.merges h'.merges

end Kyuzen.Kfs
