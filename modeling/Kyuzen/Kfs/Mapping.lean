import Kyuzen.Kfs.Shrink

/-!
The mapping from logical to physical blocks over the life of an inode, and what
one more `grow_to_nolock` does to it.
-/

namespace Kyuzen.Kfs

open List

/-- What the rest of the system may do between two calls on an inode: anything
that leaves the geometry, the bits of its blocks and its indirect block. -/
structure Others (v : Vol) (inn : InodeMem) (v' : Vol) : Prop where
  sound : v'.Sound
  dataStart : v'.dataStart = v.dataStart
  totalBlocks : v'.sb.totalBlocks = v.sb.totalBlocks
  bits : ∀ b ∈ inodeBlocks v inn, bmTest v'.bmMem b = true
  indirect : ∀ b ∈ indirectBlocks inn, v'.disk b = v.disk b

/-- The inodes that the code's own calls build from an empty one, with any
activity of others in between, on a volume whose block accesses succeed. -/
inductive Built : Vol → InodeMem → Prop where
  | empty {v : Vol} {inn : InodeMem} (hv : v.Sound)
      (hdirect : ∀ i, (inn.direct i).blockCount = 0)
      (hind : inn.indirectExtentBlock = 0) (hused : inn.blocksUsed = 0) : Built v inn
  | grow {v v' : Vol} {inn inn' : InodeMem} {rc : Rc} (lb : Nat) (h : Built v inn)
      (hcall : growToNolock v inn lb = (rc, v', inn')) : Built v' inn'
  | truncate {v v' : Vol} {inn inn' : InodeMem} {rc : Rc} (newSize : Nat) (h : Built v inn)
      (hcall : truncateNolock v inn newSize = (rc, v', inn')) : Built v' inn'
  | freeAll {v v' : Vol} {inn inn' : InodeMem} (h : Built v inn)
      (hcall : inodeFreeAllExtents v inn = (v', inn')) : Built v' inn'
  | fields {v : Vol} {inn inn' : InodeMem} (h : Built v inn) (hdirect : inn'.direct = inn.direct)
      (hind : inn'.indirectExtentBlock = inn.indirectExtentBlock)
      (hused : inn'.blocksUsed = inn.blocksUsed) : Built v inn'
  | others {v v' : Vol} {inn : InodeMem} (h : Built v inn) (hothers : Others v inn v') :
      Built v' inn

theorem FileInv.of_empty {v : Vol} {inn : InodeMem}
    (hdirect : ∀ i, (inn.direct i).blockCount = 0) (hind : inn.indirectExtentBlock = 0)
    (hused : inn.blocksUsed = 0) : FileInv v inn := by
  have hslots : SlotsFrom v inn 0 [] := by
    intro m _ _
    unfold slotAt
    by_cases h4 : m < 4
    · simp [h4, hdirect]
    · simp [h4, hind]
  have hblocks : inodeBlocks v inn = [] := by
    rw [inodeBlocks, dataBlocks, hslots.extentList_eq, indirectBlocks, if_pos hind]
    rfl
  exact ⟨by rw [hslots.extentList_eq]; exact hslots, by simp [hblocks], by simp [hblocks],
    by simp [hblocks, hused]⟩

/-- Every built inode owns its blocks exactly. -/
theorem Built.inv {v : Vol} {inn : InodeMem} (h : Built v inn) : v.Sound ∧ FileInv v inn := by
  induction h with
  | empty hv hdirect hind hused => exact ⟨hv, FileInv.of_empty hdirect hind hused⟩
  | grow lb _ hcall ih =>
    obtain ⟨hv, hinv⟩ := ih
    obtain ⟨rc, v', inn', added, hrun, hgrow, -⟩ := growToNolock_spec hv hinv lb
    rw [hrun] at hcall
    cases hcall
    exact ⟨hgrow.effect.shape.sound hv, hgrow.effect.inv⟩
  | truncate newSize _ hcall ih =>
    obtain ⟨hv, hinv⟩ := ih
    obtain ⟨v', inn', hrun, heffect, -⟩ := truncateNolock_spec hv hinv newSize
    rw [hrun] at hcall
    cases hcall
    exact ⟨heffect.shape.sound hv, heffect.inv⟩
  | freeAll _ hcall ih =>
    obtain ⟨hv, hinv⟩ := ih
    obtain ⟨v', inn', hrun, heffect, -⟩ := inodeFreeAllExtents_spec hv hinv
    rw [hrun] at hcall
    cases hcall
    exact ⟨heffect.shape.sound hv, heffect.inv⟩
  | fields _ hdirect hind hused ih =>
    obtain ⟨hv, hinv⟩ := ih
    refine ⟨hv, (hinv.congr (fun m _ => slotAt_congr hdirect hind (fun _ _ => rfl) m) ?_ hused
      hinv.isUsed).1⟩
    rw [indirectBlocks, indirectBlocks, hind]
  | others _ hothers ih =>
    obtain ⟨hv, hinv⟩ := ih
    refine ⟨hothers.sound, (hinv.congr
      (fun m _ => slotAt_congr rfl rfl hothers.indirect m) rfl rfl ?_).1⟩
    intro b hb
    obtain ⟨hlow, hhigh, -⟩ := hinv.isUsed b hb
    exact ⟨by rw [hothers.dataStart]; exact hlow, by rw [hothers.totalBlocks]; exact hhigh,
      hothers.bits b hb⟩

/-- Every mapped block stays where it was, and the new logical blocks are mapped
to blocks that were free. -/
def KeepsMapping (v : Vol) (inn : InodeMem) (v' : Vol) (inn' : InodeMem) : Prop :=
  (∀ b p, kzfsGetPhysBlock v inn b = some p → kzfsGetPhysBlock v' inn' b = some p) ∧
    ∀ b p, kzfsGetPhysBlock v inn b = none → kzfsGetPhysBlock v' inn' b = some p → v.IsFree p

section

variable {v v' : Vol} {inn inn' : InodeMem}

theorem Growth.keepsMapping_iff {added : List Nat} (hv : v.Sound) (hinv : FileInv v inn)
    (hgrow : Growth v inn v' inn' added) :
    KeepsMapping v inn v' inn' ↔ ∀ e ∈ (extentList v inn).dropLast, e.stop ∉ added := by
  have hinv' := hgrow.effect.inv
  unfold KeepsMapping
  simp only [hinv.phys_eq hv, hinv'.phys_eq (hgrow.effect.shape.sound hv)]
  have hiff := hgrow.kept.prefix_iff hinv.slots.pos hinv'.dataBlocks_nodup
  constructor
  · rintro ⟨hkeep, -⟩
    refine hiff.mp (prefix_iff_getElem?.mpr fun i hi => ?_)
    exact hkeep i _ (getElem?_eq_getElem hi)
  intro hcond
  obtain ⟨rest, hrest⟩ := hiff.mpr hcond
  have hsplit : dataBlocks v' inn' = dataBlocks v inn ++ rest := hrest.symm
  have hperm := hgrow.perm
  rw [hsplit, perm_append_left_iff] at hperm
  rw [hsplit]
  constructor
  · intro b p hp
    rw [getElem?_append_left (List.getElem?_eq_some_iff.mp hp).1, hp]
  · intro b p hnone hp
    rw [getElem?_append_right (List.getElem?_eq_none_iff.mp hnone)] at hp
    exact hgrow.free p (hperm.mem_iff.mp (mem_of_getElem? hp))

/-- An extent can only touch the start of a free run: its own last block is used. -/
theorem FileInv.stop_mem_run (hinv : FileInv v inn) {e : Extent} (he : e ∈ extentList v inn)
    {start n : Nat} (hrun : v.FreeRun start n) : e.stop ∈ range' start n ↔ e.stop = start ∧ 0 < n := by
  have hpos := hinv.slots.pos e he
  have hlast : e.stop - 1 ∈ dataBlocks v inn :=
    mem_blocksOf.mpr ⟨e, he, by rw [Extent.stop]; omega, by rw [Extent.stop]; omega⟩
  have hused := hinv.isUsed _ (mem_inodeBlocks.mpr (.inl hlast))
  rw [mem_range'_1]
  refine ⟨fun hin => ?_, fun h => by omega⟩
  by_contra hne
  have hstop : e.stop = e.startBlock + e.blockCount := rfl
  exact hused.not_free (hrun _ (by omega) (by omega))

end

def smallVol : Vol where
  disk _ _ := 5
  env := ⟨fun _ => true, fun _ => true, fun _ => 0⟩
  sb := ⟨0x53465A4B, 0x00040000, 4096, 12, 8, 32, 30, 1, 1, 2, 1, 3, 1, 4, 1⟩
  bmMem i := if i = 0 then 15 else 0
  bmDirty := false
  ibmMem i := if i = 0 then 6 else 0
  ibmDirty := false
  bmBlocks := 1
  ibmBlocks := 1
  itBlock0 := 3
  dataStart := 4
  rootIno := 1
  innerMerges := 0

def emptyFile : InodeMem := ⟨2, flagFile, 1, 0, 0, fun _ => ⟨0, 0⟩, 0, false, 1⟩

theorem smallVol_sound : smallVol.Sound := ⟨fun _ => rfl, by decide, by decide⟩

theorem built_emptyFile : Built smallVol emptyFile := .empty smallVol_sound (fun _ => rfl) rfl rfl

/-- One file takes block 4, another one block 5, the first one block 6; then the
second file is cut. -/
def firstGrow : Rc × Vol × InodeMem := growToNolock smallVol emptyFile 0
def otherGrow : Rc × Vol × InodeMem := growToNolock firstGrow.2.1 emptyFile 0
def secondGrow : Rc × Vol × InodeMem := growToNolock otherGrow.2.1 firstGrow.2.2 1
def otherCut : Rc × Vol × InodeMem := truncateNolock secondGrow.2.1 otherGrow.2.2 0
def thirdGrow : Rc × Vol × InodeMem := growToNolock otherCut.2.1 secondGrow.2.2 2

theorem built_firstGrow : Built firstGrow.2.1 firstGrow.2.2 := .grow 0 built_emptyFile rfl

theorem built_secondGrow : Built secondGrow.2.1 secondGrow.2.2 := by
  have hdirect : indirectBlocks firstGrow.2.2 = [] := by decide +kernel
  have hother : Others firstGrow.2.1 firstGrow.2.2 otherGrow.2.1 :=
    ⟨⟨fun _ => rfl, by decide +kernel, by decide +kernel⟩, by decide +kernel, by decide +kernel,
      by decide +kernel, by simp [hdirect]⟩
  exact .grow 1 (.others built_firstGrow hother) rfl

theorem built_otherCut : Built otherCut.2.1 secondGrow.2.2 := by
  have hdirect : indirectBlocks secondGrow.2.2 = [] := by decide +kernel
  have hcut : Others secondGrow.2.1 secondGrow.2.2 otherCut.2.1 :=
    ⟨⟨fun _ => rfl, by decide +kernel, by decide +kernel⟩, by decide +kernel, by decide +kernel,
      by decide +kernel, by simp [hdirect]⟩
  exact .others built_secondGrow hcut

end Kyuzen.Kfs
