import Kyuzen.Kfs.Layout

/-!
The metadata on disk: inode table slots, which hold an inode without its
run-time fields, and the two bitmaps, which are on disk whenever their flag is
clear.
-/

namespace Kyuzen.Kfs

open Finset

variable {v : Vol} {i : Nat} {inn : InodeMem}

/-- What a slot of the inode table can hold of an inode. -/
def InodeMem.core (inn : InodeMem) : InodeMem := {inn with dirty := false, refcount := 0}

def diskInode (v : Vol) (i : Nat) : InodeMem :=
  inodeOfBytes i (v.disk (slotBlock v i)) (slotOff i)

structure Fits (inn : InodeMem) : Prop where
  mode : inn.mode < 2 ^ 16
  links : inn.linksCount < 2 ^ 16
  size : inn.sizeBytes < 2 ^ 64
  used : inn.blocksUsed < 2 ^ 64
  start : DirectFits inn
  count : ∀ k, (inn.direct k).blockCount < 2 ^ 32
  indirect : inn.indirectExtentBlock < 2 ^ 64

/-! ### One slot -/

theorem inodeOfBytes_inodeBytes (h : Fits inn) (b : Buf) (off : Nat) :
    inodeOfBytes inn.ino (memcpy b off (inodeBytes inn) 0 128) off = inn.core := by
  have hword : ∀ k width, k + width ≤ 128 →
      getLe (memcpy b off (inodeBytes inn) 0 128) (off + k) width =
        getLe (inodeBytes inn) k width := by
    intro k width hk
    rw [getLe_memcpy_inside (by omega) (by omega)]
    congr 1
    omega
  have hzero : getLe (memcpy b off (inodeBytes inn) 0 128) off 2 = getLe (inodeBytes inn) 0 2 :=
    hword 0 2 (by omega)
  obtain ⟨hmode, hlinks, hsize, hused, hstart, hcount, hind⟩ := h
  have hdirect : ∀ k : Fin 4, getLe (inodeBytes inn) (48 + 12 * k.val) 8 = (inn.direct k).startBlock ∧
      getLe (inodeBytes inn) (56 + 12 * k.val) 4 = (inn.direct k).blockCount := by
    intro k
    have hs := hstart k
    have hc := hcount k
    fin_cases k <;> constructor <;>
      simp (disch := omega) only [inodeBytes, Fin.reduceFinMk, Fin.zero_eta, Fin.isValue,
        Fin.mk_one, mul_zero, mul_one, add_zero, Nat.reduceMul, Nat.reduceAdd,
        getLe_putLe_disjoint] <;>
      exact getLe_putLe_of_lt (by assumption)
  rw [inodeOfBytes, InodeMem.core, InodeMem.mk.injEq]
  refine ⟨rfl, ?_, ?_, ?_, ?_, ?_, ?_, rfl, rfl⟩
  · rw [hzero]
    simp (disch := omega) only [inodeBytes, getLe_putLe_disjoint]
    exact getLe_putLe_of_lt hmode
  · rw [hword 6 2 (by omega)]
    simp (disch := omega) only [inodeBytes, getLe_putLe_disjoint]
    exact getLe_putLe_of_lt hlinks
  · rw [hword 8 8 (by omega)]
    simp (disch := omega) only [inodeBytes, getLe_putLe_disjoint]
    exact getLe_putLe_of_lt hsize
  · rw [hword 16 8 (by omega)]
    simp (disch := omega) only [inodeBytes, getLe_putLe_disjoint]
    exact getLe_putLe_of_lt hused
  · funext k
    rw [add_assoc, add_assoc, hword _ _ (by omega), hword _ _ (by omega), (hdirect k).1,
      (hdirect k).2]
  · rw [hword 96 8 (by omega), inodeBytes, getLe_putLe_of_lt hind]

theorem slotOff_apart {j : Nat} (hi : 1 ≤ i) (hj : 1 ≤ j) (hne : i ≠ j)
    (hblock : (i - 1) / 32 = (j - 1) / 32) :
    slotOff i + 128 ≤ slotOff j ∨ slotOff j + 128 ≤ slotOff i := by
  unfold slotOff
  omega

theorem inodeOfBytes_congr {b b' : Buf} {off : Nat} (h : ∀ k < 128, b' (off + k) = b (off + k)) :
    inodeOfBytes i b' off = inodeOfBytes i b off := by
  have hword : ∀ k width, k + width ≤ 128 → getLe b' (off + k) width = getLe b (off + k) width := by
    intro k width hk
    apply getLe_congr
    intro m hm
    rw [add_assoc]
    exact h _ (by omega)
  have hzero := hword 0 2 (by omega)
  rw [add_zero] at hzero
  rw [inodeOfBytes, inodeOfBytes, InodeMem.mk.injEq]
  refine ⟨rfl, hzero, ?_, ?_, ?_, ?_, ?_, rfl, rfl⟩
  · exact hword 6 2 (by omega)
  · exact hword 8 8 (by omega)
  · exact hword 16 8 (by omega)
  · funext k
    rw [add_assoc, add_assoc, hword _ _ (by omega), hword _ _ (by omega)]
  · exact hword 96 8 (by omega)

theorem diskInode_congr {v' : Vol} (htable : v'.itBlock0 = v.itBlock0)
    (hdisk : v'.disk (slotBlock v i) = v.disk (slotBlock v i)) :
    diskInode v' i = diskInode v i := by
  have hblock : slotBlock v' i = slotBlock v i := by rw [slotBlock, htable, slotBlock]
  rw [diskInode, hblock, hdisk, diskInode]

theorem diskInode_sync (hv : v.Sound) (hfits : Fits inn) (hino : 1 ≤ inn.ino) (hi : 1 ≤ i) :
    diskInode (inoSyncNolock v inn).2 i = if i = inn.ino then inn.core else diskInode v i := by
  rw [inoSyncNolock_eq hv]
  by_cases heq : i = inn.ino
  · subst heq
    have hself : (v.putBlock (slotBlock v inn.ino) (memcpy (v.disk (slotBlock v inn.ino))
        (slotOff inn.ino) (inodeBytes inn) 0 128)).disk (slotBlock v inn.ino) = _ := if_pos rfl
    rw [if_pos rfl, diskInode]
    change inodeOfBytes _ ((v.putBlock (slotBlock v inn.ino) _).disk (slotBlock v inn.ino)) _ = _
    rw [hself, inodeOfBytes_inodeBytes hfits]
  · rw [if_neg heq]
    by_cases hblock : slotBlock v i = slotBlock v inn.ino
    · have hapart := slotOff_apart hi hino heq (by unfold slotBlock at hblock; omega)
      have hself : (v.putBlock (slotBlock v inn.ino) (memcpy (v.disk (slotBlock v inn.ino))
          (slotOff inn.ino) (inodeBytes inn) 0 128)).disk (slotBlock v i) = _ := if_pos hblock
      rw [diskInode, diskInode]
      change inodeOfBytes _ ((v.putBlock (slotBlock v inn.ino) _).disk (slotBlock v i)) _ = _
      rw [hself, hblock]
      exact inodeOfBytes_congr fun k hk => memcpy_outside (by omega)
    · exact diskInode_congr rfl (if_neg hblock)

/-! ### Volumes between two calls -/

def usedInodes (v : Vol) : Finset Nat :=
  (range v.sb.totalInodes).filter fun i => bmTest v.ibmMem i = true

/-- The superblock without its two counters. -/
def Superblock.geometry (sb : Superblock) : Superblock :=
  {sb with freeBlocks := 0, freeInodes := 0}

/-- A mounted volume on which no access fails: the superblock is that of a
format, the metadata blocks are taken, and a bitmap whose flag is clear is on
disk. -/
structure VolOk (v : Vol) : Prop where
  sound : v.Sound
  kmalloc : ∀ site, v.env.kmalloc site = true
  layout : v.Layout
  rootIno : v.rootIno = 1
  format : v.sb.geometry = (layoutCompute v.sb.totalBlocks).geometry
  inodes : 1 < v.sb.totalInodes
  metaSet : ∀ b < v.dataStart, bmTest v.bmMem b = true
  bmStored : v.bmDirty = false → ∀ k < v.bmBlocks, ∀ j < 4096,
    v.disk (v.sb.blockBitmapStart + k) j = v.bmMem (k * 4096 + j)
  ibmStored : v.ibmDirty = false → ∀ k < v.ibmBlocks, ∀ j < 4096,
    v.disk (v.sb.inodeBitmapStart + k) j = v.ibmMem (k * 4096 + j)
  ibmZero : bmTest v.ibmMem 0 = false
  inodeCount : v.sb.freeInodes + (usedInodes v).card ≤ v.sb.totalInodes

theorem VolOk.slotBlock_lt (h : VolOk v) (hi : 1 ≤ i) (hlt : i < v.sb.totalInodes) :
    slotBlock v i < v.dataStart :=
  h.layout.slotBlock_lt hi (by omega)

theorem VolOk.itBlock0_le_slot {v : Vol} (i : Nat) : v.itBlock0 ≤ slotBlock v i :=
  Nat.le_add_right _ _

/-! ### Metadata calls -/

theorem MetaWrite.volOk {v' : Vol} (h : MetaWrite v v') (hv : VolOk v)
    (hbm : v'.bmDirty = false → ∀ k < v.bmBlocks, ∀ j < 4096,
      v'.disk (v.sb.blockBitmapStart + k) j = v.bmMem (k * 4096 + j))
    (hibm : v'.ibmDirty = false → ∀ k < v.ibmBlocks, ∀ j < 4096,
      v'.disk (v.sb.inodeBitmapStart + k) j = v.ibmMem (k * 4096 + j)) : VolOk v' := by
  have hsound := h.sound hv.sound
  have hlayout := h.layout hv.layout
  have heq := h.eq
  generalize v'.disk = disk at *
  generalize v'.bmDirty = bmDirty at *
  generalize v'.ibmDirty = ibmDirty at *
  subst heq
  exact {hv with sound := hsound, layout := hlayout, bmStored := hbm, ibmStored := hibm}

/-- A write outside of the bitmaps. -/
theorem MetaWrite.volOk_apart {v' : Vol} (h : MetaWrite v v') (hv : VolOk v)
    (hdirty : v'.bmDirty = v.bmDirty ∧ v'.ibmDirty = v.ibmDirty)
    (hdisk : ∀ b, v.sb.blockBitmapStart ≤ b → b < v.itBlock0 → v'.disk b = v.disk b) :
    VolOk v' := by
  have hend := hv.layout.bitmap_end
  have hend' := hv.layout.inodeBitmap_end
  refine h.volOk hv (fun hclean k hk j hj => ?_) fun hclean k hk j hj => ?_
  · rw [hdisk _ (by omega) (by omega)]
    exact hv.bmStored (hdirty.1 ▸ hclean) k hk j hj
  · rw [hdisk _ (by omega) (by omega)]
    exact hv.ibmStored (hdirty.2 ▸ hclean) k hk j hj

theorem inoSyncNolock_spec (hv : VolOk v) (hfits : Fits inn) (hino : 1 ≤ inn.ino)
    (hlt : inn.ino < v.sb.totalInodes) :
    ∃ v', inoSyncNolock v inn = (.eok, v') ∧ MetaWrite v v' ∧ VolOk v' ∧
      ∀ i, 1 ≤ i → diskInode v' i = if i = inn.ino then inn.core else diskInode v i := by
  obtain ⟨v', hrun, hmeta⟩ := inoSyncNolock_meta hv.sound (hv.slotBlock_lt hino hlt)
  have heq := congrArg Prod.snd (hrun.symm.trans (inoSyncNolock_eq hv.sound inn))
  simp only at heq
  have hother : ∀ b ≠ slotBlock v inn.ino, v'.disk b = v.disk b := by
    intro b hb
    rw [heq]
    exact if_neg hb
  have hslot := @VolOk.itBlock0_le_slot v inn.ino
  have hbm : v'.bmDirty = v.bmDirty ∧ v'.ibmDirty = v.ibmDirty := by
    rw [heq]
    exact ⟨rfl, rfl⟩
  refine ⟨v', hrun, hmeta, hmeta.volOk_apart hv hbm fun b _ hb => hother b (by omega), fun i hi => ?_⟩
  have hdisk := diskInode_sync hv.sound hfits hino hi
  rwa [hrun] at hdisk

theorem bmFlush_spec (hv : VolOk v) :
    ∃ v', bmFlush v = (.eok, v') ∧ MetaWrite v v' ∧ VolOk v' ∧ v'.bmDirty = false ∧
      v'.ibmDirty = v.ibmDirty ∧ ∀ i, diskInode v' i = diskInode v i := by
  have hend := hv.layout.bitmap_end
  have hend' := hv.layout.inodeBitmap_end
  have hend'' := hv.layout.itBlock0_le
  unfold bmFlush
  by_cases hdirty : v.bmDirty = false
  · exact ⟨v, if_pos hdirty, MetaWrite.refl v, hv, hdirty, rfl, fun _ => rfl⟩
  obtain ⟨v', hrun, hmeta, -, hibm, hother, hblocks⟩ :=
    @flushLoop_spec v.bmMem v.sb.blockBitmapStart v.bmBlocks 0 v hv.sound (by omega)
  have hmeta' : MetaWrite v {v' with bmDirty := false} := hmeta.trans ⟨rfl, fun _ _ => rfl⟩
  refine ⟨{v' with bmDirty := false}, by rw [if_neg hdirty, hrun], hmeta',
    hmeta'.volOk hv (fun _ k hk j hj => ?_) (fun hclean k hk j hj => ?_), rfl, hibm, fun i => ?_⟩
  · exact hblocks k (Nat.zero_le k) (by omega) j hj
  · change v'.disk _ j = _
    rw [hother _ (by omega)]
    exact hv.ibmStored (hibm ▸ hclean) k hk j hj
  · have hslot := @VolOk.itBlock0_le_slot v i
    refine diskInode_congr ?_ (hother _ (by omega))
    rw [hmeta'.eq]

theorem ibmFlush_spec (hv : VolOk v) :
    ∃ v', ibmFlush v = (.eok, v') ∧ MetaWrite v v' ∧ VolOk v' ∧ v'.ibmDirty = false ∧
      v'.bmDirty = v.bmDirty ∧ ∀ i, diskInode v' i = diskInode v i := by
  have hend := hv.layout.bitmap_end
  have hend' := hv.layout.inodeBitmap_end
  have hend'' := hv.layout.itBlock0_le
  unfold ibmFlush
  by_cases hdirty : v.ibmDirty = false
  · exact ⟨v, if_pos hdirty, MetaWrite.refl v, hv, hdirty, rfl, fun _ => rfl⟩
  obtain ⟨v', hrun, hmeta, hbm, -, hother, hblocks⟩ :=
    @flushLoop_spec v.ibmMem v.sb.inodeBitmapStart v.ibmBlocks 0 v hv.sound (by omega)
  have hmeta' : MetaWrite v {v' with ibmDirty := false} := hmeta.trans ⟨rfl, fun _ _ => rfl⟩
  refine ⟨{v' with ibmDirty := false}, by rw [if_neg hdirty, hrun], hmeta',
    hmeta'.volOk hv (fun hclean k hk j hj => ?_) (fun _ k hk j hj => ?_), rfl, hbm, fun i => ?_⟩
  · change v'.disk _ j = _
    rw [hother _ (by omega)]
    exact hv.bmStored (hbm ▸ hclean) k hk j hj
  · exact hblocks k (Nat.zero_le k) (by omega) j hj
  · have hslot := @VolOk.itBlock0_le_slot v i
    refine diskInode_congr ?_ (hother _ (by omega))
    rw [hmeta'.eq]

theorem sbSave_spec (hv : VolOk v) :
    ∃ v', sbSave v = (.eok, v') ∧ MetaWrite v v' ∧ VolOk v' ∧ v'.bmDirty = v.bmDirty ∧
      v'.ibmDirty = v.ibmDirty ∧ (∀ j < 4096, v'.disk 0 j = superblockBytes v.sb j) ∧
      (∀ b ≠ 0, v'.disk b = v.disk b) ∧ ∀ i, diskInode v' i = diskInode v i := by
  have hbitmap := hv.layout.bitmap
  have hinodeBitmap := hv.layout.inodeBitmap
  have htable := hv.layout.table
  have htable' := hv.layout.itBlock0_eq
  obtain ⟨v', hrun, hmeta⟩ := sbSave_meta hv.sound
  have heq := congrArg Prod.snd (hrun.symm.trans (sbSave_eq hv.sound))
  simp only at heq
  have hother : ∀ b ≠ 0, v'.disk b = v.disk b := by
    intro b hb
    rw [heq]
    exact if_neg hb
  have hbm : v'.bmDirty = v.bmDirty ∧ v'.ibmDirty = v.ibmDirty := by
    rw [heq]
    exact ⟨rfl, rfl⟩
  refine ⟨v', hrun, hmeta, hmeta.volOk_apart hv hbm fun b hb _ => hother b (by omega),
    hbm.1, hbm.2, fun j hj => ?_, hother, fun i => ?_⟩
  · have hzero : v'.disk 0 = memcpy (v.disk 0) 0 (superblockBytes v.sb) 0 4096 := by
      rw [heq]
      simp [Vol.putBlock]
    rw [hzero, memcpy_inside (Nat.zero_le j) (by omega), Nat.sub_zero, zero_add]
  · have hslot := @VolOk.itBlock0_le_slot v i
    refine diskInode_congr ?_ (hother _ (by omega))
    rw [hmeta.eq]

/-! ### Inode numbers -/

/-- What `ino_alloc_nolock` does to the volume, and what `ino_free_nolock` does. -/
def Vol.takeInode (v : Vol) (i : Nat) : Vol :=
  {v with
    ibmMem := bmSet v.ibmMem i
    ibmDirty := true
    sb := {v.sb with freeInodes := v.sb.freeInodes - 1}}

theorem usedInodes_lt {v : Vol} (h : bmTest v.ibmMem 0 = false) (hpos : 0 < v.sb.totalInodes) :
    (usedInodes v).card < v.sb.totalInodes := by
  have hsub : usedInodes v ⊂ range v.sb.totalInodes := by
    refine filter_ssubset.mpr ⟨0, mem_range.mpr hpos, ?_⟩
    rw [h]
    exact Bool.false_ne_true
  have hcard := card_lt_card hsub
  rwa [card_range] at hcard

theorem VolOk.takeInode (hv : VolOk v) (hi : 1 ≤ i) : VolOk (v.takeInode i) := by
  have hzero : bmTest (v.takeInode i).ibmMem 0 = false := by
    change bmTest (bmSet v.ibmMem i) 0 = false
    rw [bmTest_bmSet, hv.ibmZero, Bool.or_false, decide_eq_false_iff_not]
    omega
  refine {hv with
      sound := ⟨hv.sound.io, hv.sound.data, hv.sound.total⟩, layout := ?_,
      ibmStored := nofun, ibmZero := hzero, inodeCount := ?_}
  · have hl := hv.layout
    exact {hl with}
  -- without free inodes left the counter stays, but then bit 0 is still clear
  have hlt := @usedInodes_lt (v.takeInode i) hzero (lt_trans Nat.zero_lt_one hv.inodes)
  have hsub : usedInodes (v.takeInode i) ⊆ insert i (usedInodes v) := by
    intro j hj
    simp only [usedInodes, mem_filter, mem_insert] at hj ⊢
    obtain ⟨hrange, hbit⟩ := hj
    change bmTest (bmSet v.ibmMem i) j = true at hbit
    rw [bmTest_bmSet, Bool.or_eq_true, decide_eq_true_eq] at hbit
    exact hbit.imp id fun hbit => ⟨hrange, hbit⟩
  have hcard := (card_le_card hsub).trans (card_insert_le _ _)
  have hcount := hv.inodeCount
  change v.sb.freeInodes - 1 + _ ≤ v.sb.totalInodes
  change _ < v.sb.totalInodes at hlt
  omega

end Kyuzen.Kfs
