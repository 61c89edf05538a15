import Kyuzen.Kfs.Vnode
import Kyuzen.Kfs.Content

/-!
The regions of a formatted volume, and the writes that stay in the metadata
region: inode slots, bitmaps and superblock.
-/

namespace Kyuzen.Kfs

variable {v : Vol}

/-- The layout that `layout_compute` stores and `layout_globals_load` reads:
superblock, block bitmap, inode bitmap, inode table, data, in this order. -/
structure Vol.Layout (v : Vol) : Prop where
  bmBlocks_eq : v.bmBlocks = v.sb.blockBitmapBlocks
  ibmBlocks_eq : v.ibmBlocks = v.sb.inodeBitmapBlocks
  itBlock0_eq : v.itBlock0 = v.sb.inodeTableStart
  dataStart_eq : v.dataStart = v.sb.dataBlocksStart
  rootIno_eq : v.rootIno = if v.sb.rootInode ≠ 0 then v.sb.rootInode else 1
  bitmap : v.sb.blockBitmapStart = 1
  inodeBitmap : v.sb.inodeBitmapStart = 1 + v.sb.blockBitmapBlocks
  table : v.sb.inodeTableStart = 1 + v.sb.blockBitmapBlocks + v.sb.inodeBitmapBlocks
  tableEnd : v.sb.inodeTableStart + (v.sb.totalInodes + 31) / 32 ≤ v.sb.dataBlocksStart

namespace Vol.Layout

variable {v : Vol}

theorem bitmap_end (h : v.Layout) : v.sb.blockBitmapStart + v.bmBlocks ≤ v.sb.inodeBitmapStart := by
  rw [h.bmBlocks_eq, h.bitmap, h.inodeBitmap]

theorem inodeBitmap_end (h : v.Layout) : v.sb.inodeBitmapStart + v.ibmBlocks ≤ v.itBlock0 := by
  rw [h.ibmBlocks_eq, h.itBlock0_eq, h.inodeBitmap, h.table]

theorem itBlock0_le (h : v.Layout) : v.itBlock0 ≤ v.dataStart := by
  have hend := h.tableEnd
  rw [h.itBlock0_eq, h.dataStart_eq]
  omega

theorem slotBlock_lt (h : v.Layout) {ino : Nat} (hpos : 1 ≤ ino) (hle : ino ≤ v.sb.totalInodes) :
    slotBlock v ino < v.dataStart := by
  have hend := h.tableEnd
  rw [slotBlock, h.itBlock0_eq, h.dataStart_eq]
  omega

end Vol.Layout

theorem SameShape.layout {v' : Vol} (h : SameShape v v') (hv : v.Layout) : v'.Layout := by
  have hsb := h.sb
  refine ⟨?_, ?_, ?_, ?_, ?_, ?_, ?_, ?_, ?_⟩
  · rw [hsb, h.bmBlocks]; exact hv.bmBlocks_eq
  · rw [hsb, h.ibmBlocks]; exact hv.ibmBlocks_eq
  · rw [hsb, h.itBlock0]; exact hv.itBlock0_eq
  · rw [hsb, h.dataStart]; exact hv.dataStart_eq
  · rw [hsb, h.rootIno]; exact hv.rootIno_eq
  · rw [hsb]; exact hv.bitmap
  · rw [hsb]; exact hv.inodeBitmap
  · rw [hsb]; exact hv.table
  · rw [hsb]; exact hv.tableEnd

/-! ## Metadata writes -/

/-- Only blocks below the data area are written, and the two dirty flags. -/
structure MetaWrite (v v' : Vol) : Prop where
  eq : v' = {v with disk := v'.disk, bmDirty := v'.bmDirty, ibmDirty := v'.ibmDirty}
  disk : ∀ b, v.dataStart ≤ b → v'.disk b = v.disk b

theorem MetaWrite.refl (v : Vol) : MetaWrite v v := ⟨rfl, fun _ _ => rfl⟩

theorem MetaWrite.trans {v' v'' : Vol} (h : MetaWrite v v') (h' : MetaWrite v' v'') :
    MetaWrite v v'' := by
  have hstart : v'.dataStart = v.dataStart := by rw [h.eq]
  refine ⟨?_, fun b hb => ?_⟩
  · rw [h'.eq, h.eq]
  · rw [h'.disk b (by rw [hstart]; exact hb), h.disk b hb]

theorem MetaWrite.putBlock {v : Vol} {b : Nat} (data : Buf) (hb : b < v.dataStart) :
    MetaWrite v (v.putBlock b data) :=
  ⟨rfl, fun b' hb' => if_neg (by omega)⟩

open MetaWrite

theorem flushLoop_spec {m : Buf} {start n i : Nat} {v : Vol} (hv : v.Sound)
    (hend : start + (i + n) ≤ v.dataStart) :
    ∃ v', flushLoop m start n i v = (.eok, v') ∧ MetaWrite v v' ∧
      v'.bmDirty = v.bmDirty ∧ v'.ibmDirty = v.ibmDirty ∧
      (∀ b, ¬ (start + i ≤ b ∧ b < start + (i + n)) → v'.disk b = v.disk b) ∧
      ∀ k, i ≤ k → k < i + n → ∀ j < 4096, v'.disk (start + k) j = m (k * 4096 + j) := by
  induction n generalizing i v with
  | zero =>
    exact ⟨v, rfl, refl v, rfl, rfl, fun _ _ => rfl, fun k hk hk' => by omega⟩
  | succ n ih =>
    have hmeta := putBlock (v := v)
      (memcpy (v.disk (start + i)) 0 m (i * 4096) 4096) (show start + i < v.dataStart by omega)
    obtain ⟨v', hrun, hrest, hbm, hibm, hother, hblocks⟩ :=
      @ih (i + 1) (v.putBlock (start + i) (memcpy (v.disk (start + i)) 0 m (i * 4096) 4096))
        {hv with} (by change _ ≤ v.dataStart; omega)
    refine ⟨v', ?_, hmeta.trans hrest, hbm, hibm, ?_, ?_⟩
    · simp only [flushLoop, bcacheGet, hv.io, if_true]
      exact hrun
    · intro b hb
      rw [hother b (by omega)]
      exact if_neg (by omega)
    · intro k hk hk' j hj
      by_cases heq : k = i
      · subst heq
        rw [hother _ (by omega)]
        simp only [Vol.putBlock, if_true]
        rw [memcpy_inside (by omega) (by omega)]
        simp
      · exact hblocks k (by omega) (by omega) j hj

section
variable (hv : v.Sound)
include hv

theorem inoSyncNolock_eq (inn : InodeMem) :
    inoSyncNolock v inn = (.eok, v.putBlock (slotBlock v inn.ino)
      (memcpy (v.disk (slotBlock v inn.ino)) (slotOff inn.ino) (inodeBytes inn) 0 128)) := by
  simp [inoSyncNolock, bcacheRead, hv.io]

theorem sbSave_eq :
    sbSave v = (.eok, v.putBlock 0 (memcpy (v.disk 0) 0 (superblockBytes v.sb) 0 4096)) := by
  simp [sbSave, bcacheGet, hv.io]

theorem inoSyncNolock_meta {inn : InodeMem} (hslot : slotBlock v inn.ino < v.dataStart) :
    ∃ v', inoSyncNolock v inn = (.eok, v') ∧ MetaWrite v v' :=
  ⟨_, inoSyncNolock_eq hv inn, putBlock _ hslot⟩

theorem bmFlush_meta (hl : v.Layout) : ∃ v', bmFlush v = (.eok, v') ∧ MetaWrite v v' := by
  have hend := hl.bitmap_end
  have hend' := hl.inodeBitmap_end
  have hend'' := hl.itBlock0_le
  unfold bmFlush
  by_cases hdirty : v.bmDirty = false
  · exact ⟨v, if_pos hdirty, refl v⟩
  · obtain ⟨v', hrun, hmeta, -⟩ :=
      @flushLoop_spec v.bmMem v.sb.blockBitmapStart v.bmBlocks 0 v hv (by omega)
    refine ⟨{v' with bmDirty := false}, by rw [if_neg hdirty, hrun], ?_⟩
    exact hmeta.trans ⟨rfl, fun _ _ => rfl⟩

theorem sbSave_meta : ∃ v', sbSave v = (.eok, v') ∧ MetaWrite v v' :=
  ⟨_, sbSave_eq hv, putBlock _ hv.data⟩

end

/-! ## What metadata writes leave -/

namespace MetaWrite

variable {v v' : Vol}

section
variable (h : MetaWrite v v')
include h

theorem sound (hv : v.Sound) : v'.Sound := by
  rw [h.eq]
  exact {hv with}

theorem layout (hl : v.Layout) : v'.Layout := by
  rw [h.eq]
  exact {hl with}

theorem sb_eq : v'.sb = v.sb := by rw [h.eq]

theorem bmMem_eq : v'.bmMem = v.bmMem := by rw [h.eq]

theorem dataStart_eq : v'.dataStart = v.dataStart := by rw [h.eq]

theorem fileInv {inn : InodeMem} (hinv : FileInv v inn) :
    FileInv v' inn ∧ extentList v' inn = extentList v inn ∧
      inodeBlocks v' inn = inodeBlocks v inn := by
  refine hinv.congr (fun m _ => slotAt_congr rfl rfl ?_ m) rfl rfl ?_
  · intro b hb
    exact h.disk b (hinv.isUsed b (mem_inodeBlocks.mpr (Or.inr hb))).1
  · intro b hb
    rw [Vol.IsUsed, h.dataStart_eq, h.sb_eq, h.bmMem_eq]
    exact hinv.isUsed b hb

theorem fileByte_eq {inn : InodeMem} (hinv : FileInv v inn) (p : Nat) :
    fileByte v' inn p = fileByte v inn p := by
  have hblocks : dataBlocks v' inn = dataBlocks v inn := by
    rw [dataBlocks, (h.fileInv hinv).2.1, dataBlocks]
  unfold fileByte
  rw [hblocks]
  cases hget : (dataBlocks v inn)[p / 4096]? with
  | none => rfl
  | some b =>
    have hb := hinv.isUsed b (mem_inodeBlocks.mpr (Or.inl (List.mem_of_getElem? hget)))
    simp only [h.disk b hb.1]

end

end MetaWrite

end Kyuzen.Kfs
