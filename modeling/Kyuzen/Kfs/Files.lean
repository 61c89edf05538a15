import Kyuzen.Kfs.Content
import Kyuzen.Kfs.Mapping

/-!
Several files on one volume, whose block-level calls come in any order and may fail
part-way.
-/

namespace Kyuzen.Kfs

open Function

structure Files where
  vol : Vol
  inode : Nat → InodeMem

inductive BlockCall where
  | grow (lb : Nat)
  | truncate (newSize : Nat)
  | write (off : Nat) (buf : Buf) (count : Nat)
  | free

/-- What a call leaves, whatever it returns. -/
def BlockCall.run (v : Vol) (inn : InodeMem) : BlockCall → Vol × InodeMem
  | .grow lb => (growToNolock v inn lb).2
  | .truncate newSize => (truncateNolock v inn newSize).2
  | .write off buf count =>
    let (_, v', inn', _) := blkWriteFile v inn off buf count
    (v', inn')
  | .free => inodeFreeAllExtents v inn

def Files.call (s : Files) (op : Nat × BlockCall) : Files :=
  let r := op.2.run s.vol (s.inode op.1)
  ⟨r.1, update s.inode op.1 r.2⟩

inductive Owner where
  | system
  | file (k : Nat)
  deriving DecidableEq

/-- A block has one owner at most, and one exactly when its bit is set. -/
structure Files.Owned (s : Files) (sys : Nat → Bool) (owner : Nat → Option Owner) : Prop where
  sound : s.vol.Sound
  file : ∀ k, FileInv s.vol (s.inode k)
  used : ∀ b, bmTest s.vol.bmMem b = true ↔ owner b ≠ none
  system : ∀ b, sys b = true ↔ owner b = some .system
  blocks : ∀ k b, b ∈ inodeBlocks s.vol (s.inode k) ↔ owner b = some (.file k)
  count : s.vol.FreeExact

theorem BlockCall.effect {v : Vol} {inn : InodeMem} (hv : v.Sound) (h : FileInv v inn) (c : BlockCall) :
    Effect v inn (c.run v inn).1 (c.run v inn).2 := by
  cases c with
  | grow lb =>
    obtain ⟨rc, v', inn', added, hrun, hgrow, -⟩ := growToNolock_spec hv h lb
    rw [run, hrun]
    exact hgrow.effect
  | truncate newSize =>
    obtain ⟨v', inn', hrun, heffect, -⟩ := truncateNolock_spec hv h newSize
    rw [run, hrun]
    exact heffect
  | write off buf count =>
    obtain ⟨rc, v', inn', w, hrun, hwritten, -⟩ := blkWriteFile_spec hv h off buf count
    rw [run, hrun]
    exact hwritten.effect
  | free =>
    obtain ⟨v', inn', hrun, heffect, -⟩ := inodeFreeAllExtents_spec hv h
    rw [run, hrun]
    exact heffect

theorem Effect.other {v v' : Vol} {inn inn' o : InodeMem} (h : Effect v inn v' inn') (ho : FileInv v o)
    (hapart : ∀ b ∈ inodeBlocks v o, b ∉ inodeBlocks v inn) :
    FileInv v' o ∧ inodeBlocks v' o = inodeBlocks v o := by
  have hdisk : ∀ b ∈ indirectBlocks o, v'.disk b = v.disk b := fun b hb =>
    have hb := mem_inodeBlocks.mpr (.inr hb)
    h.disk b (ho.isUsed b hb).2.2 (hapart b hb)
  have hused : ∀ b ∈ inodeBlocks v o, v'.IsUsed b := by
    intro b hb
    obtain ⟨hlow, hhigh, hset⟩ := ho.isUsed b hb
    rw [← h.shape.dataStart] at hlow
    rw [← h.shape.totalBlocks] at hhigh
    exact ⟨hlow, hhigh, (h.bits b).mpr (.inl ⟨hset, hapart b hb⟩)⟩
  obtain ⟨hinv, -, hblocks⟩ := ho.congr (fun m _ => slotAt_congr rfl rfl hdisk m) rfl rfl hused
  exact ⟨hinv, hblocks⟩

theorem Files.owned_call {s : Files} {sys : Nat → Bool} (h : ∃ owner, s.Owned sys owner)
    (op : Nat × BlockCall) : ∃ owner, (s.call op).Owned sys owner := by
  obtain ⟨owner, h⟩ := h
  obtain ⟨k, c⟩ := op
  have he := c.effect h.sound (h.file k)
  set v' := (c.run s.vol (s.inode k)).1
  set inn' := (c.run s.vol (s.inode k)).2
  have hcall : s.call (k, c) = ⟨v', update s.inode k inn'⟩ := rfl
  have hother : ∀ j ≠ k, FileInv v' (s.inode j) ∧
      inodeBlocks v' (s.inode j) = inodeBlocks s.vol (s.inode j) := fun j hj =>
    he.other (h.file j) fun b hb hb' => by
      rw [h.blocks] at hb hb'
      exact hj (by cases hb.symm.trans hb'; rfl)
  have hfresh : ∀ b ∈ inodeBlocks v' inn', owner b = some (.file k) ∨ owner b = none := by
    intro b hb
    refine (he.fresh b hb).imp (h.blocks k b).mp fun hfree => ?_
    by_contra hne
    exact hfree.not_set ((h.used b).mpr hne)
  have hbits : ∀ b, bmTest v'.bmMem b = true ↔
      owner b ≠ none ∧ owner b ≠ some (.file k) ∨ b ∈ inodeBlocks v' inn' := by
    intro b
    rw [he.bits, h.used, h.blocks]
  refine ⟨fun b => if b ∈ inodeBlocks v' inn' then some (.file k)
    else if owner b = some (.file k) then none else owner b, ?_⟩
  rw [hcall]
  refine ⟨he.shape.sound h.sound, fun j => ?_, fun b => ?_, fun b => ?_, fun j b => ?_, he.count h.count⟩
  · by_cases hj : j = k
    · subst hj
      simpa using he.inv
    · simpa [hj] using (hother j hj).1
  · rw [hbits]
    grind
  · rw [h.system]
    grind
  · by_cases hj : j = k
    · subst hj
      simp only [update_self]
      grind
    · simp only [update_of_ne hj, (hother j hj).2, h.blocks]
      grind

/-- Whatever calls are made on files that start empty, each block belongs to one of them, to
what was in use before, or to nobody, and the bitmap and the free count say so. -/
theorem blocks_owned_once {v : Vol} (hv : v.Sound) (hcount : v.FreeExact) (inode : Nat → InodeMem)
    (hempty : ∀ k, (∀ i, ((inode k).direct i).blockCount = 0) ∧
      (inode k).indirectExtentBlock = 0 ∧ (inode k).blocksUsed = 0)
    (calls : List (Nat × BlockCall)) :
    ∃ owner, (calls.foldl Files.call ⟨v, inode⟩).Owned (bmTest v.bmMem) owner := by
  have hinv : ∀ k, FileInv v (inode k) := fun k => .of_empty (hempty k).1 (hempty k).2.1 (hempty k).2.2
  refine List.foldlRecOn (motive := fun s : Files => ∃ owner, s.Owned (bmTest v.bmMem) owner) calls
    Files.call ?_ fun s hs op _ => Files.owned_call hs op
  refine ⟨fun b => if bmTest v.bmMem b then some .system else none, hv, hinv, fun b => by simp,
    fun b => by simp, fun k b => ?_, hcount⟩
  have hnil := List.length_eq_zero_iff.mp ((hinv k).used.symm.trans (hempty k).2.2)
  simp [hnil]

theorem blocks_owned_once_twoFiles :
    ∃ owner, ([(0, .grow 0), (1, .grow 0), (0, .truncate 0)].foldl Files.call
      ⟨smallVol, fun _ => emptyFile⟩).Owned (bmTest smallVol.bmMem) owner :=
  blocks_owned_once smallVol_sound (by rw [Vol.FreeExact]; decide) _ (fun _ => ⟨fun _ => rfl, rfl, rfl⟩) _

end Kyuzen.Kfs
