import Kyuzen.Kfs.FileInv

/-!
`grow_to_nolock`: what a call adds to an inode, whether it succeeds or runs out
of space, and when the blocks that were mapped before stay where they were.
-/

namespace Kyuzen.Kfs

open List Extent

variable {v v' : Vol} {inn inn' : InodeMem} {l : List Extent} {new : Nat → Prop} {start : Nat}

/-! ## Lists of extents that grow -/

/-- `l` still holds the extents of `l₀` in front, each perhaps made longer: the
block behind an extent is a new one exactly when the extent was extended. -/
def Kept (new : Nat → Prop) : List Extent → List Extent → Prop
  | [], _ => True
  | _ :: _, [] => False
  | e :: l₀, e' :: l =>
    e'.startBlock = e.startBlock ∧ e.blockCount ≤ e'.blockCount ∧
      (new e.stop ↔ e.blockCount < e'.blockCount) ∧ Kept new l₀ l

theorem Kept.self (h : ∀ e ∈ l, ¬ new e.stop) : Kept new l l := by
  induction l with
  | nil => trivial
  | cons e l ih =>
    have hhead := h e (by simp)
    exact ⟨rfl, le_rfl, by simp [hhead], ih fun x hx => h x (.tail _ hx)⟩

theorem Kept.trans {new' new'' : Nat → Prop} {l₀ l' : List Extent} (h : Kept new l₀ l)
    (h' : Kept new' l l') (hnew : ∀ b, new'' b ↔ new b ∨ new' b) : Kept new'' l₀ l' := by
  induction l₀ generalizing l l' with
  | nil => trivial
  | cons e l₀ ih =>
    cases l with
    | nil => exact absurd h id
    | cons e' l =>
      cases l' with
      | nil => exact absurd h' id
      | cons e'' l' =>
        obtain ⟨hstart, hle, hiff, hrest⟩ := h
        obtain ⟨hstart', hle', hiff', hrest'⟩ := h'
        refine ⟨hstart'.trans hstart, hle.trans hle', ?_, ih hrest hrest'⟩
        rw [hnew, hiff]
        by_cases heq : e'.blockCount = e.blockCount
        · have hstop : e'.stop = e.stop := by
            rw [stop, stop, hstart, heq]
          rw [← hstop, hiff']
          omega
        · have hlt : e.blockCount < e'.blockCount := by omega
          have hlt' : e.blockCount < e''.blockCount := by omega
          simp [hlt, hlt']

theorem kept_appendExtent {count : Nat} (hpos : ∀ e ∈ l, 0 < e.blockCount) (hcount : 0 < count)
    (hnodup : (blocksOf l).Nodup) (hfresh : ∀ b, start ≤ b → b < start + count → b ∉ blocksOf l) :
    Kept (fun b => start ≤ b ∧ b < start + count) l (appendExtent l start count) := by
  -- The last block of an extent is not in the run, so the run starts at or behind its end.
  have hbehind : ∀ e ∈ l, start ≤ e.stop → e.stop < start + count → e.stop = start := by
    intro e he hlow hhigh
    have hepos := hpos e he
    by_contra hne
    refine hfresh (e.stop - 1) (by omega) (by omega) (mem_blocksOf.mpr ⟨e, he, ?_, ?_⟩)
    · rw [stop]
      omega
    · rw [stop]
      omega
  induction l with
  | nil => trivial
  | cons e l ih =>
    have hepos := hpos e (by simp)
    have hposTail : ∀ x ∈ l, 0 < x.blockCount := fun x hx => hpos x (.tail _ hx)
    rw [blocksOf_cons, nodup_append] at hnodup
    rw [appendExtent]
    split
    next hstop =>
      refine ⟨rfl, by simp, ?_, Kept.self ?_⟩
      · simp only
        omega
      rintro x hx ⟨hlow, hhigh⟩
      have hxpos := hposTail x hx
      have hxstop := hbehind x (.tail _ hx) hlow hhigh
      simp only [stop] at hstop hxstop
      refine hnodup.2.2 (start - 1) (mem_range'_1.mpr (by omega)) (start - 1)
        (mem_blocksOf.mpr ⟨x, hx, by omega, ?_⟩) rfl
      simp only [stop]
      omega
    next hstop =>
      refine ⟨rfl, le_rfl, ?_, ih hposTail hnodup.2.1 ?_ ?_⟩
      · simp only [lt_irrefl, iff_false]
        exact fun h => hstop (hbehind e (by simp) h.1 h.2)
      · intro b hlow hhigh hb
        exact hfresh b hlow hhigh (by simp [hb])
      · exact fun x hx => hbehind x (.tail _ hx)

/-- The blocks of `l₀` still stand in front of those of `l` exactly when no
extent but the last got the block behind it. -/
theorem Kept.prefix_iff {l₀ : List Extent} (h : Kept new l₀ l) (hpos : ∀ e ∈ l₀, 0 < e.blockCount)
    (hnodup : (blocksOf l).Nodup) :
    blocksOf l₀ <+: blocksOf l ↔ ∀ e ∈ l₀.dropLast, ¬ new e.stop := by
  induction l₀ generalizing l with
  | nil => simp
  | cons e l₀ ih =>
    cases l with
    | nil => exact absurd h id
    | cons e' l =>
      obtain ⟨hstart, hle, hiff, hrest⟩ := h
      cases l₀ with
      | nil =>
        refine ⟨fun _ => by simp, fun _ => ?_⟩
        have hsplit : e'.blockCount = e.blockCount + (e'.blockCount - e.blockCount) := by
          omega
        rw [blocksOf_cons, blocksOf_cons, hstart, hsplit, ← range'_append_1]
        rw [blocksOf_nil, append_nil, append_assoc]
        exact prefix_append _ _
      | cons e₂ l₀ =>
        have htail := ih hrest (fun x hx => hpos x (.tail _ hx))
          (Nodup.of_append_right (by simpa using hnodup))
        rw [dropLast_cons_cons, forall_mem_cons, ← htail, hiff]
        by_cases heq : e'.blockCount = e.blockCount
        · have hlt : ¬ e.blockCount < e'.blockCount := by omega
          simp only [hlt, not_false_eq_true, true_and]
          rw [blocksOf_cons, blocksOf_cons (e := e'), hstart, heq]
          exact prefix_append_right_inj _
        -- A longer inner extent puts the block behind it where `e₂` began.
        have hlt : e.blockCount < e'.blockCount := by omega
        simp only [hlt, not_true_eq_false, false_and, iff_false]
        rintro ⟨rest, hprefix⟩
        have he₂ := hpos e₂ (by simp)
        cases l with
        | nil => exact hrest
        | cons e₂' l =>
          have hlook := congrArg (fun b => b[e.blockCount]?) hprefix
          simp only [blocksOf_cons, append_assoc] at hlook
          rw [getElem?_append_right (by simp),
            getElem?_append_left (by simp [he₂]), getElem?_append_left (by simpa using hlt),
            getElem?_range' (by simpa using he₂), getElem?_range' hlt] at hlook
          simp only [length_range', Option.some.injEq, one_mul] at hlook
          rw [blocksOf_cons, nodup_append] at hnodup
          refine hnodup.2.2 e₂.startBlock (mem_range'_1.mpr (by omega))
            e₂.startBlock ?_ rfl
          obtain ⟨hstart₂, hle₂, -⟩ := hrest
          simp only [blocksOf_cons, mem_append, mem_range'_1]
          left
          omega

/-! ## One round -/

/-- The effect of growing: the data blocks of the call are `added` to the old
ones, and only the indirect block is written. -/
structure Growth (v : Vol) (inn : InodeMem) (v' : Vol) (inn' : InodeMem) (added : List Nat) :
    Prop where
  effect : Effect v inn v' inn'
  size : inn'.sizeBytes = inn.sizeBytes
  disk : ∀ b, b ∉ indirectBlocks inn' → v'.disk b = v.disk b
  indirect : indirectBlocks inn ⊆ indirectBlocks inn'
  perm : (dataBlocks v' inn').Perm (dataBlocks v inn ++ added)
  free : ∀ b ∈ added, v.IsFree b
  kept : Kept (· ∈ added) (extentList v inn) (extentList v' inn')
  order : v'.innerMerges = v.innerMerges → dataBlocks v' inn' = dataBlocks v inn ++ added

theorem Growth.refl (h : FileInv v inn) : Growth v inn v inn [] where
  effect := Effect.refl h
  size := rfl
  disk _ _ := rfl
  indirect := List.Subset.refl _
  perm := by simp
  free := by simp
  kept := Kept.self (by simp)
  order _ := by simp

theorem Growth.blocks_subset {added : List Nat} (h : Growth v inn v' inn' added) :
    inodeBlocks v inn ⊆ inodeBlocks v' inn' := by
  intro b hb
  rcases mem_inodeBlocks.mp hb with hb | hb
  · exact mem_inodeBlocks.mpr (.inl (h.perm.mem_iff.mpr (mem_append_left _ hb)))
  · exact mem_inodeBlocks.mpr (.inr (h.indirect hb))

theorem Growth.trans {v'' : Vol} {inn'' : InodeMem} {added added' : List Nat}
    (h : Growth v inn v' inn' added) (h' : Growth v' inn' v'' inn'' added') :
    Growth v inn v'' inn'' (added ++ added') where
  effect := h.effect.trans h'.effect
  size := h'.size.trans h.size
  disk b hb := by
    rw [h'.disk b hb, h.disk b fun hmem => hb (h'.indirect hmem)]
  indirect := fun _ hb => h'.indirect (h.indirect hb)
  perm := by
    rw [← append_assoc]
    exact h'.perm.trans (h.perm.append_right _)
  free b hb := by
    rcases mem_append.mp hb with hb | hb
    · exact h.free b hb
    obtain ⟨hlow, hhigh, hclear⟩ := (h.effect.shape.isFree_iff b).mp (h'.free b hb)
    refine ⟨hlow, hhigh, ?_⟩
    by_contra hset
    have hset' : bmTest v'.bmMem b = true := by
      by_cases hown : b ∈ inodeBlocks v inn
      · exact (h.effect.inv.isUsed b (h.blocks_subset hown)).2.2
      · exact (h.effect.bits b).mpr (.inl ⟨by simpa using hset, hown⟩)
    exact Bool.false_ne_true (hclear.symm.trans hset')
  kept := h.kept.trans h'.kept fun b => mem_append
  order hcount := by
    have hle := h.effect.merges
    have hle' := h'.effect.merges
    rw [h'.order (by omega), h.order (by omega), append_assoc]

section
variable (h : FileInv v inn)
include h

theorem FileInv.dataBlocks_nodup : (dataBlocks v inn).Nodup := h.nodup.of_append_left

theorem FileInv.extent_le {e : Extent} (he : e ∈ extentList v inn) : e.stop ≤ v.sb.totalBlocks := by
  have hpos := h.slots.pos e he
  have hlast : e.stop - 1 ∈ dataBlocks v inn :=
    mem_blocksOf.mpr ⟨e, he, by rw [stop]; omega, by rw [stop]; omega⟩
  have hlt := (h.isUsed _ (mem_inodeBlocks.mpr (.inl hlast))).2.1
  omega

theorem FileInv.take (start n : Nat) :
    FileInv (v.take start n) inn ∧ extentList (v.take start n) inn = extentList v inn ∧
      inodeBlocks (v.take start n) inn = inodeBlocks v inn := by
  refine h.congr (fun m _ => rfl) rfl rfl ?_
  intro b hb
  obtain ⟨hlow, hhigh, hset⟩ := h.isUsed b hb
  refine ⟨hlow, hhigh, ?_⟩
  change bmTest (bmSetRun v.bmMem start n) b = true
  rw [bmTest_bmSetRun, hset, Bool.or_true]

theorem Effect.of_extra {extra : List Nat} (hshape : SameShape v v')
    (hsame : SameId inn inn') (hslots : SlotsFrom v' inn' 0 l)
    (hperm : (blocksOf l ++ indirectBlocks inn').Perm (inodeBlocks v inn ++ extra))
    (hnodup : extra.Nodup) (hfree : ∀ b ∈ extra, v.IsFree b)
    (hbits : ∀ b, bmTest v'.bmMem b = true ↔ b ∈ extra ∨ bmTest v.bmMem b = true)
    (hused : inn'.blocksUsed = inn.blocksUsed + extra.length)
    (hdisk : ∀ b ∉ indirectBlocks inn', v'.disk b = v.disk b)
    (hcount : v.FreeExact → v'.FreeExact) (hmerges : v.innerMerges ≤ v'.innerMerges) :
    Effect v inn v' inn' := by
  have hlist := hslots.extentList_eq
  have hblocks : (inodeBlocks v' inn').Perm (inodeBlocks v inn ++ extra) := by
    rw [inodeBlocks, dataBlocks, hlist]
    exact hperm
  have hmem : ∀ b, b ∈ inodeBlocks v' inn' ↔ b ∈ inodeBlocks v inn ∨ b ∈ extra := by
    intro b
    rw [hblocks.mem_iff, mem_append]
  have hold : ∀ b ∈ inodeBlocks v inn, b ∉ extra := fun b hb hmem =>
    (h.isUsed b hb).not_free (hfree b hmem)
  have hinv : FileInv v' inn' := by
    refine ⟨by rw [hlist]; exact hslots, ?_, ?_, ?_⟩
    · refine hblocks.nodup_iff.mpr (nodup_append.mpr ⟨h.nodup, hnodup, ?_⟩)
      rintro b hb _ hb' rfl
      exact hold b hb hb'
    · intro b hb
      rw [Vol.IsUsed, hshape.dataStart, hshape.totalBlocks, hbits]
      rcases (hmem b).mp hb with hb | hb
      · obtain ⟨hlow, hhigh, hset⟩ := h.isUsed b hb
        exact ⟨hlow, hhigh, .inr hset⟩
      · exact ⟨(hfree b hb).1, (hfree b hb).2.1, .inl hb⟩
    · rw [hblocks.length_eq, length_append, hused, h.used]
  refine ⟨hshape, hsame, hinv, ?_, ?_, ?_, hcount, hmerges⟩
  · intro b
    rw [hbits, hmem]
    constructor
    · rintro (hb | hb)
      · exact .inr (.inr hb)
      · by_cases hown : b ∈ inodeBlocks v inn
        · exact .inr (.inl hown)
        · exact .inl ⟨hb, hown⟩
    · rintro (⟨hb, -⟩ | hb | hb)
      · exact .inr hb
      · exact .inr (h.isUsed b hb).2.2
      · exact .inl hb
  · intro b hb
    rcases (hmem b).mp hb with hb | hb
    · exact .inl hb
    · exact .inr (hfree b hb)
  · intro b hset hown
    refine hdisk b fun hb => ?_
    rcases (hmem b).mp (mem_inodeBlocks.mpr (.inr hb)) with hb | hb
    · exact hown hb
    · exact (hfree b hb).not_set hset

theorem growth_of_append {inn'' : InodeMem} {n m : Nat} {e : Extent} {fresh : List Nat}
    (hn : 0 < n) (hfree : ∀ b, start ≤ b → b < start + n → v.IsFree b)
    (hslots : SlotsFrom v' inn' 0 (appendExtent (extentList v inn) start n))
    (hupd : SlotUpdate {v.take start n with
      innerMerges := v.innerMerges + (mergesInside (extentList v inn) start).toNat} inn m e
      v' inn' fresh) (hinn : inn'' = {inn' with blocksUsed := inn'.blocksUsed + n, dirty := true}) :
    Growth v inn v' inn'' (range' start n) := by
  have hslots'' : SlotsFrom v' inn'' 0 (appendExtent (extentList v inn) start n) := by
    subst hinn
    exact hslots.congr fun _ _ _ => rfl
  have hlist := hslots''.extentList_eq
  have hind : indirectBlocks inn'' = indirectBlocks inn ++ fresh := by
    subst hinn
    exact hupd.indirect
  have hperm := blocksOf_appendExtent_perm (extentList v inn) start n
  have hrun : ∀ b ∈ range' start n, v.IsFree b := by
    intro b hb
    rw [mem_range'_1] at hb
    exact hfree b hb.1 hb.2
  -- The indirect block comes from the volume in which the run is already taken.
  have hfreshFree : ∀ b ∈ fresh, v.IsFree b ∧ b ∉ range' start n := by
    intro b hb
    obtain ⟨hlow, hhigh, hclear⟩ := hupd.free b hb
    change bmTest (bmSetRun v.bmMem start n) b = false at hclear
    rw [bmTest_bmSetRun, Bool.or_eq_false_iff, decide_eq_false_iff_not] at hclear
    exact ⟨⟨hlow, hhigh, hclear.2⟩, fun hmem => hclear.1 (mem_range'_1.mp hmem)⟩
  have hbits : ∀ b, bmTest v'.bmMem b = true ↔
      b ∈ range' start n ++ fresh ∨ bmTest v.bmMem b = true := by
    intro b
    rw [hupd.bits b]
    change (decide (b ∈ fresh) || bmTest (bmSetRun v.bmMem start n) b) = true ↔ _
    rw [bmTest_bmSetRun, Bool.or_eq_true, Bool.or_eq_true, decide_eq_true_eq, decide_eq_true_eq,
      mem_append, mem_range'_1]
    tauto
  have hnodup : (range' start n ++ fresh).Nodup := by
    refine nodup_append.mpr ⟨nodup_range', ?_, ?_⟩
    · exact nodup_iff_count_le_one.mpr fun b => le_trans count_le_length hupd.short
    · rintro b hb _ hb' rfl
      exact (hfreshFree b hb').2 hb
  have hblocks : (blocksOf (appendExtent (extentList v inn) start n) ++ indirectBlocks inn'').Perm
      (inodeBlocks v inn ++ (range' start n ++ fresh)) := by
    rw [hind, inodeBlocks, dataBlocks, append_assoc]
    refine (hperm.append_right _).trans ?_
    rw [append_assoc]
    refine Perm.append_left _ ?_
    rw [← append_assoc, ← append_assoc]
    exact perm_append_comm.append_right _
  have hdisk : ∀ b ∉ indirectBlocks inn'', v'.disk b = v.disk b := by
    intro b hb
    rw [hind, ← hupd.indirect] at hb
    exact hupd.disk b hb
  have heffect : Effect v inn v' inn'' := by
    refine Effect.of_extra h ?_ ?_ hslots'' hblocks hnodup ?_ hbits ?_ hdisk ?_ ?_
    · refine SameShape.trans ?_ hupd.shape
      exact ⟨rfl, rfl, rfl, rfl, rfl, rfl, rfl, rfl, rfl, fun h => by cases h⟩
    · subst hinn
      exact {hupd.same with}
    · intro b hb
      rcases mem_append.mp hb with hb | hb
      · exact hrun b hb
      · exact (hfreshFree b hb).1
    · subst hinn
      simp only [hupd.used, length_append, length_range']
      omega
    · intro hexact
      exact hupd.count (v.take_freeExact start n hexact hfree)
    · rw [hupd.merges]
      exact Nat.le_add_right _ _
  refine ⟨heffect, ?_, hdisk, ?_, ?_, hrun, ?_, ?_⟩
  · subst hinn
    exact hupd.size
  · rw [hind]
    exact subset_append_left _ _
  · rw [dataBlocks, hlist]
    exact hperm
  · rw [hlist]
    simp only [mem_range'_1]
    refine kept_appendExtent h.slots.pos hn h.dataBlocks_nodup ?_
    intro b hlow hhigh hb
    exact (h.isUsed b (mem_inodeBlocks.mpr (.inl hb))).not_free (hfree b hlow hhigh)
  · intro hcount
    rw [hupd.merges] at hcount
    have hnone : mergesInside (extentList v inn) start = false := by
      cases hcase : mergesInside (extentList v inn) start with
      | true =>
        rw [hcase] at hcount
        simp at hcount
      | false => rfl
    rw [dataBlocks, hlist, blocksOf_appendExtent _ _ _ hnone]
    rfl

theorem growth_of_undo {n : Nat} (hfree : ∀ b, start ≤ b → b < start + n → v.IsFree b) :
    Growth v inn (blkFreeRunNolock (v.take start n) start n) inn [] := by
  have hslots : SlotsFrom (blkFreeRunNolock (v.take start n) start n) inn 0 (extentList v inn) :=
    h.slots.congr fun _ _ _ => rfl
  have hlist := hslots.extentList_eq
  have hbits : ∀ b, bmTest (blkFreeRunNolock (v.take start n) start n).bmMem b = true ↔
      b ∈ [] ∨ bmTest v.bmMem b = true := by
    intro b
    rw [bmTest_blkFreeRunNolock]
    change (!decide (start ≤ b ∧ b < start + n ∧ b < v.sb.totalBlocks) &&
      bmTest (bmSetRun v.bmMem start n) b) = true ↔ _
    rw [bmTest_bmSetRun]
    by_cases hrun : start ≤ b ∧ b < start + n
    · have hb := hfree b hrun.1 hrun.2
      simp [hrun, hb.2.1, hb.2.2]
    · have hout : ¬ (start ≤ b ∧ b < start + n ∧ b < v.sb.totalBlocks) := by omega
      simp [hrun, hout]
  have heffect : Effect v inn (blkFreeRunNolock (v.take start n) start n) inn :=
    Effect.of_extra h ((SameShape.take v start n).trans (SameShape.freeRun _ _ _))
      (SameId.refl inn) hslots (by simp [inodeBlocks, dataBlocks]) nodup_nil (by simp) hbits
      rfl (fun _ _ => rfl)
      (fun hexact => blkFreeRunNolock_freeExact _ _ _ (v.take_freeExact start n hexact hfree))
      le_rfl
  refine ⟨heffect, rfl, fun _ _ => rfl, List.Subset.refl _, ?_, by simp, ?_, fun _ => ?_⟩
  · simp [dataBlocks, hlist]
  · rw [hlist]
    exact Kept.self (by simp)
  · simp [dataBlocks, hlist]

end

/-- The inode cannot take the run: it touches no extent, and all slots are taken, or
the direct ones are, there is no indirect block and no other block is free for one. -/
def Refuses (v : Vol) (inn : InodeMem) (start n : Nat) : Prop :=
  (∀ e ∈ extentList v inn, e.stop ≠ start) ∧
    ((extentList v inn).length = 345 ∨ 4 ≤ (extentList v inn).length ∧
      inn.indirectExtentBlock = 0 ∧ ∀ b, v.IsFree b → start ≤ b ∧ b < start + n)

theorem Vol.isFree_take {n b : Nat} :
    (v.take start n).IsFree b ↔ v.IsFree b ∧ ¬ (start ≤ b ∧ b < start + n) := by
  unfold Vol.IsFree
  change _ ∧ _ ∧ bmTest (bmSetRun v.bmMem start n) b = false ↔ _
  rw [bmTest_bmSetRun, Bool.or_eq_false_iff, decide_eq_false_iff_not]
  change v.dataStart ≤ b ∧ b < v.sb.totalBlocks ∧ _ ↔ _
  tauto

/-- A run that the slots took was not to be refused: a new extent needs a slot, and
the fifth one an indirect block from outside the run. -/
theorem SlotUpdate.not_refuses {w : Vol} {m n : Nat} {e : Extent} {fresh : List Nat}
    (hslots : SlotsFrom v' inn' 0 (appendExtent (extentList v inn) start n))
    (hupd : SlotUpdate w inn m e v' inn' fresh) (hw : ∀ b, w.IsFree b → (v.take start n).IsFree b) :
    ¬ Refuses v inn start n := by
  rintro ⟨hapart, hwhy⟩
  rw [appendExtent_apart n hapart] at hslots
  have hle := hslots.length_le (Nat.zero_le _)
  rw [length_append, length_singleton] at hle
  rcases hwhy with hlen | ⟨hlen, hz, hnone⟩
  · omega
  have hne := hslots.indirect_ne (Nat.zero_le _) (by rw [length_append, length_singleton]; omega)
  have hind := hupd.indirect
  rw [indirectBlocks, indirectBlocks, if_neg hne, if_pos hz, nil_append] at hind
  have hfree := Vol.isFree_take.mp (hw _ (hupd.free inn'.indirectExtentBlock (by simp [← hind])))
  exact hfree.2 (hnone _ hfree.1)

/-- One round of the growth loop: it finds the data area full, or it adds a run,
or it gives the run back because no slot can take it. -/
theorem growRound_spec {v : Vol} {inn : InodeMem} {want : Nat} (hv : v.Sound)
    (h : FileInv v inn) (hpos : 0 < want) (hwant : want ≤ 64) :
    (blkAllocRunNolock v want = (0, 0, v) ∧ ∀ b, ¬ v.IsFree b) ∨
    ∃ start n, blkAllocRunNolock v want = (start, n, v.take start n) ∧
      start ≠ 0 ∧ v.FirstFit want start n ∧
      ((∃ v' inn', extAppendNolock (v.take start n) inn start n = (.eok, v', inn') ∧
          Growth v inn v' {inn' with blocksUsed := inn'.blocksUsed + n, dirty := true}
            (range' start n) ∧
          v'.innerMerges = v.innerMerges + (mergesInside (extentList v inn) start).toNat ∧
          extentList v' {inn' with blocksUsed := inn'.blocksUsed + n, dirty := true} =
            appendExtent (extentList v inn) start n ∧ ¬ Refuses v inn start n) ∨
        ∃ rc, extAppendNolock (v.take start n) inn start n = (rc, v.take start n, inn) ∧
          (rc = .einval ∨ rc = .enospc) ∧
          Growth v inn (blkFreeRunNolock (v.take start n) start n) inn [] ∧
          Refuses v inn start n) := by
  rcases blkAllocRunNolock_spec v want hpos hv.data with hfull | ⟨start, n, halloc, hne, hfit⟩
  · exact .inl hfull
  right
  refine ⟨start, n, halloc, hne, hfit, ?_⟩
  obtain ⟨hn, hle, hfree, -, -⟩ := hfit
  obtain ⟨htake, hlist, -⟩ := h.take start n
  have hlast := (hfree (start + n - 1) (by omega) (by omega)).2.1
  have htotal := hv.total
  have hbound : ∀ e ∈ extentList v inn,
      e.startBlock < 2 ^ 64 ∧ e.blockCount + n < 2 ^ 32 := by
    intro e he
    have hstop := h.extent_le he
    rw [stop] at hstop
    constructor <;> omega
  have hslots : SlotsFrom (v.take start n) inn 0 (extentList v inn) := hlist ▸ htake.slots
  rcases @appendLoop_spec (v.take start n) (extentList v inn) inn start n 345 0 hv.io hv.data
    hslots rfl hn (by omega) (by omega) hbound with
    ⟨v', inn', m, e, fresh, hrun, -, hslots', hupd⟩ | ⟨rc, hrun, hapart, hwhy⟩
  · left
    exact ⟨v', inn', hrun, growth_of_append h hn hfree hslots' hupd rfl, hupd.merges,
      SlotsFrom.extentList_eq (hslots'.congr fun _ _ _ => rfl), hupd.not_refuses hslots' fun _ => id⟩
  right
  refine ⟨rc, hrun, ?_, growth_of_undo h hfree, ?_⟩
  · rcases hwhy with ⟨hrc, -⟩ | ⟨hrc, -⟩
    · exact .inl hrc
    · exact .inr hrc
  refine ⟨hapart, ?_⟩
  rcases hwhy with ⟨-, hlen⟩ | ⟨-, hlen, hz, hnone⟩
  · exact .inl (by omega)
  · refine .inr ⟨by omega, hz, fun b hb => ?_⟩
    by_contra hout
    exact hnone b (Vol.isFree_take.mpr ⟨hb, hout⟩)

/-! ## The whole call -/

/-- The loop adds blocks until `lb` is covered, or stops early for lack of
space or slots; either way the inode has grown by the blocks it added. -/
theorem growLoop_spec {lb fuel : Nat} {v : Vol} {inn : InodeMem} {cursor : Nat} (hv : v.Sound)
    (h : FileInv v inn) (hcursor : cursor = (dataBlocks v inn).length)
    (hfuel : lb + 1 - cursor ≤ fuel) (hle : cursor ≤ lb + 1) :
    ∃ rc v' inn' added, growLoop lb fuel v inn cursor = (rc, v', inn') ∧
      Growth v inn v' inn' added ∧
      ((rc = .eok ∧ (dataBlocks v' inn').length = lb + 1) ∨ rc = .einval ∨ rc = .enospc) := by
  induction fuel generalizing v inn cursor with
  | zero => exact ⟨.eok, v, inn, [], rfl, Growth.refl h, .inl ⟨rfl, by omega⟩⟩
  | succ fuel ih =>
    rw [growLoop]
    split_ifs with hdone
    · exact ⟨.eok, v, inn, [], rfl, Growth.refl h, .inl ⟨rfl, by omega⟩⟩
    generalize hwant : (if lb - cursor + 1 > 64 then 64 else lb - cursor + 1) = want
    have hpos : 0 < want := by rw [← hwant]; split <;> omega
    have h64 : want ≤ 64 := by rw [← hwant]; split <;> omega
    have hneed : want ≤ lb + 1 - cursor := by rw [← hwant]; split <;> omega
    rcases growRound_spec hv h hpos h64 with
      ⟨hfull, -⟩ | ⟨start, n, halloc, hne, ⟨hn, hnle, -⟩,
        ⟨v', inn', happ, hgrow, -⟩ | ⟨rc, happ, hrc, hgrow, -⟩⟩
    · exact ⟨.enospc, v, inn, [], by simp only [hwant, hfull, if_true], Growth.refl h,
         .inr (.inr rfl)⟩
    · have hlen := hgrow.perm.length_eq
      rw [length_append, length_range'] at hlen
      obtain ⟨rc, v'', inn'', added, hrun, hrest, hend⟩ :=
        ih (hgrow.effect.shape.sound hv) hgrow.effect.inv
          (show cursor + n = _ by omega) (by omega) (by omega)
      exact ⟨rc, v'', inn'', _, by simp only [hwant, halloc, hne, if_false, happ, hrun],
        hgrow.trans hrest, hend⟩
    · refine ⟨rc, blkFreeRunNolock (v.take start n) start n, inn, [], ?_, hgrow, .inr hrc⟩
      rcases hrc with rfl | rfl <;> simp only [hwant, halloc, hne, if_false, happ]

theorem growToNolock_spec (hv : v.Sound) (h : FileInv v inn) (lb : Nat) :
    ∃ rc v' inn' added, growToNolock v inn lb = (rc, v', inn') ∧ Growth v inn v' inn' added ∧
      ((rc = .eok ∧ lb < (dataBlocks v' inn').length ∧
          (dataBlocks v' inn').length = max (dataBlocks v inn).length (lb + 1)) ∨
        rc = .einval ∨ rc = .enospc) := by
  have hcover := @coveredLoop_eq v inn 345 0 0 _ hv.io h.slots rfl
  unfold growToNolock
  rw [hcover, zero_add]
  by_cases hdone : lb < (dataBlocks v inn).length
  · exact ⟨.eok, v, inn, [], if_pos hdone, Growth.refl h, .inl ⟨rfl, hdone, by omega⟩⟩
  obtain ⟨rc, v', inn', added, hrun, hgrow, hend⟩ :=
    @growLoop_spec lb (lb + 1 - (dataBlocks v inn).length) v inn _ hv h rfl le_rfl
      (by omega)
  refine ⟨rc, v', inn', added, (if_neg hdone).trans hrun, hgrow, ?_⟩
  rcases hend with ⟨hrc, hlen⟩ | hfail
  · exact .inl ⟨hrc, by omega, by omega⟩
  · exact .inr hfail

theorem growLoop_done {lb cursor : Nat} (hdone : lb < cursor) (fuel : Nat) (v : Vol)
    (inn : InodeMem) : growLoop lb fuel v inn cursor = (.eok, v, inn) := by
  cases fuel with
  | zero => rfl
  | succ fuel => rw [growLoop, if_pos hdone]

/-- A growth that one run can serve takes the first run of that length and appends
it to the extents. -/
theorem growToNolock_run (hv : v.Sound) (h : FileInv v inn) {m : Nat} (hm : m + 1 ≤ 64)
    (hrun : v.FreeRun start (m + 1)) (hfirst : ∀ start', v.FreeRun start' (m + 1) → start ≤ start')
    (hcall : growToNolock v inn ((dataBlocks v inn).length + m) = (.eok, v', inn')) :
    Growth v inn v' inn' (range' start (m + 1)) ∧
      v'.innerMerges = v.innerMerges + (mergesInside (extentList v inn) start).toNat ∧
      extentList v' inn' = appendExtent (extentList v inn) start (m + 1) := by
  have hneed : (dataBlocks v inn).length + m + 1 - (dataBlocks v inn).length = m + 1 := by omega
  rw [growToNolock, @coveredLoop_eq v inn 345 0 0 _ hv.io h.slots rfl, zero_add] at hcall
  simp only at hcall
  rw [← dataBlocks, if_neg (by omega), hneed, growLoop, if_neg (by omega)] at hcall
  have hwant : (if (dataBlocks v inn).length + m - (dataBlocks v inn).length + 1 > 64 then 64
      else (dataBlocks v inn).length + m - (dataBlocks v inn).length + 1) = m + 1 := by
    rw [if_neg (by omega)]
    omega
  dsimp only at hcall
  rw [hwant] at hcall
  rcases growRound_spec hv h (Nat.succ_pos m) hm with
    ⟨-, hnone⟩ | ⟨start', n, halloc, hne, hfit,
      ⟨v₁, inn₁, happ, hgrow, hmerges, hlist, -⟩ | ⟨rc, happ, hrc, -⟩⟩
  · exact absurd (hrun start le_rfl (by omega)) (hnone start)
  · obtain rfl := hfit.length_eq hrun
    obtain rfl := le_antisymm (hfit.first start hrun) (hfirst start' hfit.run)
    simp only [halloc, hne, if_false, happ] at hcall
    rw [growLoop_done (by omega)] at hcall
    cases hcall
    exact ⟨hgrow, hmerges, hlist⟩
  · simp only [halloc, hne, if_false, happ] at hcall
    rcases hrc with rfl | rfl <;> cases hcall

def Full (v : Vol) (inn : InodeMem) : Prop :=
  (extentList v inn).length = 345 ∨
    (∀ b b', v.IsFree b → v.IsFree b' → b = b') ∧
      ((∀ b, ¬ v.IsFree b) ∨ 4 ≤ (extentList v inn).length)

/-- `grow_to_nolock` for the block right behind the mapped ones. It takes the
lowest free block, or fails without a change of the inode because every extent
slot is taken, or no block is free, or only one is and no direct slot is. -/
theorem growToNolock_next (hv : v.Sound) (h : FileInv v inn) :
    (∃ v' inn' start, growToNolock v inn (dataBlocks v inn).length = (.eok, v', inn') ∧
      Growth v inn v' inn' [start] ∧ (∀ b, v.IsFree b → start ≤ b) ∧
      v'.innerMerges = v.innerMerges + (mergesInside (extentList v inn) start).toNat) ∨
    ∃ rc v', growToNolock v inn (dataBlocks v inn).length = (rc, v', inn) ∧
      (rc = .einval ∨ rc = .enospc) ∧ Growth v inn v' inn [] ∧
      v'.innerMerges = v.innerMerges ∧ Full v inn := by
  have hcall : growToNolock v inn (dataBlocks v inn).length =
      growLoop (dataBlocks v inn).length 1 v inn (dataBlocks v inn).length := by
    have hone : (dataBlocks v inn).length + 1 - (dataBlocks v inn).length = 1 := by omega
    rw [growToNolock, @coveredLoop_eq v inn 345 0 0 _ hv.io h.slots rfl, zero_add]
    simp only
    rw [← dataBlocks, if_neg (lt_irrefl _), hone]
  rw [hcall]
  generalize (dataBlocks v inn).length = lb
  rcases growRound_spec hv h Nat.zero_lt_one (by omega) with
    ⟨hfull, hnone⟩ | ⟨start, n, halloc, hne, ⟨hn, hnle, -, -, hlowest⟩,
      ⟨v', inn', happ, hgrow, hmerges, -⟩ | ⟨rc, happ, hrc, hgrow, hwhy⟩⟩
  · right
    refine ⟨.enospc, v, ?_, .inr rfl, Growth.refl h, rfl, .inr ⟨?_, .inl hnone⟩⟩
    · simp [growLoop, hfull]
    · exact fun b _ hb => absurd hb (hnone b)
  · left
    obtain rfl : n = 1 := by omega
    refine ⟨v', {inn' with blocksUsed := inn'.blocksUsed + 1, dirty := true}, start, ?_, hgrow,
      fun b hb => hlowest b hb.run, hmerges⟩
    simp [growLoop, halloc, hne, happ]
  · right
    obtain rfl : n = 1 := by omega
    refine ⟨rc, blkFreeRunNolock (v.take start 1) start 1, ?_, hrc, hgrow, rfl, hwhy.2.imp id ?_⟩
    · rcases hrc with rfl | rfl <;> simp [growLoop, halloc, hne, happ]
    · rintro ⟨hlen, -, hall⟩
      refine ⟨fun b b' hb hb' => ?_, .inr hlen⟩
      have hlow := hall b hb
      have hlow' := hall b' hb'
      omega

end Kyuzen.Kfs
