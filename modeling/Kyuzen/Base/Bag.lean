import Mathlib.Tactic

/-!
An array used as a bag: an entry is removed by moving the last one into its
place, and all copies of a value are removed by a scan that does not advance
after a removal.
-/

namespace Kyuzen

open List

variable {α : Type}

/-- `a[i] = a[--count]`. -/
def swapRemove (l : List α) (i : Nat) : List α :=
  match l.getLast? with
  | none => []
  | some x => (l.set i x).dropLast

theorem swapRemove_concat (l : List α) (x : α) (i : Nat) : swapRemove (l ++ [x]) i = l.set i x := by
  unfold swapRemove
  rw [getLast?_append_of_ne_nil _ (by simp)]
  by_cases hi : i < l.length
  · simp [set_append_left _ _ hi]
  by_cases heq : i = l.length
  · subst heq
    simp [set_append_right, set_eq_of_length_le (Nat.le_refl l.length)]
  · have hout : (l ++ [x]).length ≤ i := by
      rw [length_append, length_singleton]
      omega
    simp [set_eq_of_length_le hout, set_eq_of_length_le (Nat.le_of_not_lt hi)]

theorem swapRemove_length (l : List α) (i : Nat) : (swapRemove l i).length = l.length - 1 := by
  rcases eq_nil_or_concat l with rfl | ⟨l', x, rfl⟩
  · rfl
  · simp [concat_eq_append, swapRemove_concat]

theorem swapRemove_getElem? {l : List α} {i j : Nat} (hj : j < i) (hi : i < l.length) :
    (swapRemove l i)[j]? = l[j]? := by
  rcases eq_nil_or_concat l with rfl | ⟨l', x, rfl⟩
  · simp at hi
  · simp only [concat_eq_append, length_append, length_singleton] at hi ⊢
    rw [swapRemove_concat, getElem?_set_ne (by omega), getElem?_append_left (by omega)]

variable [DecidableEq α]

theorem count_swapRemove {l : List α} {i : Nat} {y : α} (hy : l[i]? = some y) (b : α) :
    (swapRemove l i).count b + (if y = b then 1 else 0) = l.count b := by
  obtain ⟨hi, hget⟩ := List.getElem?_eq_some_iff.mp hy
  rcases eq_nil_or_concat l with rfl | ⟨l', x, rfl⟩
  · simp at hi
  simp only [concat_eq_append] at hi hget ⊢
  rw [swapRemove_concat, count_append, count_singleton]
  by_cases hlt : i < l'.length
  · rw [getElem_append_left hlt] at hget
    have hpos : y = b → 0 < l'.count b := fun heq =>
      count_pos_iff.mpr (heq ▸ hget ▸ getElem_mem hlt)
    rw [count_set hlt, hget]
    simp only [beq_iff_eq]
    split <;> split <;> simp_all
  · have heq : i = l'.length := by
      rw [length_append, length_singleton] at hi
      omega
    subst heq
    rw [getElem_append_right le_rfl] at hget
    simp only [Nat.sub_self, getElem_cons_zero] at hget
    rw [set_eq_of_length_le le_rfl, hget]
    simp

/-- The scan that removes `x`; the length of the array is enough fuel. -/
def purgeLoop (x : α) : Nat → List α → Nat → List α
  | 0, l, _ => l
  | fuel + 1, l, i =>
    match l[i]? with
    | none => l
    | some y => if y = x then purgeLoop x fuel (swapRemove l i) i else purgeLoop x fuel l (i + 1)

def purge (x : α) (l : List α) : List α := purgeLoop x l.length l 0

theorem count_purgeLoop_of_ne {x b : α} (hne : b ≠ x) (fuel : Nat) (l : List α) (i : Nat) :
    (purgeLoop x fuel l i).count b = l.count b := by
  induction fuel generalizing l i with
  | zero => rfl
  | succ fuel ih =>
    unfold purgeLoop
    split
    · rfl
    rename_i y hy
    split
    next heq =>
      have hcount := count_swapRemove hy b
      rw [heq, if_neg (Ne.symm hne)] at hcount
      rw [ih, ← hcount, add_zero]
    · exact ih l (i + 1)

omit [DecidableEq α] in
theorem not_mem_of_getElem?_ne {x : α} {l : List α} {i : Nat} (hle : l.length ≤ i)
    (hbefore : ∀ j < i, l[j]? ≠ some x) : x ∉ l := by
  intro hmem
  obtain ⟨j, hj, hget⟩ := getElem_of_mem hmem
  exact hbefore j (by omega) (List.getElem?_eq_some_iff.mpr ⟨hj, hget⟩)

theorem not_mem_purgeLoop {x : α} {fuel : Nat} {l : List α} {i : Nat} (hfuel : l.length ≤ fuel + i)
    (hbefore : ∀ j < i, l[j]? ≠ some x) : x ∉ purgeLoop x fuel l i := by
  induction fuel generalizing l i with
  | zero => exact not_mem_of_getElem?_ne (l := l) (by omega) hbefore
  | succ fuel ih =>
    unfold purgeLoop
    split
    next hnone => exact not_mem_of_getElem?_ne (List.getElem?_eq_none_iff.mp hnone) hbefore
    rename_i y hy
    have hi : i < l.length := (List.getElem?_eq_some_iff.mp hy).1
    split
    · have hlen := swapRemove_length l i
      refine ih (by omega) fun j hj => ?_
      rw [swapRemove_getElem? hj hi]
      exact hbefore j hj
    next hne =>
      refine ih (by omega) fun j hj => ?_
      rcases Nat.lt_succ_iff_lt_or_eq.mp hj with hlt | rfl
      · exact hbefore j hlt
      · rw [hy]
        exact fun heq => hne (Option.some.inj heq)

theorem count_purge_self (x : α) (l : List α) : (purge x l).count x = 0 :=
  count_eq_zero.mpr (not_mem_purgeLoop (by omega) fun j hj => absurd hj (Nat.not_lt_zero j))

theorem count_purge_of_ne {x b : α} (hne : b ≠ x) (l : List α) : (purge x l).count b = l.count b :=
  count_purgeLoop_of_ne hne _ l 0

end Kyuzen
