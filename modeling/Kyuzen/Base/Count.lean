import Mathlib.Tactic

/-!
Counting under a point update: sums over a range of indices, and counters that
record references in the hands of running calls.
-/

namespace Kyuzen

open Function Finset

theorem sum_range_update {α : Type} {n i : Nat} (hi : i < n) (f : Nat → α) (g : α → Nat) (v : α) :
    (∑ j ∈ range n, g (update f i v j)) + g (f i) =
      (∑ j ∈ range n, g (f j)) + g v := by
  have hmem := mem_range.mpr hi
  have hrest : ∑ j ∈ (range n).erase i, g (update f i v j) =
      ∑ j ∈ (range n).erase i, g (f j) := by
    refine sum_congr rfl fun j hj => ?_
    rw [update_of_ne (ne_of_mem_erase hj)]
  rw [← add_sum_erase _ _ hmem, ← add_sum_erase _ _ hmem, hrest, update_self]
  omega

theorem card_filter_update {α : Type} {n i : Nat} (hi : i < n) (f : Nat → α) (p : α → Prop)
    [DecidablePred p] (v : α) :
    ((range n).filter fun j => p (update f i v j)).card + (if p (f i) then 1 else 0) =
      ((range n).filter fun j => p (f j)).card + if p v then 1 else 0 := by
  rw [card_filter, card_filter]
  exact sum_range_update hi f (fun x => if p x then 1 else 0) v

/-- One more reference to `d`. -/
def held (h : Nat → Nat) (d : Nat) : Nat → Nat := update h d (h d + 1)

theorem held_self (h : Nat → Nat) (d : Nat) : held h d d = h d + 1 := update_self _ _ _

theorem held_of_ne {h : Nat → Nat} {d d' : Nat} (hne : d' ≠ d) : held h d d' = h d' :=
  update_of_ne hne _ _

end Kyuzen
