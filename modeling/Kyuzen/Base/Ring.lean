import Mathlib.Tactic

/-!
Circular buffers: a window of `n` cells from a position on, read and written by
loops that step the position modulo the capacity.
-/

namespace Kyuzen

open Function List Nat

variable {α : Type} {cap : Nat} {buf : Nat → α} {pos n : Nat}

/-- The `n` cells from `pos` on. -/
def ringList (cap : Nat) (buf : Nat → α) (pos n : Nat) : List α :=
  (range n).map fun i => buf ((pos + i) % cap)

/-- A loop that reads `n` cells. -/
def ringTake (cap : Nat) (buf : Nat → α) : Nat → Nat → List α × Nat
  | 0, pos => ([], pos)
  | n + 1, pos =>
    let (l, pos') := ringTake cap buf n ((pos + 1) % cap)
    (buf pos :: l, pos')

/-- A loop that writes the elements of a list. -/
def ringPut (cap : Nat) : List α → (Nat → α) → Nat → (Nat → α) × Nat
  | [], buf, pos => (buf, pos)
  | x :: l, buf, pos => ringPut cap l (update buf pos x) ((pos + 1) % cap)

theorem ringList_length : (ringList cap buf pos n).length = n := by simp [ringList]

theorem ringList_succ (hpos : pos < cap) :
    ringList cap buf pos (n + 1) = buf pos :: ringList cap buf ((pos + 1) % cap) n := by
  rw [ringList, range_succ_eq_map, map_cons, map_map, add_zero, mod_eq_of_lt hpos, ringList]
  refine congrArg (buf pos :: ·) (map_congr_left fun i _ => ?_)
  rw [Function.comp_apply, mod_add_mod, succ_eq_add_one, add_assoc, add_comm 1 i]

theorem ringTake_eq (hpos : pos < cap) :
    ringTake cap buf n pos = (ringList cap buf pos n, (pos + n) % cap) := by
  induction n generalizing pos with
  | zero => rw [ringTake, add_zero, mod_eq_of_lt hpos, ringList, range_zero, map_nil]
  | succ n ih =>
    rw [ringTake, ih (mod_lt _ (by omega)), ringList_succ hpos, mod_add_mod,
      add_assoc, add_comm 1 n]

theorem ringList_add (m : Nat) : ringList cap buf pos (n + m) =
      ringList cap buf pos n ++ ringList cap buf ((pos + n) % cap) m := by
  rw [ringList, range_add, map_append, map_map, ringList, ringList]
  refine congrArg _ (map_congr_left fun i _ => ?_)
  rw [Function.comp_apply, mod_add_mod, add_assoc]

theorem ring_mod_ne {i : Nat} (hi : i < n) (hn : n < cap) : (pos + i) % cap ≠ (pos + n) % cap := by
  intro heq
  have hdvd := (modEq_iff_dvd' (by omega)).mp (show (pos + i) ≡ (pos + n) [MOD cap] from heq)
  have := le_of_dvd (by omega) hdvd
  omega

theorem ringList_push {x : α} (hn : n < cap) :
    ringList cap (update buf ((pos + n) % cap) x) pos (n + 1) =
      ringList cap buf pos n ++ [x] := by
  rw [ringList, range_succ, map_append, map_singleton, update_self, ringList]
  refine congrArg (· ++ [x]) (map_congr_left fun i hi => ?_)
  rw [update_of_ne (ring_mod_ne (mem_range.mp hi) hn)]

theorem ringPut_eq {l : List α} (hfits : n + l.length ≤ cap) :
    ringList cap (ringPut cap l buf ((pos + n) % cap)).1 pos (n + l.length) =
        ringList cap buf pos n ++ l ∧
      (ringPut cap l buf ((pos + n) % cap)).2 = (pos + (n + l.length)) % cap := by
  induction l generalizing buf n with
  | nil => simp [ringPut]
  | cons x l ih =>
    rw [length_cons] at hfits
    obtain ⟨hlist, hpos⟩ := @ih (update buf ((pos + n) % cap) x) (n + 1) (by omega)
    have hnext : ((pos + n) % cap + 1) % cap = (pos + (n + 1)) % cap := by
      rw [mod_add_mod, add_assoc]
    have hlength : n + (x :: l).length = n + 1 + l.length := by
      rw [length_cons]
      omega
    rw [ringPut, hnext, hlength]
    refine ⟨?_, hpos⟩
    rw [hlist, ringList_push (by omega), append_assoc, singleton_append]

/-- A queue `l` in a ring: its cells are those from `pos` on, and exactly these are not
`free`. -/
structure RingQueue (cap : Nat) (cell : Nat → α) (free : Nat → Bool) (pos : Nat) (l : List α) :
    Prop where
  pos_lt : pos < cap
  length_le : l.length ≤ cap
  cells : ringList cap cell pos l.length = l
  free_eq : ∀ i < cap, free ((pos + i) % cap) = decide (l.length ≤ i)

namespace RingQueue

variable {cell : Nat → α} {free : Nat → Bool} {l : List α} {x : α}

/-- The cell behind the queue is free exactly when the queue does not fill the ring. -/
theorem length_lt_of_free (h : RingQueue cap cell free pos l)
    (hfree : free ((pos + l.length) % cap) = true) : l.length < cap := by
  by_contra hfull
  have hlength : l.length = cap := le_antisymm h.length_le (not_lt.mp hfull)
  have hpos := h.pos_lt
  have hfirst := h.free_eq 0 (by omega)
  rw [hlength, add_mod_right, mod_eq_of_lt hpos] at hfree
  rw [add_zero, mod_eq_of_lt hpos, hfree, hlength] at hfirst
  have := of_decide_eq_true hfirst.symm
  omega

theorem push (h : RingQueue cap cell free pos l) (hroom : l.length < cap) :
    RingQueue cap (update cell ((pos + l.length) % cap) x)
      (update free ((pos + l.length) % cap) false) pos (l ++ [x]) where
  pos_lt := h.pos_lt
  length_le := by
    rw [length_append, length_singleton]
    exact hroom
  cells := by
    rw [length_append, length_singleton, ringList_push hroom, h.cells]
  free_eq i hi := by
    rw [length_append, length_singleton]
    by_cases hend : i = l.length
    · rw [hend, update_self, decide_eq_false (by omega)]
    have hne : (pos + i) % cap ≠ (pos + l.length) % cap := by
      rcases Nat.lt_or_gt_of_ne hend with hlt | hgt
      · exact ring_mod_ne hlt hroom
      · exact (ring_mod_ne hgt hi).symm
    rw [update_of_ne hne, h.free_eq i hi]
    exact decide_eq_decide.mpr (by omega)

theorem pop (h : RingQueue cap cell free pos (x :: l)) (y : α) : cell pos = x ∧
      RingQueue cap (update cell pos y) (update free pos true)
        ((pos + 1) % cap) l := by
  have hle := h.length_le
  have hcells := h.cells
  rw [length_cons] at hle hcells
  rw [ringList_succ h.pos_lt] at hcells
  obtain ⟨hx, hl⟩ := cons.inj hcells
  have hnext : ∀ i, ((pos + 1) % cap + i) % cap = (pos + (i + 1)) % cap := by
    intro i
    rw [mod_add_mod, add_assoc, add_comm 1 i]
  have hne : ∀ i, i + 1 < cap → (pos + (i + 1)) % cap ≠ pos := by
    intro i hi heq
    have h0 : (pos + 0) % cap = pos := mod_eq_of_lt h.pos_lt
    have hmod : (pos + 0) % cap ≠ (pos + (i + 1)) % cap := ring_mod_ne (succ_pos i) hi
    exact hmod (h0.trans heq.symm)
  refine ⟨hx, ⟨mod_lt _ (by omega), by omega, ?_, ?_⟩⟩
  · rw [← hl, ringList, ringList]
    rw [length_map, length_range]
    refine map_congr_left fun i hi => ?_
    rw [hnext i, update_of_ne (hne i (by have := mem_range.mp hi; omega))]
  · intro i hi
    rw [hnext i]
    by_cases hlast : i + 1 = cap
    · rw [hlast, add_mod_right, mod_eq_of_lt h.pos_lt, update_self,
        decide_eq_true (by omega)]
    · rw [update_of_ne (hne i (by omega)), h.free_eq (i + 1) (by omega), length_cons]
      exact decide_eq_decide.mpr (by omega)

end RingQueue

end Kyuzen
