import Mathlib.Tactic

/-!
Fields of a delimited text. `cutField` reads up to a delimiter and steps over it;
`cutFieldMax` reads at most a number of symbols and steps over the delimiter only
when it is the next symbol. `find?_key` is the lookup of a record by a key.
-/

namespace Kyuzen

open List

variable {α : Type} [DecidableEq α]

/-- The symbols before the first `stop`, and what follows it. -/
def cutField (stop : α) (s : List α) : List α × List α :=
  (s.takeWhile (· ≠ stop), (s.dropWhile (· ≠ stop)).drop 1)

/-- Like `cutField`, but the field ends after `n` symbols too. -/
def cutFieldMax (n : Nat) (stop : α) (s : List α) : List α × List α :=
  let f := (s.takeWhile (· ≠ stop)).take n
  let rest := s.drop f.length
  (f, if rest.head? = some stop then rest.drop 1 else rest)

variable {stop : α} {f s : List α}

theorem takeWhile_field (h : stop ∉ f) : (f ++ stop :: s).takeWhile (· ≠ stop) = f := by
  rw [takeWhile_append_of_pos (by
    intro a ha
    exact decide_eq_true fun heq => h (heq ▸ ha))]
  rw [takeWhile_cons_of_neg (by simp), append_nil]

theorem cutField_append (h : stop ∉ f) : cutField stop (f ++ stop :: s) = (f, s) := by
  have hdrop : (f ++ stop :: s).dropWhile (· ≠ stop) = stop :: s := by
    rw [dropWhile_append_of_pos (by
      intro a ha
      exact decide_eq_true fun heq => h (heq ▸ ha))]
    exact dropWhile_cons_of_neg (by simp)
  rw [cutField, takeWhile_field h, hdrop]
  rfl

theorem cutFieldMax_append {n : Nat} (h : stop ∉ f) (hn : f.length ≤ n) :
    cutFieldMax n stop (f ++ stop :: s) = (f, s) := by
  rw [cutFieldMax, takeWhile_field h, take_of_length_le hn, drop_left, head?_cons, if_pos rfl]
  rfl

theorem notMem_cutField (stop : α) (s : List α) : stop ∉ (cutField stop s).1 := by
  intro h
  have hne := List.all_eq_true.mp all_takeWhile stop h
  exact of_decide_eq_true hne rfl

/-- Where the keys are distinct, a search by key finds the record that has it. -/
theorem find?_key {β : Type} {key : β → α} {l : List β} (hnodup : (l.map key).Nodup) {b : β}
    {k : α} : l.find? (fun b => key b = k) = some b ↔ b ∈ l ∧ key b = k := by
  constructor
  · intro h
    have hkey := find?_some h
    exact ⟨mem_of_find?_eq_some h, of_decide_eq_true hkey⟩
  rintro ⟨hb, rfl⟩
  cases hfind : l.find? fun c => key c = key b with
  | none =>
    have hnone := find?_eq_none.mp hfind b hb
    exact absurd (decide_eq_true rfl) hnone
  | some c =>
    have hkey := find?_some hfind
    rw [inj_on_of_nodup_map hnodup (mem_of_find?_eq_some hfind) hb
      (of_decide_eq_true hkey)]

end Kyuzen
