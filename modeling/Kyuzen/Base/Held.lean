import Mathlib.Data.List.Nodup
import Mathlib.Logic.Function.Basic

/-!
Resources that are handed out one by one and kept in the lists of their holders:
a holder may get a free one, pass its list on, or give it back.
-/

namespace Kyuzen

/-- Each resource is in the list of one holder, once, and was handed out. -/
structure Held {ι α : Type*} (held : ι → List α) (taken : α → Bool) : Prop where
  nodup : ∀ x, (held x).Nodup
  apart : ∀ x y f, f ∈ held x → f ∈ held y → x = y
  taken : ∀ x, ∀ f ∈ held x, taken f = true

namespace Held

variable {ι α : Type*} {held held' : ι → List α} {taken taken' : α → Bool}

/-- Some holders gave all of their resources away. -/
theorem drop (h : Held held taken) (hdrop : ∀ x, held' x = held x ∨ held' x = [])
    (htaken : ∀ x, ∀ f ∈ held' x, taken f = true → taken' f = true) : Held held' taken' := by
  have hmem : ∀ x f, f ∈ held' x → f ∈ held x := by
    intro x f hf
    rcases hdrop x with hx | hx
    · exact hx ▸ hf
    · rw [hx] at hf
      cases hf
  refine ⟨fun x => ?_, fun x y f hx hy => h.apart x y f (hmem x f hx) (hmem y f hy), fun x f hf =>
    htaken x f hf (h.taken x f (hmem x f hf))⟩
  rcases hdrop x with hx | hx
  · exact hx ▸ h.nodup x
  · rw [hx]
    exact .nil

/-- A holder gets a resource that was free. -/
theorem grow [DecidableEq α] (h : Held held taken) {x : ι} {f : α} (hfree : taken f = false)
    (hx : held' x = held x ++ [f]) (hother : ∀ y ≠ x, held' y = held y)
    (htaken : taken' = Function.update taken f true) : Held held' taken' := by
  have hnot : ∀ y, f ∉ held y := fun y hf => by simp [h.taken y f hf] at hfree
  have hmem : ∀ y g, g ∈ held' y → g ∈ held y ∨ y = x ∧ g = f := by
    intro y g hg
    by_cases hy : y = x
    · subst hy
      rw [hx] at hg
      rcases List.mem_append.mp hg with hg | hg
      · exact .inl hg
      · exact .inr ⟨rfl, List.mem_singleton.mp hg⟩
    · exact .inl (hother y hy ▸ hg)
  refine ⟨fun y => ?_, fun y z g hy hz => ?_, fun y g hg => ?_⟩
  · by_cases hy : y = x
    · subst hy
      rw [hx, List.nodup_append]
      refine ⟨h.nodup y, List.nodup_singleton f, fun a ha b hb heq => ?_⟩
      rw [List.mem_singleton.mp hb] at heq
      exact hnot y (heq ▸ ha)
    · rw [hother y hy]
      exact h.nodup y
  · rcases hmem y g hy with hy | ⟨rfl, rfl⟩ <;> rcases hmem z g hz with hz | ⟨rfl, hg⟩
    · exact h.apart y z g hy hz
    · exact absurd (hg ▸ hy) (hnot y)
    · exact absurd hz (hnot z)
    · rfl
  · rw [htaken]
    by_cases heq : g = f
    · rw [heq, Function.update_self]
    · rw [Function.update_of_ne heq]
      rcases hmem y g hg with hy | ⟨-, hbad⟩
      · exact h.taken y g hy
      · exact absurd hbad heq

/-- A holder hands its resources to one that had none. -/
theorem move (h : Held held taken) {x y : ι} (hne : x ≠ y) (hy : held' y = held x)
    (hx : held' x = []) (hother : ∀ z ≠ x, z ≠ y → held' z = held z) : Held held' taken := by
  have hmem : ∀ z f, f ∈ held' z → z = y ∧ f ∈ held x ∨ z ≠ x ∧ z ≠ y ∧ f ∈ held z := by
    intro z f hf
    by_cases hzy : z = y
    · exact .inl ⟨hzy, hy ▸ hzy ▸ hf⟩
    · by_cases hzx : z = x
      · rw [hzx, hx] at hf
        cases hf
      · exact .inr ⟨hzx, hzy, hother z hzx hzy ▸ hf⟩
  refine ⟨fun z => ?_, fun z w f hz hw => ?_, fun z f hf => ?_⟩
  · by_cases hzy : z = y
    · rw [hzy, hy]
      exact h.nodup x
    · by_cases hzx : z = x
      · rw [hzx, hx]
        exact .nil
      · rw [hother z hzx hzy]
        exact h.nodup z
  · rcases hmem z f hz with ⟨rfl, hz⟩ | ⟨hzx, -, hz⟩ <;>
      rcases hmem w f hw with ⟨rfl, hw⟩ | ⟨hwx, -, hw⟩
    · rfl
    · exact absurd (h.apart x w f hz hw).symm hwx
    · exact absurd (h.apart z x f hz hw) hzx
    · exact h.apart z w f hz hw
  · rcases hmem z f hf with ⟨-, hf⟩ | ⟨-, -, hf⟩
    · exact h.taken x f hf
    · exact h.taken z f hf

end Held

end Kyuzen
