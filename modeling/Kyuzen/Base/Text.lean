import Mathlib.Data.List.SplitOn
import Mathlib.Tactic

/-!
Byte strings, with the searches that the C and C++ string functions offer.
-/

namespace Kyuzen

abbrev Text := List UInt8

def lit (s : String) : Text := s.toList.map fun c => UInt8.ofNat c.toNat

def findText (pat : Text) : Text → Option Nat
  | [] => if pat = [] then some 0 else none
  | c :: s => if pat.isPrefixOf (c :: s) then some 0 else (findText pat s).map (· + 1)

theorem findText_prefix {pat s : Text} {e : Nat} (h : findText pat s = some e) :
    pat <+: s.drop e := by
  induction s generalizing e with
  | nil =>
    rw [findText] at h
    split_ifs at h with hnil
    rw [hnil]
    exact List.nil_prefix
  | cons c s ih =>
    rw [findText] at h
    split_ifs at h with hpat
    · cases h
      exact List.isPrefixOf_iff_prefix.mp hpat
    · obtain ⟨e, he, rfl⟩ := Option.map_eq_some_iff.mp h
      exact ih he

def lowerText (s : Text) : Text := s.map fun c => if 65 ≤ c ∧ c ≤ 90 then c + 32 else c

def trimText (s : Text) : Text :=
  let blank : UInt8 → Bool := fun c => c = 32 ∨ c = 9
  ((s.dropWhile blank).reverse.dropWhile blank).reverse

/-- A number in decimal, `none` when a byte is no digit. -/
def decimal (s : Text) : Option Nat :=
  s.foldl (fun v c => v.bind fun n => if 48 ≤ c ∧ c ≤ 57 then some (n * 10 + (c.toNat - 48)) else none)
    (some 0)

end Kyuzen
