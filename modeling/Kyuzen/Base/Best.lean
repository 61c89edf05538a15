import Mathlib.Data.List.Sort
import Mathlib.Tactic

/-!
Two loops over the entries of a table: the scan for the entry with the greatest
key, which keeps the first of equals, and the insertion sort by a key.
-/

namespace Kyuzen

open List

section Scan

variable {ι : Type} (ok : ι → Prop) [DecidablePred ok] (key : ι → Int)

/-- One turn of the scan, on the best key and its entry so far. -/
def scanNext (best : Int × Option ι) (i : ι) : Int × Option ι :=
  if ok i ∧ best.1 < key i then (key i, some i) else best

/-- The entry with the greatest key above `low`, of those that are `ok`. -/
def scanMax (low : Int) (l : List ι) : Option ι := (l.foldl (scanNext ok key) (low, none)).2

/-- The entry with the least key below `high`. -/
def scanMin (high : Int) (l : List ι) : Option ι := scanMax ok (fun i => -key i) (-high) l

variable {ok key}

/-- What the scan knows after the entries of `l`, from the key `low`. -/
def ScanBest (ok : ι → Prop) (key : ι → Int) (low : Int) (l : List ι) : Int × Option ι → Prop
  | (b, none) => b = low ∧ ∀ i ∈ l, ok i → key i ≤ low
  | (b, some i) => b = key i ∧ i ∈ l ∧ ok i ∧ low < key i ∧ ∀ j ∈ l, ok j → key j ≤ key i

variable {l : List ι} {low : Int} {best : Int × Option ι}

theorem ScanBest.next (h : ScanBest ok key low l best) (i : ι) :
    ScanBest ok key low (l ++ [i]) (scanNext ok key best i) := by
  obtain ⟨b, w⟩ := best
  have htake (hle : ∀ j ∈ l, ok j → key j ≤ b) (hlt : b < key i) :
      ∀ j ∈ l ++ [i], ok j → key j ≤ key i := by
    intro j hj hok
    rcases mem_append.mp hj with hj | hj
    · exact (hle j hj hok).trans hlt.le
    · rw [mem_singleton.mp hj]
  have hskip (hle : ∀ j ∈ l, ok j → key j ≤ b) (hi : ¬ (ok i ∧ b < key i)) :
      ∀ j ∈ l ++ [i], ok j → key j ≤ b := by
    intro j hj hok
    rcases mem_append.mp hj with hj | hj
    · exact hle j hj hok
    · obtain rfl := mem_singleton.mp hj
      exact not_lt.mp fun hlt => hi ⟨hok, hlt⟩
  unfold scanNext
  cases w with
  | none =>
    obtain ⟨rfl, hle⟩ := h
    split
    next hi => exact ⟨rfl, mem_append_right l (.head _), hi.1, hi.2, htake hle hi.2⟩
    next hi => exact ⟨rfl, hskip hle hi⟩
  | some v =>
    obtain ⟨rfl, hv, hokv, hlow, hle⟩ := h
    split
    next hi =>
      exact ⟨rfl, mem_append_right l (.head _), hi.1, hlow.trans hi.2, htake hle hi.2⟩
    next hi => exact ⟨rfl, mem_append_left _ hv, hokv, hlow, hskip hle hi⟩

theorem scanBest_foldl (l l' : List ι) (h : ScanBest ok key low l best) :
    ScanBest ok key low (l ++ l') (l'.foldl (scanNext ok key) best) := by
  induction l' generalizing l best with
  | nil =>
    rw [append_nil]
    exact h
  | cons i l' ih =>
    have := ih (l ++ [i]) (h.next i)
    rw [append_assoc, singleton_append] at this
    exact this

variable (ok key) in
theorem scanBest_scanMax (low : Int) (l : List ι) :
    ∃ b, ScanBest ok key low l (b, scanMax ok key low l) :=
  ⟨_, scanBest_foldl [] l ⟨rfl, nofun⟩⟩

theorem scanMax_some {i : ι} (h : scanMax ok key low l = some i) :
    i ∈ l ∧ ok i ∧ low < key i ∧ ∀ j ∈ l, ok j → key j ≤ key i := by
  obtain ⟨b, hbest⟩ := scanBest_scanMax ok key low l
  rw [h] at hbest
  exact hbest.2

theorem scanMax_none (h : scanMax ok key low l = none) : ∀ i ∈ l, ok i → key i ≤ low := by
  obtain ⟨b, hbest⟩ := scanBest_scanMax ok key low l
  rw [h] at hbest
  exact hbest.2

theorem scanMin_some {high : Int} {i : ι} (h : scanMin ok key high l = some i) : i ∈ l ∧ ok i :=
  ⟨(scanMax_some h).1, (scanMax_some h).2.1⟩

end Scan

section Sorting

variable {ι : Type} (key : ι → Nat)

/-- The insertion sort of an array by `key`, where an entry moves down past the greater
keys only. The sorted part is kept with its end first. -/
def insertionByKey (l : List ι) : List ι :=
  (l.foldl (fun sorted i => sorted.orderedInsert (fun a b => key b ≤ key a) i) []).reverse

theorem insertionByKey_eq (l : List ι) :
    insertionByKey key l = (l.reverse.insertionSort fun a b => key b ≤ key a).reverse := by
  rw [insertionByKey, insertionSort, foldr_reverse]

theorem insertionByKey_perm (l : List ι) : (insertionByKey key l).Perm l := by
  rw [insertionByKey_eq]
  exact (reverse_perm _).trans ((perm_insertionSort _ _).trans (reverse_perm l))

theorem insertionByKey_sorted (l : List ι) :
    (insertionByKey key l).Pairwise fun a b => key a ≤ key b := by
  rw [insertionByKey_eq, pairwise_reverse]
  have : Std.Total fun a b : ι => key b ≤ key a := ⟨fun a b => le_total _ _⟩
  have : IsTrans ι fun a b => key b ≤ key a := ⟨fun _ _ _ h h' => h'.trans h⟩
  exact pairwise_insertionSort _ _

theorem idxOf_lt_idxOf_iff [DecidableEq ι] {l : List ι} (hl : l.Pairwise fun a b => key a ≤ key b)
    {i j : ι} (hi : i ∈ l) (hj : j ∈ l) (hne : key i = key j → i = j) :
    l.idxOf i < l.idxOf j ↔ key i < key j := by
  have hle : ∀ {a b}, a ∈ l → b ∈ l → l.idxOf a < l.idxOf b → key a ≤ key b := by
    intro a b ha hb hlt
    have := pairwise_iff_getElem.mp hl _ _ (idxOf_lt_length_iff.mpr ha)
      (idxOf_lt_length_iff.mpr hb) hlt
    rw [getElem_idxOf, getElem_idxOf] at this
    exact this
  constructor
  · intro hlt
    refine lt_of_le_of_ne (hle hi hj hlt) fun heq => ?_
    rw [hne heq] at hlt
    exact lt_irrefl _ hlt
  · intro hlt
    by_contra hge
    rcases (not_lt.mp hge).lt_or_eq with h | h
    · exact absurd (hle hj hi h) (not_le.mpr hlt)
    · rw [idxOf_inj hj |>.mp h] at hlt
      exact lt_irrefl _ hlt

end Sorting

end Kyuzen
