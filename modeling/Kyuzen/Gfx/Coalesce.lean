import Kyuzen.Gfx.Rect

/-!
What one call of `dirty_region_mark` does to the list, and from it what a whole
history of marks leaves behind.
-/

namespace Kyuzen.Gfx

open List

variable {a b c r box : Rect} {p : Point} {l l' m marks : List Rect} {i j keep : Nat}

/-- What the search for a target knows of the regions it has passed. -/
def MergeBest (l : List Rect) (r : Rect) (best : Option (Nat × Int)) : Prop :=
  (∀ i cost, best = some (i, cost) → i < l.length ∧ cost = mergeInflation (regionAt l i) r) ∧
    ∀ q ∈ l, rectIntersect q r ≠ none → ∃ i cost, best = some (i, cost) ∧ cost ≤ mergeInflation q r

theorem MergeBest.pass {best : Option (Nat × Int)} (h : MergeBest l r best)
    (ha : rectIntersect a r ≠ none → ∃ i cost, best = some (i, cost) ∧ cost ≤ mergeInflation a r) :
    MergeBest (l ++ [a]) r best := by
  refine ⟨fun i cost hbest => ?_, fun q hq hmeet => ?_⟩
  · obtain ⟨hi, hcost⟩ := h.1 i cost hbest
    refine ⟨by rw [length_append]; omega, ?_⟩
    simp [hcost, regionAt, getElem?_append_left hi]
  · rcases mem_append.mp hq with hq | hq
    · exact h.2 q hq hmeet
    · rw [mem_singleton.mp hq] at hmeet ⊢
      exact ha hmeet

theorem mergeBest_last
    (h : ∀ q ∈ l, rectIntersect q r ≠ none → mergeInflation a r ≤ mergeInflation q r) :
    MergeBest (l ++ [a]) r (some (l.length, mergeInflation a r)) := by
  refine ⟨fun i cost hbest => ?_, fun q hq hmeet => ⟨_, _, rfl, ?_⟩⟩
  · cases hbest
    simp [regionAt]
  · rcases mem_append.mp hq with hq | hq
    · exact h q hq hmeet
    · rw [mem_singleton.mp hq]

theorem mergeTarget_best (l : List Rect) (r : Rect) : MergeBest l r (mergeTarget l r) := by
  induction l using reverseRecOn with
  | nil => exact ⟨nofun, fun q hq => absurd hq not_mem_nil⟩
  | append_singleton l x ih =>
    rw [mergeTarget_concat]
    split
    next hx => exact ih.pass fun hmeet => absurd hx hmeet
    split
    next hbest =>
      refine mergeBest_last fun q hq hmeet => ?_
      obtain ⟨i, cost, hsome, -⟩ := ih.2 q hq hmeet
      cases hbest.symm.trans hsome
    next i cost hbest =>
      split
      · refine mergeBest_last fun q hq hmeet => ?_
        obtain ⟨i, cost, hsome, hle⟩ := ih.2 q hq hmeet
        cases hbest.symm.trans hsome
        omega
      · exact ih.pass fun _ => ⟨i, cost, hbest, by omega⟩

theorem dropContainedFrom_later (h : keep < j) :
    dropContainedFrom c keep j l = l.filter fun q => !rectContains c q := by
  induction l generalizing j with
  | nil => rfl
  | cons q l ih =>
    have hne : j ≠ keep := by omega
    rw [dropContainedFrom, ih (by omega), filter_cons]
    cases rectContains c q <;> simp [hne]

/-- A region that grew takes those inside it with it. -/
theorem dropContainedFrom_set (hi : i < l.length) : (dropContainedFrom c (j + i) j (l.set i c)).Perm
      (c :: (l.eraseIdx i).filter fun q => !rectContains c q) := by
  induction l generalizing i j with
  | nil => exact absurd hi (Nat.not_lt_zero i)
  | cons q l ih =>
    cases i with
    | zero =>
      rw [set_cons_zero, dropContainedFrom, if_neg (by simp),
        dropContainedFrom_later (by omega), eraseIdx_cons_zero]
    | succ i =>
      have hrec := ih (i := i) (j := j + 1) (by simpa using hi)
      rw [show j + 1 + i = j + (i + 1) by omega] at hrec
      rw [set_cons_succ, dropContainedFrom, eraseIdx_cons_succ, List.filter_cons]
      cases rectContains c q with
      | true => simpa using hrec
      | false =>
        simp only [Bool.false_eq_true, and_false, if_false, Bool.not_false, if_true]
        exact (hrec.cons q).trans (.swap ..)

theorem regionAt_eq (hi : i < l.length) : regionAt l i = l[i] := by
  rw [regionAt, getD_eq_getElem?_getD, getElem?_eq_getElem hi, Option.getD_some]

theorem cheapest_mem {α : Type} (cost : α → Int) (first : α) (l : List α) :
    cheapest cost first l ∈ first :: l := by
  induction l generalizing first with
  | nil => exact mem_singleton.mpr rfl
  | cons x l ih =>
    rw [cheapest, foldl_cons]
    have h := ih (if cost x < cost first then x else first)
    rw [cheapest] at h
    rcases mem_cons.mp h with h | h
    · rw [h]
      split
      · exact .tail _ (.head _)
      · exact .head _
    · exact .tail _ (.tail _ h)

theorem lt_of_mem_pairs {n : Nat} {ij : Nat × Nat} (h : ij ∈ pairs n) : ij.1 < ij.2 ∧ ij.2 < n := by
  obtain ⟨i, hi, hij⟩ := mem_flatMap.mp h
  obtain ⟨j, hj, rfl⟩ := mem_map.mp hij
  have := mem_range.mp hi
  have := mem_range'_1.mp hj
  omega

theorem cheapestPair_lt (hfull : l.length = maxDirtyRegions) :
    let pair := cheapest (fun (i, j) => mergeInflation (regionAt l i) (regionAt l j)) (0, 1)
      (pairs l.length)
    pair.1 < pair.2 ∧ pair.2 < l.length := by
  intro pair
  have hmem := cheapest_mem (fun (i, j) => mergeInflation (regionAt l i) (regionAt l j)) (0, 1)
    (pairs l.length)
  rcases mem_cons.mp hmem with hmem | hmem
  · have hpair : pair = (0, 1) := hmem
    rw [hpair, hfull]
    decide
  · exact lt_of_mem_pairs hmem

def Apart (a b : Rect) : Prop := rectContains a b = false ∧ rectContains b a = false

theorem rectContains_iff : rectContains a b = true ↔ a.x ≤ b.x ∧ a.y ≤ b.y ∧
    b.x + b.width ≤ a.x + a.width ∧ b.y + b.height ≤ a.y + a.height :=
  decide_eq_true_iff

theorem rectContains_union (a b : Rect) :
    rectContains c (rectUnion a b) = true ↔ rectContains c a = true ∧ rectContains c b = true := by
  simp only [rectContains_iff, rectUnion]
  omega

def NonEmpty (r : Rect) : Prop := 0 < r.width ∧ 0 < r.height

/-- `l` with `c` in front and without the regions `c` contains. -/
def absorb (c : Rect) (l : List Rect) : List Rect := c :: l.filter fun q => !rectContains c q

/-- What one mark made of the regions, up to their order. -/
inductive Marked (l : List Rect) (r : Rect) (l' : List Rect) : Prop where
  | skipped (hr : ∀ p ∈ r, Covers l p) (h : l' = l)
  | grown (a : Rect) (m : List Rect) (hl : l.Perm (a :: m))
      (hcost : l.length < maxDirtyRegions → mergeInflation a r ≤ 0)
      (h : l'.Perm (absorb (rectUnion a r) m))
  | added (hout : ∀ q ∈ l, rectContains q r = false) (hroom : l.length < maxDirtyRegions)
      (h : l'.Perm (absorb r l))
  | merged (a b : Rect) (m : List Rect) (hl : l.Perm (a :: b :: m))
      (hfull : l.length = maxDirtyRegions) (hin : rectContains (rectUnion a b) r = true)
      (h : l'.Perm (absorb (rectUnion a b) m))
  | mergedAdded (a b : Rect) (m : List Rect) (hl : l.Perm (a :: b :: m))
      (hfull : l.length = maxDirtyRegions) (hout : rectContains (rectUnion a b) r = false)
      (hapart : (∀ q ∈ l, NonEmpty q) → ∀ q ∈ l, Apart r q)
      (h : l'.Perm (r :: absorb (rectUnion a b) m))

theorem perm_regionAt (hi : i < l.length) : l.Perm (regionAt l i :: l.eraseIdx i) := by
  rw [regionAt_eq hi]
  exact (getElem_cons_eraseIdx_perm hi).symm

theorem mergeInflation_inside (ha : NonEmpty a) (h : rectContains r a = true) :
    rectIntersect a r ≠ none ∧ mergeInflation a r ≤ 0 := by
  obtain ⟨hw, hh⟩ := ha
  rw [rectContains_iff] at h
  have hunion : rectUnion a r = r := by
    obtain ⟨x, y, width, height⟩ := r
    simp only [rectUnion, Rect.mk.injEq] at h ⊢
    omega
  constructor
  · unfold rectIntersect
    rw [if_neg (by omega)]
    exact Option.some_ne_none _
  · unfold mergeInflation rectArea
    rw [hunion]
    omega

theorem grown_marked (hi : i < l.length)
    (hcost : l.length < maxDirtyRegions → mergeInflation (regionAt l i) r ≤ 0) :
    Marked l r (dirtyDropContained (l.set i (rectUnion (regionAt l i) r))
      (rectUnion (regionAt l i) r) i) := by
  refine .grown _ _ (perm_regionAt hi) hcost ?_
  have hdrop := dropContainedFrom_set (c := rectUnion (regionAt l i) r) (j := 0) hi
  rwa [zero_add] at hdrop

/-- The list of regions is full when no region can be added. -/
theorem markFull_marked (hfull : l.length = maxDirtyRegions)
    (hapart : (∀ q ∈ l, NonEmpty q) → ∀ q ∈ l, Apart r q) : Marked l r (markFull l r) := by
  unfold markFull
  dsimp only
  split
  · refine grown_marked ?_ fun hlt => by omega
    have hmem := cheapest_mem (fun i => mergeInflation (regionAt l i) r) 0
      (range' 1 (l.length - 1))
    unfold maxDirtyRegions at hfull
    rcases mem_cons.mp hmem with hmem | hmem
    · omega
    · have := mem_range'_1.mp hmem
      omega
  obtain ⟨hij, hj⟩ := cheapestPair_lt hfull
  generalize cheapest (fun (i, j) => mergeInflation (regionAt l i) (regionAt l j)) (0, 1)
    (pairs l.length) = pair at hij hj
  obtain ⟨i, j⟩ := pair
  rw [if_neg (Nat.lt_asymm hij), eraseIdx_set_gt hij]
  have hi : i < (l.eraseIdx j).length := by
    rw [length_eraseIdx_of_lt hj]
    omega
  have hl : l.Perm (regionAt l i :: regionAt l j :: (l.eraseIdx j).eraseIdx i) := by
    have hfirst : regionAt (l.eraseIdx j) i = regionAt l i := by
      simp [regionAt, getElem?_eraseIdx_of_lt hij]
    have htwo := perm_regionAt hi
    rw [hfirst] at htwo
    exact ((perm_regionAt hj).trans (htwo.cons _)).trans (.swap ..)
  have hdrop := dropContainedFrom_set (c := rectUnion (regionAt l i) (regionAt l j))
    (j := 0) hi
  rw [zero_add] at hdrop
  split
  next hroom =>
    exact .mergedAdded _ _ _ hl hfull hroom.2 hapart
      ((perm_append_singleton ..).trans (hdrop.cons r))
  next hskip =>
    -- there is room after the merge, so the region is left out only when it is inside
    refine .merged _ _ _ hl hfull (Bool.eq_true_of_not_eq_false fun hout => hskip ⟨?_, hout⟩) hdrop
    have hlen := hl.length_eq
    have hless := length_filter_le
      (fun q => !rectContains (rectUnion (regionAt l i) (regionAt l j)) q)
      ((l.eraseIdx j).eraseIdx i)
    rw [dirtyDropContained, hdrop.length_eq, length_cons]
    rw [length_cons, length_cons] at hlen
    omega

theorem dirtyRegionMark_marked (hle : l.length ≤ maxDirtyRegions) (r : Rect) :
    Marked l r (dirtyRegionMark l r) := by
  unfold dirtyRegionMark
  split
  next hempty =>
    refine .skipped (fun p hp => absurd hp ?_) rfl
    simp only [Rect.mem_def]
    omega
  split
  next hin =>
    obtain ⟨q, hq, hqr⟩ := any_eq_true.mp hin
    exact .skipped (fun p hp => ⟨q, hq, mem_of_rectContains hqr hp⟩) rfl
  next hany =>
    have hout : ∀ q ∈ l, rectContains q r = false := by simpa using hany
    have hrest (hin : ∀ q ∈ l, NonEmpty q → rectContains r q = true → False) : Marked l r
        (if l.length < maxDirtyRegions then l.filter (fun q => !rectContains r q) ++ [r]
        else markFull l r) := by
      split
      next hroom => exact .added hout hroom (perm_append_singleton ..)
      · exact markFull_marked (by omega) fun hne q hq =>
          ⟨Bool.eq_false_of_not_eq_true (hin q hq (hne q hq)), hout q hq⟩
    obtain ⟨hfound, hleast⟩ := mergeTarget_best l r
    split
    next m cost htarget =>
      obtain ⟨hm, hcost⟩ := hfound m cost htarget
      split
      next hfree => exact grown_marked hm fun _ => hcost ▸ hfree
      next hdear =>
        refine hrest fun q hq hne hin => hdear ?_
        obtain ⟨hmeet, hfree⟩ := mergeInflation_inside hne hin
        obtain ⟨_, _, hsome, hle⟩ := hleast q hq hmeet
        cases htarget.symm.trans hsome
        exact hle.trans hfree
    next htarget =>
      refine hrest fun q hq hne hin => ?_
      obtain ⟨_, _, hsome, -⟩ := hleast q hq (mergeInflation_inside hne hin).1
      cases htarget.symm.trans hsome

/-! ### Coverage and length -/

theorem Covers.perm (h : Covers l p) (hl : l.Perm l') : Covers l' p := by
  obtain ⟨q, hq, hp⟩ := h
  exact ⟨q, hl.mem_iff.mp hq, hp⟩

theorem absorb_covers (h : p ∈ c ∨ Covers l p) : Covers (absorb c l) p := by
  by_cases hp : p ∈ c
  · exact ⟨c, (.head _), hp⟩
  · obtain ⟨q, hq, hpq⟩ := h.resolve_left hp
    refine ⟨q, mem_cons_of_mem _ (mem_filter.mpr ⟨hq, ?_⟩), hpq⟩
    rw [Bool.not_eq_true']
    exact Bool.eq_false_of_not_eq_true fun hin => hp (mem_of_rectContains hin hpq)

theorem absorb_length (c : Rect) (l : List Rect) : (absorb c l).length ≤ l.length + 1 :=
  Nat.succ_le_succ (length_filter_le _ l)

theorem union_covers (hl : Covers (a :: m) p) (b : Rect) : Covers (absorb (rectUnion a b) m) p := by
  apply absorb_covers
  rcases covers_cons.mp hl with ha | hm
  · exact .inl (mem_rectUnion_left b ha)
  · exact .inr hm

theorem merged_covers (h : Covers (a :: b :: m) p) : Covers (absorb (rectUnion a b) m) p := by
  apply absorb_covers
  rcases covers_cons.mp h with ha | h
  · exact .inl (mem_rectUnion_left b ha)
  rcases covers_cons.mp h with hb | hm
  · exact .inl (mem_rectUnion_right a hb)
  · exact .inr hm

theorem Marked.covers (hmark : Marked l r l') (h : Covers l p ∨ p ∈ r) : Covers l' p := by
  cases hmark with
  | skipped hr hl => exact hl ▸ h.elim id (hr p)
  | grown a m hl hcost hl' =>
    refine Covers.perm ?_ hl'.symm
    rcases h with h | h
    · exact union_covers (h.perm hl) r
    · exact absorb_covers (.inl (mem_rectUnion_right a h))
  | added hout hroom hl' => exact (absorb_covers h.symm).perm hl'.symm
  | merged a b m hl hfull hin hl' =>
    refine Covers.perm ?_ hl'.symm
    rcases h with h | h
    · exact merged_covers (h.perm hl)
    · exact absorb_covers (.inl (mem_of_rectContains hin h))
  | mergedAdded a b m hl hfull hout hapart hl' =>
    refine Covers.perm (covers_cons.mpr ?_) hl'.symm
    exact h.symm.imp_right fun h => merged_covers (h.perm hl)

theorem Marked.length_le (hmark : Marked l r l') (hle : l.length ≤ maxDirtyRegions) :
    l'.length ≤ maxDirtyRegions := by
  cases hmark with
  | skipped hr hl => exact hl ▸ hle
  | grown a m hl hcost hl' =>
    have := absorb_length (rectUnion a r) m
    have := hl.length_eq
    rw [hl'.length_eq]
    rw [length_cons] at *
    omega
  | added hout hroom hl' =>
    have := absorb_length r l
    rw [hl'.length_eq]
    omega
  | merged a b m hl hfull hin hl' | mergedAdded a b m hl hfull hout hapart hl' =>
    have := absorb_length (rectUnion a b) m
    have := hl.length_eq
    rw [hl'.length_eq]
    simp only [length_cons] at *
    omega

theorem dirtyRegionMark_covers (hle : l.length ≤ maxDirtyRegions) (h : Covers l p ∨ p ∈ r) :
    Covers (dirtyRegionMark l r) p := (dirtyRegionMark_marked hle r).covers h

theorem dirtyRegionMark_length (r : Rect) (hle : l.length ≤ maxDirtyRegions) :
    (dirtyRegionMark l r).length ≤ maxDirtyRegions := (dirtyRegionMark_marked hle r).length_le hle

/-! ### Histories of marks -/

/-- The regions after some marks: `box` is any rectangle around all of these. -/
structure Coalesced (box : Rect) (l : List Rect) : Prop where
  nonEmpty : ∀ q ∈ l, NonEmpty q
  inside : ∀ q ∈ l, rectContains box q = true
  apart : l.Pairwise Apart

theorem NonEmpty.union (h : NonEmpty a) (b : Rect) : NonEmpty (rectUnion a b) := by
  simp only [NonEmpty, rectUnion] at *
  omega

theorem Apart.symm (h : Apart a b) : Apart b a := ⟨h.2, h.1⟩

theorem Coalesced.perm (h : Coalesced box l) (hl : l'.Perm l) : Coalesced box l' where
  nonEmpty q hq := h.nonEmpty q (hl.mem_iff.mp hq)
  inside q hq := h.inside q (hl.mem_iff.mp hq)
  apart := (hl.pairwise_iff fun h => h.symm).mpr h.apart

theorem Coalesced.cons (h : Coalesced box l) (hc : NonEmpty c) (hbox : rectContains box c = true)
    (hout : ∀ q ∈ l, rectContains q c = false) :
    Coalesced box (absorb c l) := by
  have hsub : ∀ q ∈ l.filter (fun q => !rectContains c q), q ∈ l := fun q hq =>
    (mem_filter.mp hq).1
  refine ⟨?_, ?_, pairwise_cons.mpr ⟨fun q hq => ?_, h.apart.filter _⟩⟩
  · exact forall_mem_cons.mpr ⟨hc, fun q hq => h.nonEmpty q (hsub q hq)⟩
  · exact forall_mem_cons.mpr ⟨hbox, fun q hq => h.inside q (hsub q hq)⟩
  · exact ⟨by simpa using (mem_filter.mp hq).2, hout q (hsub q hq)⟩

theorem Coalesced.tail (h : Coalesced box (a :: m)) : Coalesced box m where
  nonEmpty q hq := h.nonEmpty q (.tail _ hq)
  inside q hq := h.inside q (.tail _ hq)
  apart := (pairwise_cons.mp h.apart).2

theorem Coalesced.grow (h : Coalesced box (a :: m)) (hb : rectContains box b = true) :
    Coalesced box (absorb (rectUnion a b) m) := by
  refine h.tail.cons ((h.nonEmpty a (.head _)).union b)
    ((rectContains_union _ _).mpr ⟨h.inside a (.head _), hb⟩) fun q hq => ?_
  refine Bool.eq_false_of_not_eq_true fun hin => ?_
  have hapart := (pairwise_cons.mp h.apart).1 q hq
  exact ne_true_of_eq_false hapart.2 ((rectContains_union _ _).mp hin).1

theorem Marked.coalesced (hmark : Marked l r l') (h : Coalesced box l) (hr : NonEmpty r)
    (hbox : rectContains box r = true) : Coalesced box l' := by
  -- the second region of a pair is one of those the merged one must keep off
  have hpair {a b : Rect} {m : List Rect} (hl : l.Perm (a :: b :: m)) :
      Coalesced box (absorb (rectUnion a b) m) := by
    have hb := (h.perm hl.symm).inside b (.tail _ (.head _))
    have hswap : Coalesced box (b :: a :: m) := (h.perm hl.symm).perm (.swap ..)
    exact hswap.tail.grow hb
  cases hmark with
  | skipped _ hl => exact hl ▸ h
  | grown a m hl hcost hl' => exact ((h.perm hl.symm).grow hbox).perm hl'
  | added hout hroom hl' => exact (h.cons hr hbox hout).perm hl'
  | merged a b m hl hfull hin hl' => exact (hpair hl).perm hl'
  | mergedAdded a b m hl hfull hout hapart hl' =>
    have hm := hpair hl
    have hapart := hapart h.nonEmpty
    have hall : ∀ q ∈ absorb (rectUnion a b) m, Apart r q := by
      intro q hq
      rcases mem_cons.mp hq with rfl | hq
      · refine ⟨Bool.eq_false_of_not_eq_true fun hin => ?_, hout⟩
        exact ne_true_of_eq_false (hapart a (hl.mem_iff.mpr (.head _))).1
          ((rectContains_union _ _).mp hin).1
      · refine hapart q (hl.mem_iff.mpr ?_)
        exact .tail _ (.tail _ (mem_filter.mp hq).1)
    refine Coalesced.perm ⟨?_, ?_, pairwise_cons.mpr ⟨hall, hm.apart⟩⟩ hl'
    · exact forall_mem_cons.mpr ⟨hr, hm.nonEmpty⟩
    · exact forall_mem_cons.mpr ⟨hbox, hm.inside⟩

/-- The pixels of all regions of a list, those in two of them counted twice. -/
def areaSum (l : List Rect) : Int := (l.map rectArea).sum

theorem areaSum_cons : areaSum (r :: l) = rectArea r + areaSum l := by
  simp [areaSum]

theorem areaSum_absorb_le (c : Rect) (l : List Rect) :
    areaSum (absorb c l) ≤ rectArea c + areaSum l := by
  rw [absorb, areaSum_cons]
  apply Int.add_le_add_left
  induction l with
  | nil => exact Int.le_refl _
  | cons q l ih =>
    have hq : 0 ≤ rectArea q := Int.natCast_nonneg _
    rw [filter_cons, areaSum_cons]
    split
    · rw [areaSum_cons]
      omega
    · omega

theorem areaSum_perm (h : l.Perm l') : areaSum l = areaSum l' := (h.map rectArea).sum_eq

theorem Marked.areaSum_le (hmark : Marked l r l') (hroom : l.length < maxDirtyRegions) :
    areaSum l' ≤ areaSum l + rectArea r := by
  have hr : 0 ≤ rectArea r := Int.natCast_nonneg _
  cases hmark with
  | skipped _ hl =>
    rw [hl]
    omega
  | grown a m hl hcost hl' =>
    have hgrow := hcost hroom
    have hkept := areaSum_absorb_le (rectUnion a r) m
    rw [areaSum_perm hl', areaSum_perm hl, areaSum_cons]
    unfold mergeInflation at hgrow
    omega
  | added hout hroom hl' =>
    have hkept := areaSum_absorb_le r l
    rw [areaSum_perm hl']
    omega
  | merged | mergedAdded => omega

def markAll (marks : List Rect) : List Rect := marks.foldl dirtyRegionMark []

theorem markAll_append (marks : List Rect) (r : Rect) :
    markAll (marks ++ [r]) = dirtyRegionMark (markAll marks) r := foldl_concat ..

theorem markAll_length (marks : List Rect) : (markAll marks).length ≤ maxDirtyRegions := by
  induction marks using reverseRecOn with
  | nil => exact Nat.zero_le _
  | append_singleton marks r ih =>
    rw [markAll_append]
    exact dirtyRegionMark_length r ih

theorem markAll_covers (marks : List Rect) : ∀ r ∈ marks, ∀ p ∈ r, Covers (markAll marks) p := by
  induction marks using reverseRecOn with
  | nil => exact fun r hr => absurd hr not_mem_nil
  | append_singleton marks r ih =>
    intro q hq p hp
    rw [markAll_append]
    apply dirtyRegionMark_covers (markAll_length marks)
    rcases mem_append.mp hq with hq | hq
    · exact .inl (ih q hq p hp)
    · exact .inr (mem_singleton.mp hq ▸ hp)

def boundingBox : List Rect → Rect
  | [] => ⟨0, 0, 0, 0⟩
  | r :: l => l.foldl rectUnion r

theorem boundingBox_contains (hr : r ∈ marks) : rectContains (boundingBox marks) r = true := by
  cases marks with
  | nil => exact absurd hr not_mem_nil
  | cons q l =>
    rw [boundingBox]
    induction l generalizing q r with
    | nil =>
      rw [mem_singleton.mp hr, foldl_nil, rectContains_iff]
      omega
    | cons x l ih =>
      rw [foldl_cons]
      have hfirst := (rectContains_union q x).mp (ih _ (.head _))
      rcases mem_cons.mp hr with rfl | hr
      · exact hfirst.1
      rcases mem_cons.mp hr with rfl | hr
      · exact hfirst.2
      · exact ih _ (.tail _ hr)

theorem markAll_coalesced (hne : ∀ r ∈ marks, NonEmpty r)
    (hbox : ∀ r ∈ marks, rectContains box r = true) : Coalesced box (markAll marks) := by
  induction marks using reverseRecOn with
  | nil => exact ⟨nofun, nofun, .nil⟩
  | append_singleton marks r ih =>
    rw [forall_mem_append, forall_mem_singleton] at hne hbox
    have hold := ih hne.1 hbox.1
    rw [markAll_append]
    exact (dirtyRegionMark_marked (markAll_length marks) r).coalesced hold hne.2 hbox.2

theorem markAll_areaSum_le
    (hroom : ∀ k < marks.length, (markAll (marks.take k)).length < maxDirtyRegions) :
    areaSum (markAll marks) ≤ areaSum marks := by
  induction marks using reverseRecOn with
  | nil => exact Int.le_refl _
  | append_singleton marks r ih =>
    have hnow := hroom marks.length (by simp)
    rw [take_left] at hnow
    have hold := ih fun k hk => by
      have := hroom k (by rw [length_append]; omega)
      rwa [take_append_of_le_length hk.le] at this
    have hstep := (dirtyRegionMark_marked hnow.le r).areaSum_le hnow
    rw [markAll_append, areaSum_perm (perm_append_singleton ..), areaSum_cons]
    omega

/-- Every history of marks on a cleared list: the regions stay within the
array, cover what was marked and nothing outside its bounding box, and none
lies inside another. While there was room for one more, merging never cost
area. -/
theorem dirty_regions_coalesced (marks : List Rect) (hne : ∀ r ∈ marks, NonEmpty r) :
    (markAll marks).length ≤ maxDirtyRegions ∧
    (∀ r ∈ marks, ∀ p ∈ r, Covers (markAll marks) p) ∧
    (∀ q ∈ markAll marks, rectContains (boundingBox marks) q = true) ∧
    (markAll marks).Pairwise Apart ∧
    ((∀ k < marks.length, (markAll (marks.take k)).length < maxDirtyRegions) →
      areaSum (markAll marks) ≤ areaSum marks) := by
  have hcoalesced := markAll_coalesced hne fun _ => boundingBox_contains
  exact ⟨markAll_length marks, markAll_covers marks, hcoalesced.inside, hcoalesced.apart,
    markAll_areaSum_le⟩

/-- Two rectangles side by side become one region. -/
theorem dirty_regions_coalesced_adjacent : markAll [⟨0, 0, 4, 4⟩, ⟨3, 0, 4, 4⟩] = [⟨0, 0, 7, 4⟩] ∧
      (markAll [⟨0, 0, 4, 4⟩, ⟨3, 0, 4, 4⟩]).Pairwise Apart :=
  ⟨by decide, (dirty_regions_coalesced [⟨0, 0, 4, 4⟩, ⟨3, 0, 4, 4⟩]
    (by simp [NonEmpty])).2.2.2.1⟩

end Kyuzen.Gfx
