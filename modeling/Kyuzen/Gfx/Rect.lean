import Mathlib.Tactic

/-!
Rectangles of `display.c` and the bounded lists of dirty regions, with the
pixels they cover.
-/

namespace Kyuzen.Gfx

open List

abbrev Point := Int × Int

structure Rect where
  x : Int
  y : Int
  width : Nat
  height : Nat
  deriving DecidableEq, Repr

namespace Rect

def Mem (r : Rect) (p : Point) : Prop :=
  r.x ≤ p.1 ∧ p.1 < r.x + r.width ∧ r.y ≤ p.2 ∧ p.2 < r.y + r.height

instance : Membership Point Rect := ⟨Mem⟩

theorem mem_def {r : Rect} {p : Point} :
    p ∈ r ↔ r.x ≤ p.1 ∧ p.1 < r.x + r.width ∧ r.y ≤ p.2 ∧ p.2 < r.y + r.height :=
  Iff.rfl

instance (r : Rect) (p : Point) : Decidable (p ∈ r) :=
  decidable_of_iff _ mem_def.symm

end Rect

def rectIntersect (a b : Rect) : Option Rect :=
  let x0 := max a.x b.x
  let y0 := max a.y b.y
  let x1 := min (a.x + a.width) (b.x + b.width)
  let y1 := min (a.y + a.height) (b.y + b.height)
  if x1 ≤ x0 ∨ y1 ≤ y0 then none else some ⟨x0, y0, (x1 - x0).toNat, (y1 - y0).toNat⟩

def rectUnion (a b : Rect) : Rect :=
  let x0 := min a.x b.x
  let y0 := min a.y b.y
  let x1 := max (a.x + a.width) (b.x + b.width)
  let y1 := max (a.y + a.height) (b.y + b.height)
  ⟨x0, y0, (x1 - x0).toNat, (y1 - y0).toNat⟩

/-- `rect_contains`, and `rect_covers` of the compositor. -/
def rectContains (outer inner : Rect) : Bool :=
  decide (outer.x ≤ inner.x ∧ outer.y ≤ inner.y ∧
    inner.x + inner.width ≤ outer.x + outer.width ∧
    inner.y + inner.height ≤ outer.y + outer.height)

variable {a b c r cover : Rect} {p : Point} {l : List Rect} {i j keep : Nat}

theorem mem_rectIntersect (h : rectIntersect a b = some c) : p ∈ c ↔ p ∈ a ∧ p ∈ b := by
  unfold rectIntersect at h
  dsimp only at h
  split at h
  · exact nomatch h
  next hgo =>
    obtain rfl := Option.some.inj h
    simp only [Rect.mem_def]
    omega

theorem not_mem_of_rectIntersect (h : rectIntersect a b = none) (ha : p ∈ a) : p ∉ b := by
  unfold rectIntersect at h
  dsimp only at h
  split at h
  next hno =>
    simp only [Rect.mem_def] at ha ⊢
    omega
  · exact nomatch h

theorem mem_rectUnion_left (b : Rect) (ha : p ∈ a) : p ∈ rectUnion a b := by
  simp only [Rect.mem_def, rectUnion] at ha ⊢
  omega

theorem mem_rectUnion_right (a : Rect) (hb : p ∈ b) : p ∈ rectUnion a b := by
  simp only [Rect.mem_def, rectUnion] at hb ⊢
  omega

theorem mem_of_rectContains (h : rectContains a b = true) (hb : p ∈ b) : p ∈ a := by
  have h := of_decide_eq_true h
  simp only [Rect.mem_def] at hb ⊢
  omega

def Covers (l : List Rect) (p : Point) : Prop := ∃ r ∈ l, p ∈ r

theorem covers_nil : ¬ Covers [] p := fun ⟨_, h, _⟩ => not_mem_nil h

theorem covers_cons : Covers (r :: l) p ↔ p ∈ r ∨ Covers l p := by
  simp [Covers]

theorem covers_append {l' : List Rect} : Covers (l ++ l') p ↔ Covers l p ∨ Covers l' p := by
  simp only [Covers, mem_append, or_and_right, exists_or]

/-! ### Dirty regions -/

def maxDirtyRegions : Nat := 64

def rectArea (r : Rect) : Int := (r.width * r.height : Nat)

def mergeInflation (a b : Rect) : Int := rectArea (rectUnion a b) - rectArea a - rectArea b

/-- The loop of `dirty_drop_contained` from index `j` on. -/
def dropContainedFrom (cover : Rect) (keep : Nat) : Nat → List Rect → List Rect
  | _, [] => []
  | j, r :: l =>
    if j ≠ keep ∧ rectContains cover r = true then dropContainedFrom cover keep (j + 1) l
    else r :: dropContainedFrom cover keep (j + 1) l

def dirtyDropContained (l : List Rect) (cover : Rect) (keep : Nat) : List Rect :=
  dropContainedFrom cover keep 0 l

/-- The region a new rectangle is merged into at the least cost, of those that meet it. -/
def mergeTarget (l : List Rect) (r : Rect) : Option (Nat × Int) :=
  l.zipIdx.foldl (fun m (q, i) =>
    if rectIntersect q r = none then m
    else
      match m with
      | none => some (i, mergeInflation q r)
      | some (_, cost) => if mergeInflation q r < cost then some (i, mergeInflation q r) else m) none

theorem mergeTarget_concat (l : List Rect) (x r : Rect) : mergeTarget (l ++ [x]) r =
    if rectIntersect x r = none then mergeTarget l r
    else
      match mergeTarget l r with
      | none => some (l.length, mergeInflation x r)
      | some (_, cost) =>
        if mergeInflation x r < cost then some (l.length, mergeInflation x r)
        else mergeTarget l r := by
  rw [mergeTarget, zipIdx_append, foldl_append, zero_add]
  rfl

def cheapest {α : Type} (cost : α → Int) (first : α) (l : List α) : α :=
  l.foldl (fun best c => if cost c < cost best then c else best) first

/-- The pairs `i < j < n`, in the order of the double loop. -/
def pairs (n : Nat) : List (Nat × Nat) :=
  (range n).flatMap fun i => (range' (i + 1) (n - (i + 1))).map fun j => (i, j)

/-- `regions[i]` -/
def regionAt (l : List Rect) (i : Nat) : Rect := l.getD i ⟨0, 0, 0, 0⟩

/-- The end of `dirty_region_mark` for a full list. -/
def markFull (l : List Rect) (r : Rect) : List Rect :=
  let best := cheapest (fun i => mergeInflation (regionAt l i) r) 0 (range' 1 (l.length - 1))
  let bestCost := mergeInflation (regionAt l best) r
  let pair := cheapest (fun (i, j) => mergeInflation (regionAt l i) (regionAt l j)) (0, 1)
    (pairs l.length)
  let pairCost := mergeInflation (regionAt l pair.1) (regionAt l pair.2)
  if bestCost ≤ pairCost then
    let cover := rectUnion (regionAt l best) r
    dirtyDropContained (l.set best cover) cover best
  else
    let cover := rectUnion (regionAt l pair.1) (regionAt l pair.2)
    let l' := (l.set pair.1 cover).eraseIdx pair.2
    let keep := if pair.2 < pair.1 then pair.1 - 1 else pair.1
    let l'' := dirtyDropContained l' cover keep
    if l''.length < maxDirtyRegions ∧ rectContains cover r = false then l'' ++ [r] else l''

def dirtyRegionMark (l : List Rect) (r : Rect) : List Rect :=
  if r.width = 0 ∨ r.height = 0 then l
  else if l.any (rectContains · r) = true then l
  else
    match mergeTarget l r with
    | some (m, cost) =>
      if cost ≤ 0 then
        let cover := rectUnion (regionAt l m) r
        dirtyDropContained (l.set m cover) cover m
      else if l.length < maxDirtyRegions then l.filter (fun q => !rectContains r q) ++ [r]
      else markFull l r
    | none =>
      if l.length < maxDirtyRegions then l.filter (fun q => !rectContains r q) ++ [r]
      else markFull l r

end Kyuzen.Gfx
