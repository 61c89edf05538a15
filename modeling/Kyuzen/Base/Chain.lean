import Mathlib.Tactic

/-!
Linked lists whose nodes are held elsewhere: a pointer field is a map from
nodes to the next node, and a list of nodes represents what a walk along the
field visits. Singly linked chains come first, then doubly linked lists, each
with the pointer surgery that takes a node out or puts one in.
-/

namespace Kyuzen

open Function List

variable {α : Type}

/-- Walking along `next` from `p` visits `l` and stops at `q`. -/
def Seg (next : α → Option α) : Option α → List α → Option α → Prop
  | p, [], q => p = q
  | p, x :: xs, q => p = some x ∧ Seg next (next x) xs q

/-- Walking along `next` from `p` visits `l` and ends. -/
def Chain (next : α → Option α) (p : Option α) (l : List α) : Prop := Seg next p l none

/-- The nodes a walk visits, with a bound on its length. -/
def walk (next : α → Option α) : Nat → Option α → List α
  | 0, _ => []
  | _ + 1, none => []
  | fuel + 1, some x => x :: walk next fuel (next x)

namespace Seg

variable {next next' : α → Option α} {p q : Option α} {l l₁ l₂ : List α} {x : α}

theorem congr (h : Seg next p l q) (heq : ∀ y ∈ l, next' y = next y) : Seg next' p l q := by
  induction l generalizing p with
  | nil => exact h
  | cons y ys ih =>
    obtain ⟨hp, hys⟩ := h
    refine ⟨hp, ?_⟩
    rw [heq y (.head _)]
    exact ih hys fun z hz => heq z (.tail _ hz)

theorem append_iff : Seg next p (l₁ ++ l₂) q ↔ ∃ m, Seg next p l₁ m ∧ Seg next m l₂ q := by
  induction l₁ generalizing p with
  | nil => simp [Seg]
  | cons y ys ih =>
    simp only [cons_append, Seg, ih]
    constructor
    · rintro ⟨hp, m, hys, hl⟩
      exact ⟨m, ⟨hp, hys⟩, hl⟩
    · rintro ⟨m, ⟨hp, hys⟩, hl⟩
      exact ⟨hp, m, hys, hl⟩

end Seg

namespace Chain

variable {next next' : α → Option α} {p : Option α} {l l' l₁ l₂ : List α} {x : α}

theorem congr (h : Chain next p l) (heq : ∀ y ∈ l, next' y = next y) : Chain next' p l :=
  Seg.congr h heq

theorem head_eq (h : Chain next p l) : p = l.head? := by
  cases l with
  | nil => exact h
  | cons y ys => exact h.1

theorem split (h : Chain next p (l₁ ++ x :: l₂)) :
    Seg next p l₁ (some x) ∧ Chain next (next x) l₂ := by
  obtain ⟨m, hl₁, hm, hl₂⟩ := Seg.append_iff.mp h
  subst hm
  exact ⟨hl₁, hl₂⟩

theorem next_eq (h : Chain next p (l₁ ++ x :: l₂)) : next x = l₂.head? := h.split.2.head_eq

theorem walk_eq {fuel : Nat} (h : Chain next p l) (hfuel : l.length ≤ fuel) :
    walk next fuel p = l := by
  induction l generalizing p fuel with
  | nil =>
    obtain rfl : p = none := h
    cases fuel <;> rfl
  | cons y ys ih =>
    obtain ⟨rfl, hys⟩ := h
    cases fuel with
    | zero => simp at hfuel
    | succ fuel => rw [walk, ih hys (by simpa using hfuel)]

end Chain

theorem mem_without_iff {l₁ l₂ : List α} {x y : α} (h : (l₁ ++ x :: l₂).Nodup) :
    y ∈ l₁ ++ l₂ ↔ y ∈ l₁ ++ x :: l₂ ∧ y ≠ x := by
  have hx : x ∉ l₁ ++ l₂ := (nodup_middle.mp h).notMem
  constructor
  · intro hy
    refine ⟨?_, fun heq => hx (heq ▸ hy)⟩
    simp only [mem_append, mem_cons] at hy ⊢
    tauto
  · rintro ⟨hy, hne⟩
    simp only [mem_append, mem_cons] at hy ⊢
    tauto

theorem getLast?_ne_of_notMem {l : List α} {x : α} (hx : x ∉ l) : l.getLast? ≠ some x :=
  fun h => hx (mem_of_getLast? h)

/-- `next` and `prev` link the nodes of `l`, from `head` to `tail`. -/
structure DList (next prev : α → Option α) (head tail : Option α) (l : List α) : Prop where
  fwd : Chain next head l
  bwd : Chain prev tail l.reverse
  nodup : l.Nodup

namespace DList

variable {next prev : α → Option α} {head tail : Option α} {l l₁ l₂ : List α} {x : α}

theorem symm (h : DList next prev head tail l) : DList prev next tail head l.reverse where
  fwd := h.bwd
  bwd := by
    rw [reverse_reverse]
    exact h.fwd
  nodup := nodup_reverse.mpr h.nodup

section
variable (h : DList next prev head tail (l₁ ++ x :: l₂))
include h

theorem symm_split : DList prev next tail head (l₂.reverse ++ x :: l₁.reverse) := by
  have hsymm := h.symm
  rw [reverse_append, reverse_cons, append_assoc] at hsymm
  exact hsymm

theorem prev_eq : prev x = l₁.getLast? := by
  rw [h.symm_split.fwd.next_eq, head?_reverse]

end

end DList

section Surgery

variable [DecidableEq α]

theorem update_of_notMem {f : α → Option α} {l : List α} {x y : α} {v : Option α}
    (hx : x ∉ l) (hy : y ∈ l) : update f x v y = f y := by
  apply update_of_ne
  rintro rfl
  exact hx hy

/-- The C statement `if (p) p->f = v;`. -/
def setLink (f : α → Option α) (p : Option α) (v : Option α) : α → Option α :=
  match p with
  | some y => update f y v
  | none => f

@[simp] theorem setLink_none (f : α → Option α) (v : Option α) : setLink f none v = f := rfl

@[simp] theorem setLink_some (f : α → Option α) (y : α) (v : Option α) :
    setLink f (some y) v = update f y v := rfl

theorem setLink_of_ne {f : α → Option α} {p v : Option α} {x : α} (h : p ≠ some x) :
    setLink f p v x = f x := by
  cases p with
  | none => rfl
  | some y =>
    apply update_of_ne
    rintro rfl
    exact h rfl

variable {next prev : α → Option α} {p q q' head tail : Option α} {l l₁ l₂ : List α} {x : α}

/-- Redirecting the last node of a segment redirects the segment. An empty
segment is redirected by moving the pointer that starts it. -/
theorem Seg.retarget (h : Seg next p l q) (hnd : l.Nodup) :
    Seg (setLink next l.getLast? q') (if l.getLast?.isSome then p else q') l q' := by
  rcases eq_nil_or_concat l with rfl | ⟨ys, y, rfl⟩
  · exact rfl
  rw [concat_eq_append] at h hnd ⊢
  obtain ⟨m, hys, hm, -⟩ := Seg.append_iff.mp h
  have hy : y ∉ ys := by
    intro hmem
    exact (nodup_append.mp hnd).2.2 y hmem y (mem_singleton.mpr rfl) rfl
  simp only [getLast?_concat, setLink_some, Option.isSome_some, if_true]
  refine Seg.append_iff.mpr ⟨m, hys.congr fun z hz => ?_, hm, ?_⟩
  · exact update_of_notMem hy hz
  · exact update_self _ _ _

/-- Taking `x` out of a chain: its predecessor gets its successor. -/
theorem Chain.unlink (h : Chain next p (l₁ ++ x :: l₂)) (hnd : (l₁ ++ x :: l₂).Nodup) :
    Chain (setLink next l₁.getLast? (next x)) (if l₁.getLast?.isSome then p else next x)
      (l₁ ++ l₂) := by
  obtain ⟨hl₁, hl₂⟩ := h.split
  obtain ⟨hnd₁, -, hdis⟩ := nodup_append.mp hnd
  refine Seg.append_iff.mpr ⟨next x, hl₁.retarget hnd₁, hl₂.congr fun z hz => ?_⟩
  refine setLink_of_ne fun hlast => ?_
  exact hdis z (mem_of_getLast? hlast) z (.tail _ hz) rfl

theorem Chain.snoc (h : Chain next p l) (hnd : l.Nodup) (hx : x ∉ l) (hnext : next x = none) :
    Chain (setLink next l.getLast? (some x)) (if l.getLast?.isSome then p else some x)
      (l ++ [x]) := by
  refine Seg.append_iff.mpr ⟨some x, Seg.retarget h hnd, rfl, ?_⟩
  rw [setLink_of_ne (getLast?_ne_of_notMem hx)]
  exact hnext

namespace DList

section
variable (h : DList next prev head tail (l₁ ++ x :: l₂))
include h

theorem unlink_fwd : Chain (update (setLink next (prev x) (next x)) x none)
      (if (prev x).isSome then head else next x) (l₁ ++ l₂) := by
  have hx : x ∉ l₁ ++ l₂ := (nodup_middle.mp h.nodup).notMem
  rw [h.prev_eq]
  exact (h.fwd.unlink h.nodup).congr fun y hy => update_of_notMem hx hy

theorem unlink : DList (update (setLink next (prev x) (next x)) x none)
      (update (setLink prev (next x) (prev x)) x none)
      (if (prev x).isSome then head else next x) (if (next x).isSome then tail else prev x)
      (l₁ ++ l₂) where
  fwd := h.unlink_fwd
  bwd := by
    rw [reverse_append]
    exact h.symm_split.unlink_fwd
  nodup := (nodup_cons.mp (nodup_middle.mp h.nodup)).2

end

theorem pushFront (h : DList next prev head tail l) (hx : x ∉ l) :
    DList (update next x head) (setLink (update prev x none) head (some x))
      (some x) (if tail.isSome then tail else some x) (x :: l) where
  fwd := by
    refine ⟨rfl, ?_⟩
    rw [update_self]
    exact h.fwd.congr fun y hy => update_of_notMem hx hy
  bwd := by
    have hx' : x ∉ l.reverse := by simpa using hx
    have hchain : Chain (update prev x none) tail l.reverse :=
      h.bwd.congr fun y hy => update_of_notMem hx' hy
    have hsnoc := hchain.snoc (nodup_reverse.mpr h.nodup) hx' (update_self _ _ _)
    have htail : l.reverse.getLast?.isSome = tail.isSome := by
      rw [h.bwd.head_eq]
      cases l.reverse <;> simp
    rw [htail, getLast?_reverse, ← h.fwd.head_eq] at hsnoc
    rw [reverse_cons]
    exact hsnoc
  nodup := nodup_cons.mpr ⟨hx, h.nodup⟩

end DList

end Surgery

end Kyuzen
