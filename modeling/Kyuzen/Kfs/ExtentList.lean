import Kyuzen.Kfs.FileIo

/-!
The extent slots of an inode read as one list of extents, and the block-level
functions read as functions on that list. Everything here is about calls in
which no block access fails.
-/

namespace Kyuzen.Kfs

open List

variable {v : Vol} {inn : InodeMem} {fuel n : Nat} {l : List Extent}

/-! ## Lists of extents -/

def blocksOf (l : List Extent) : List Nat :=
  l.flatMap fun e => range' e.startBlock e.blockCount

@[simp] theorem blocksOf_nil : blocksOf [] = [] := rfl

@[simp] theorem blocksOf_cons (e : Extent) (l : List Extent) :
    blocksOf (e :: l) = range' e.startBlock e.blockCount ++ blocksOf l := rfl

/-- The list after `ext_append_nolock` of a run: the run goes to the first
extent that ends where it starts, and else behind the list. -/
def appendExtent : List Extent → Nat → Nat → List Extent
  | [], start, count => [⟨start, count⟩]
  | e :: l, start, count =>
    if e.stop = start then ⟨e.startBlock, e.blockCount + count⟩ :: l
    else e :: appendExtent l start count

/-- The run would be merged into an extent that is not the last one. -/
def mergesInside : List Extent → Nat → Bool
  | [], _ => false
  | e :: l, start => if e.stop = start then !l.isEmpty else mergesInside l start

/-- The first `k` blocks of an extent list, as an extent list. -/
def cutExtents : List Extent → Nat → List Extent
  | [], _ => []
  | e :: l, k =>
    if k = 0 then []
    else if k < e.blockCount then [⟨e.startBlock, k⟩]
    else e :: cutExtents l (k - e.blockCount)

@[simp] theorem cutExtents_zero (l : List Extent) : cutExtents l 0 = [] := by
  cases l <;> rfl

theorem blocksOf_appendExtent (l : List Extent) (start count : Nat)
    (h : mergesInside l start = false) :
    blocksOf (appendExtent l start count) = blocksOf l ++ range' start count := by
  induction l with
  | nil => simp [appendExtent]
  | cons e l ih =>
    rw [mergesInside] at h
    rw [appendExtent]
    split_ifs at h with hstop
    · have hl : l = [] := by simpa using h
      subst hl
      subst hstop
      simp [Extent.stop, range'_append_1]
    · rw [if_neg hstop, blocksOf_cons, ih h, blocksOf_cons, append_assoc]

theorem appendExtent_apart {start : Nat} (count : Nat) (h : ∀ e ∈ l, e.stop ≠ start) :
    appendExtent l start count = l ++ [⟨start, count⟩] := by
  induction l with
  | nil => rfl
  | cons e l ih =>
    rw [forall_mem_cons] at h
    rw [appendExtent, if_neg h.1, ih h.2, cons_append]

theorem blocksOf_appendExtent_perm (l : List Extent) (start count : Nat) :
    (blocksOf (appendExtent l start count)).Perm (blocksOf l ++ range' start count) := by
  induction l with
  | nil => simp [appendExtent]
  | cons e l ih =>
    rw [appendExtent]
    by_cases hstop : e.stop = start
    · subst hstop
      rw [if_pos rfl, blocksOf_cons, blocksOf_cons, Extent.stop, ← range'_append_1,
        append_assoc, append_assoc]
      exact Perm.append_left _ perm_append_comm
    · rw [if_neg hstop, blocksOf_cons, blocksOf_cons, append_assoc]
      exact Perm.append_left _ ih

theorem blocksOf_cutExtents (l : List Extent) (k : Nat) :
    blocksOf (cutExtents l k) = (blocksOf l).take k := by
  induction l generalizing k with
  | nil => simp [cutExtents]
  | cons e l ih =>
    rw [cutExtents]
    by_cases hz : k = 0
    · simp [hz]
    rw [if_neg hz]
    by_cases hlt : k < e.blockCount
    · rw [if_pos hlt, blocksOf_cons, blocksOf_cons, blocksOf_nil, append_nil,
        take_append_of_le_length (by simp; omega),
        take_range'_of_length_ge (by omega)]
    · rw [if_neg hlt, blocksOf_cons, blocksOf_cons, ih, take_append]
      congr 1
      · rw [take_of_length_le (by simp; omega)]
      · simp

/-! ## Slots -/

def slotAt (v : Vol) (inn : InodeMem) (n : Nat) : Extent :=
  if h : n < 4 then inn.direct ⟨n, h⟩
  else if inn.indirectExtentBlock = 0 then ⟨0, 0⟩
  else readExtent (v.disk inn.indirectExtentBlock) (n - 4)

theorem extGetNolock_eq (hio : ∀ b, v.env.io b = true) (hn : n < 345) :
    extGetNolock v inn n = .ok (slotAt v inn n) := by
  unfold extGetNolock slotAt bcacheRead
  by_cases h4 : n < 4
  · simp [h4]
  · have hk : ¬ n - 4 ≥ 341 := by omega
    by_cases hz : inn.indirectExtentBlock = 0
    · simp [h4, hk, hz]
    · simp [h4, hk, hz, hio]

/-- From slot `n` on, the slots hold the extents of `l` and then nothing. -/
def SlotsFrom (v : Vol) (inn : InodeMem) : Nat → List Extent → Prop
  | n, [] => ∀ m, n ≤ m → m < 345 → (slotAt v inn m).blockCount = 0
  | n, e :: l => n < 345 ∧ 0 < e.blockCount ∧ slotAt v inn n = e ∧ SlotsFrom v inn (n + 1) l

theorem SlotsFrom.pos (h : SlotsFrom v inn n l) : ∀ e ∈ l, 0 < e.blockCount := by
  induction l generalizing n with
  | nil => simp
  | cons e l ih =>
    intro x hx
    rcases mem_cons.mp hx with rfl | hx
    · exact h.2.1
    · exact ih h.2.2.2 x hx

theorem SlotsFrom.length_le (h : SlotsFrom v inn n l) (hn : n ≤ 345) : n + l.length ≤ 345 := by
  induction l generalizing n with
  | nil => simpa using hn
  | cons e l ih =>
    have hrest := ih h.2.2.2 h.1
    rw [length_cons]
    omega

/-- The fifth extent is in the indirect block. -/
theorem SlotsFrom.indirect_ne (h : SlotsFrom v inn n l) (hn : n ≤ 4) (hlen : 4 < n + l.length) :
    inn.indirectExtentBlock ≠ 0 := by
  induction l generalizing n with
  | nil => simp at hlen; omega
  | cons e l ih =>
    obtain ⟨-, hpos, hslot, hrest⟩ := h
    rcases Nat.lt_or_eq_of_le hn with hlt | rfl
    · exact ih hrest hlt (by rw [length_cons] at hlen; omega)
    · intro hz
      rw [slotAt, dif_neg (lt_irrefl 4), if_pos hz] at hslot
      rw [← hslot] at hpos
      exact lt_irrefl 0 hpos

theorem SlotsFrom.congr {v v' : Vol} {inn inn' : InodeMem} {n : Nat} {l : List Extent}
    (h : SlotsFrom v inn n l)
    (hsame : ∀ m, n ≤ m → m < 345 → slotAt v' inn' m = slotAt v inn m) :
    SlotsFrom v' inn' n l := by
  induction l generalizing n with
  | nil =>
    intro m hm hm'
    rw [hsame m hm hm']
    exact h m hm hm'
  | cons e l ih =>
    refine ⟨h.1, h.2.1, ?_, ih h.2.2.2 fun m hm => hsame m (by omega)⟩
    rw [hsame n le_rfl h.1]
    exact h.2.2.1

theorem SlotsFrom.congr_empty {v' : Vol} {inn' : InodeMem} (h : SlotsFrom v inn n l)
    (hsame : ∀ m, n ≤ m → m < 345 → slotAt v' inn' m = slotAt v inn m ∨
      ((slotAt v inn m).blockCount = 0 ∧ (slotAt v' inn' m).blockCount = 0)) :
    SlotsFrom v' inn' n l := by
  induction l generalizing n with
  | nil =>
    intro m hm hm'
    rcases hsame m hm hm' with heq | ⟨-, hzero⟩
    · rw [heq]
      exact h m hm hm'
    · exact hzero
  | cons e l ih =>
    obtain ⟨hn, hpos, hslot, hrest⟩ := h
    refine ⟨hn, hpos, ?_, ih hrest fun m hm => hsame m (by omega)⟩
    rcases hsame n le_rfl hn with heq | ⟨hzero, -⟩
    · rw [heq, hslot]
    · rw [hslot] at hzero
      omega

def extentsFrom (v : Vol) (inn : InodeMem) : Nat → Nat → List Extent
  | 0, _ => []
  | fuel + 1, n =>
    if (slotAt v inn n).blockCount = 0 then []
    else slotAt v inn n :: extentsFrom v inn fuel (n + 1)

def extentList (v : Vol) (inn : InodeMem) : List Extent := extentsFrom v inn 345 0

private theorem extentsFrom_eq (h : SlotsFrom v inn n l) (hfuel : n + fuel = 345) :
    extentsFrom v inn fuel n = l := by
  induction l generalizing n fuel with
  | nil =>
    cases fuel with
    | zero => rfl
    | succ fuel => rw [extentsFrom, if_pos (h n le_rfl (by omega))]
  | cons e l ih =>
    obtain ⟨hn, hpos, hslot, hrest⟩ := h
    obtain ⟨fuel, rfl⟩ : ∃ k, fuel = k + 1 := ⟨fuel - 1, by omega⟩
    rw [extentsFrom, hslot, if_neg (by omega), ih hrest (by omega)]

theorem SlotsFrom.extentList_eq (h : SlotsFrom v inn 0 l) :
    extentList v inn = l := extentsFrom_eq h (by omega)

/-! ## The scans as functions on the list -/

section
variable (hio : ∀ b, v.env.io b = true)
include hio

private theorem physLoop_nil {lb cursor : Nat} (h : SlotsFrom v inn n []) (hfuel : n + fuel = 345) :
    physLoop v inn lb fuel n cursor = none := by
  induction fuel generalizing n with
  | zero => rfl
  | succ fuel ih =>
    have hzero := h n le_rfl (by omega)
    rw [physLoop, extGetNolock_eq hio (by omega)]
    simp only [hzero, if_true]
    split
    · exact ih (fun m hm => h m (by omega)) (by omega)
    · rfl

private theorem physLoop_eq {lb cursor : Nat}
    (h : SlotsFrom v inn n l) (hfuel : n + fuel = 345) (hle : cursor ≤ lb) :
    physLoop v inn lb fuel n cursor = (blocksOf l)[lb - cursor]? := by
  induction l generalizing n fuel cursor with
  | nil => simpa using physLoop_nil hio h hfuel
  | cons e l ih =>
    obtain ⟨hn, hpos, hslot, hrest⟩ := h
    obtain ⟨fuel, rfl⟩ : ∃ k, fuel = k + 1 := ⟨fuel - 1, by omega⟩
    rw [physLoop, extGetNolock_eq hio hn, hslot, blocksOf_cons]
    simp only [Nat.pos_iff_ne_zero.mp hpos, if_false]
    by_cases hlt : lb < cursor + e.blockCount
    · rw [if_pos hlt, getElem?_append_left (by simp; omega), getElem?_range' (by omega)]
      simp
    · rw [if_neg hlt, ih hrest (by omega) (by omega),
        getElem?_append_right (by simp; omega)]
      congr 1
      simp
      omega

/-- The mapping of `kzfs_get_phys_block` is position in the list of blocks. -/
theorem kzfsGetPhysBlock_eq (h : SlotsFrom v inn 0 l) (lb : Nat) :
    kzfsGetPhysBlock v inn lb = (blocksOf l)[lb]? :=
  physLoop_eq hio h rfl (Nat.zero_le lb)

end

theorem coveredLoop_eq {v : Vol} {inn : InodeMem} {fuel n cursor : Nat} {l : List Extent}
    (hio : ∀ b, v.env.io b = true) (h : SlotsFrom v inn n l) (hfuel : n + fuel = 345) :
    coveredLoop v inn fuel n cursor = .ok (cursor + (blocksOf l).length) := by
  induction l generalizing n fuel cursor with
  | nil =>
    cases fuel with
    | zero => rfl
    | succ fuel =>
      rw [coveredLoop, extGetNolock_eq hio (by omega)]
      simp [h n le_rfl (by omega)]
  | cons e l ih =>
    obtain ⟨hn, hpos, hslot, hrest⟩ := h
    obtain ⟨fuel, rfl⟩ : ∃ k, fuel = k + 1 := ⟨fuel - 1, by omega⟩
    rw [coveredLoop, extGetNolock_eq hio hn, hslot]
    simp only [Nat.pos_iff_ne_zero.mp hpos, if_false]
    rw [ih hrest (by omega), blocksOf_cons, length_append, length_range', Nat.add_assoc]

end Kyuzen.Kfs
