import Kyuzen.Base.Run

/-!
The kernel heap of `heap.c`: a list of blocks, each with a header in front, that
grows by whole pages. A block is known by the address of its header; the list is
in the order of the `next` pointers. Only the functions here write headers, so
the magic number is always there. The frames behind the pages are not followed.
-/

namespace Kyuzen.Mm

open List

structure HeapBlock where
  addr : Nat
  size : Nat
  isFree : Bool
  deriving DecidableEq, Repr

/-- `heap_head` and `current_heap_end`. -/
structure Heap where
  blocks : List HeapBlock
  heapEnd : Nat
  deriving DecidableEq, Repr

def heapStartVaddr : Nat := 0xFFFF900000000000

/-- `sizeof(heap_block_t)`. -/
def headerSize : Nat := 32

/-- `(size + 15) & ~15`, in 64 bits. -/
def align16 (size : Nat) : Nat := (size + 15) % 2 ^ 64 / 16 * 16

/-- The loop that maps pages at the end of the heap. `ok` has the results of
`vmm_alloc_page_kernel` to come; an empty list is memory that has run out. -/
def mapPages : Nat → List Bool → Bool × List Bool
  | 0, ok => (true, ok)
  | _ + 1, [] => (false, [])
  | n + 1, mapped :: ok => if mapped then mapPages n ok else (false, ok)

def pagesFor (required : Nat) : Nat :=
  let total := (required + headerSize) % 2 ^ 64
  total / 4096 + if total % 4096 ≠ 0 then 1 else 0

/-- `expand_heap`; after a failure the pages are unmapped again. -/
def expandHeap (required : Nat) (ok : List Bool) (h : Heap) : Bool × Heap × List Bool :=
  let pages := pagesFor required
  match mapPages pages ok with
  | (false, ok) => (false, h, ok)
  | (true, ok) =>
    (true,
      { blocks := h.blocks ++
          [⟨h.heapEnd, (pages * 4096 + 2 ^ 64 - headerSize) % 2 ^ 64, true⟩]
        heapEnd := (h.heapEnd + pages * 4096) % 2 ^ 64 }, ok)

/-- The first-fit scan of `kmalloc`, with the split. -/
def takeFit (size : Nat) : List HeapBlock → Option (Nat × List HeapBlock)
  | [] => none
  | b :: rest =>
    if b.isFree ∧ b.size ≥ size then
      if b.size > (size + headerSize + 1) % 2 ^ 64 then
        some (b.addr + headerSize,
          {b with size := size, isFree := false} ::
            ⟨(b.addr + headerSize + size) % 2 ^ 64,
              (b.size + 2 ^ 65 - size - headerSize) % 2 ^ 64, true⟩ :: rest)
      else some (b.addr + headerSize, {b with isFree := false} :: rest)
    else (takeFit size rest).map fun r => (r.1, b :: r.2)

/-- `kmalloc`, in at most `fuel` nested calls. -/
def kmallocFuel : Nat → Nat → List Bool → Heap → Option (Option Nat × Heap × List Bool)
  | 0, _, _, _ => none
  | fuel + 1, size, ok, h =>
    if size = 0 then some (none, h, ok)
    else
      match takeFit (align16 size) h.blocks with
      | some (ptr, blocks) => some (some ptr, {h with blocks := blocks}, ok)
      | none =>
        match expandHeap (align16 size) ok h with
        | (false, h, ok) => some (none, h, ok)
        | (true, h, ok) => kmallocFuel fuel (align16 size) ok h

/-- Each nested call but the last maps a page. -/
def kmalloc (size : Nat) (ok : List Bool) (h : Heap) : Option (Option Nat × Heap × List Bool) :=
  kmallocFuel (ok.length + 2) size ok h

/-- The loop of `kfree` over the list, from the block `b` on. -/
def coalesceFrom (b : HeapBlock) : List HeapBlock → List HeapBlock
  | [] => [b]
  | c :: rest =>
    if b.isFree ∧ c.isFree ∧ c.addr = (b.addr + headerSize + b.size) % 2 ^ 64 then
      coalesceFrom {b with size := (b.size + c.size + headerSize) % 2 ^ 64} rest
    else b :: coalesceFrom c rest

def coalesce : List HeapBlock → List HeapBlock
  | [] => []
  | b :: rest => coalesceFrom b rest

/-- `block->is_free = 1` for the block in front of `ptr`. -/
def markFree (ptr : Nat) (b : HeapBlock) : HeapBlock :=
  if b.addr + headerSize = ptr then {b with isFree := true} else b

/-- `kfree` of a pointer that is not NULL. -/
def kfree (ptr : Nat) (h : Heap) : Heap :=
  {h with blocks := coalesce (h.blocks.map (markFree ptr))}

/-- `krealloc`; `ptr` is `none` for NULL. The copy does not touch headers. -/
def krealloc (ptr : Option Nat) (newSize : Nat) (ok : List Bool) (h : Heap) :
    Option (Option Nat × Heap × List Bool) :=
  if newSize = 0 then some (none, ptr.elim h fun ptr => kfree ptr h, ok)
  else
    match ptr with
    | none => kmalloc newSize ok h
    | some ptr =>
      match kmalloc newSize ok h with
      | none => none
      | some (none, h, ok) => some (none, h, ok)
      | some (some newPtr, h, ok) => some (some newPtr, kfree ptr h, ok)

/-! ### Tilings -/

/-- The blocks cover the addresses from `start` to `stop`, in order and without
gaps. -/
def Tiles : Nat → Nat → List HeapBlock → Prop
  | start, stop, [] => start = stop
  | start, stop, b :: rest => b.addr = start ∧ Tiles (start + headerSize + b.size) stop rest

section
variable {start mid stop size : Nat} {l l' : List HeapBlock} {b : HeapBlock}

theorem Tiles.le (h : Tiles start stop l) : start ≤ stop := by
  induction l generalizing start with
  | nil => exact h.le
  | cons b rest ih =>
    have := ih h.2
    omega

theorem Tiles.append (h : Tiles start mid l) (h' : Tiles mid stop l') : Tiles start stop (l ++ l') := by
  induction l generalizing start with
  | nil =>
    rw [show start = mid from h]
    exact h'
  | cons b rest ih => exact ⟨h.1, ih h.2⟩

section
variable (h : Tiles start stop l)
include h

theorem Tiles.within (hb : b ∈ l) : start ≤ b.addr ∧ b.addr + headerSize + b.size ≤ stop := by
  induction l generalizing start with
  | nil => cases hb
  | cons c rest ih =>
    rcases mem_cons.mp hb with rfl | hb
    · have := h.2.le
      have haddr := h.1
      omega
    · have := ih h.2 hb
      omega

theorem Tiles.apart : l.Pairwise fun a b => a.addr + headerSize + a.size ≤ b.addr := by
  induction l generalizing start with
  | nil => exact .nil
  | cons b rest ih =>
    refine pairwise_cons.mpr ⟨fun c hc => ?_, ih h.2⟩
    rw [h.1]
    exact (h.2.within hc).1

theorem Tiles.disjoint {c : HeapBlock} (hb : b ∈ l) (hc : c ∈ l)
    (hne : b ≠ c) : b.addr + headerSize + b.size ≤ c.addr ∨ c.addr + headerSize + c.size ≤ b.addr := by
  induction l generalizing start with
  | nil => cases hb
  | cons d rest ih =>
    have hhead := h.1
    rcases mem_cons.mp hb with rfl | hb' <;> rcases mem_cons.mp hc with rfl | hc'
    · exact absurd rfl hne
    · have := (h.2.within hc').1
      omega
    · have := (h.2.within hb').1
      omega
    · exact ih h.2 hb' hc'

theorem Tiles.unique {c : HeapBlock} (hb : b ∈ l) (hc : c ∈ l)
    (haddr : b.addr = c.addr) : b = c := by
  by_contra hne
  have hapart := h.disjoint hb hc hne
  rw [headerSize] at hapart
  omega

end

/-! ### Allocation -/

structure TakesFit (start stop size ptr : Nat) (l l' : List HeapBlock) : Prop where
  tiles : Tiles start stop l'
  taken : ∃ b ∈ l', b.isFree = false ∧ b.addr + headerSize = ptr ∧ size ≤ b.size
  wasFree : ∃ b ∈ l, b.isFree = true ∧ b.addr + headerSize = ptr
  kept : ∀ c ∈ l, c.isFree = false → c ∈ l'

theorem takeFit_spec {ptr : Nat} (hl : Tiles start stop l) (hstop : stop < 2 ^ 64)
    (hsize : size + headerSize + 1 < 2 ^ 64) (h : takeFit size l = some (ptr, l')) :
    TakesFit start stop size ptr l l' := by
  induction l generalizing start l' with
  | nil => cases h
  | cons b rest ih =>
    rw [takeFit] at h
    have hbound := hl.within (.head _)
    split at h
    next hfit =>
      have hkept : ∀ c ∈ b :: rest, c.isFree = false → c ∈ rest := fun c hc hlive => by
        rcases mem_cons.mp hc with rfl | hc
        · exact nomatch hfit.1.symm.trans hlive
        · exact hc
      split at h
      next hsplit =>
        rw [Nat.mod_eq_of_lt hsize] at hsplit
        simp only [headerSize] at hbound hsplit hsize
        have haddr : (b.addr + headerSize + size) % 2 ^ 64 = b.addr + headerSize + size := by
          rw [headerSize]
          omega
        have hrest : (b.size + 2 ^ 65 - size - headerSize) % 2 ^ 64 = b.size - size - headerSize := by
          rw [headerSize]
          omega
        rw [haddr, hrest] at h
        obtain ⟨rfl, rfl⟩ := h
        have htail := hl.2
        have hend : start + headerSize + size + headerSize + (b.size - size - headerSize) =
            start + headerSize + b.size := by
          simp only [headerSize]
          omega
        refine ⟨⟨hl.1, by rw [hl.1], by rw [hend]; exact htail⟩,
          ⟨_, (.head _), rfl, rfl, le_rfl⟩, ⟨b, (.head _), hfit.1, rfl⟩,
          fun c hc hlive => ?_⟩
        exact .tail _ (.tail _ (hkept c hc hlive))
      · obtain ⟨rfl, rfl⟩ := h
        exact ⟨⟨hl.1, hl.2⟩, ⟨_, (.head _), rfl, rfl, hfit.2⟩, ⟨b, (.head _), hfit.1, rfl⟩,
          fun c hc hlive => mem_cons_of_mem _ (hkept c hc hlive)⟩
    · obtain ⟨⟨ptr', rest'⟩, hrest, heq⟩ := Option.map_eq_some_iff.mp h
      obtain ⟨rfl, rfl⟩ := heq
      obtain ⟨htiles, ⟨c, hc, hlive⟩, ⟨d, hd, hfree⟩, hkept⟩ := ih hl.2 hrest
      refine ⟨⟨hl.1, htiles⟩, ⟨c, mem_cons_of_mem _ hc, hlive⟩,
        ⟨d, mem_cons_of_mem _ hd, hfree⟩, fun e he hlive => ?_⟩
      rcases mem_cons.mp he with rfl | he
      · exact .head _
      · exact .tail _ (hkept e he hlive)

theorem takeFit_concat (h : takeFit size l = none) (hfree : b.isFree = true) (hfit : size ≤ b.size) :
    ∃ ptr l', takeFit size (l ++ [b]) = some (ptr, l') := by
  induction l with
  | nil =>
    rw [nil_append, takeFit, if_pos ⟨hfree, hfit⟩]
    split
    · exact ⟨_, _, rfl⟩
    · exact ⟨_, _, rfl⟩
  | cons c rest ih =>
    rw [takeFit] at h
    split at h
    · split at h <;> cases h
    next hno =>
      obtain ⟨ptr, l', hrest⟩ := ih (Option.map_eq_none_iff.mp h)
      refine ⟨ptr, c :: l', ?_⟩
      rw [cons_append, takeFit, if_neg hno, hrest]
      rfl

theorem mapPages_le {n : Nat} {ok ok' : List Bool} (h : mapPages n ok = (true, ok')) :
    n ≤ ok.length := by
  induction n generalizing ok with
  | zero => exact Nat.zero_le _
  | succ n ih =>
    cases ok with
    | nil => cases h
    | cons mapped ok =>
      rw [mapPages] at h
      split at h
      · exact Nat.succ_le_succ (ih h)
      · cases h

theorem align16_spec (hsize : size + 48 ≤ 2 ^ 64) : size ≤ align16 size ∧
    align16 size + headerSize + 1 < 2 ^ 64 ∧ align16 (align16 size) = align16 size := by
  rw [align16, align16, headerSize]
  omega

/-- A request that does not wrap: the pages hold the block and its header. -/
theorem pagesFor_spec (hsize : size + headerSize < 2 ^ 64) :
    size + headerSize ≤ pagesFor size * 4096 := by
  rw [pagesFor, Nat.mod_eq_of_lt hsize]
  split <;> omega

/-- `expand_heap` fails and changes nothing, or adds one free block up to the
new end. -/
theorem expandHeap_spec {h : Heap} {ok : List Bool} (size : Nat) (hsize : size + headerSize < 2 ^ 64)
    (hroom : h.heapEnd + 4096 * ok.length < 2 ^ 64) :
    (∃ ok', expandHeap size ok h = (false, h, ok')) ∨
      ∃ stop ok', h.heapEnd + headerSize + size ≤ stop ∧ stop < 2 ^ 64 ∧ expandHeap size ok h =
          (true, ⟨h.blocks ++ [⟨h.heapEnd, stop - h.heapEnd - headerSize, true⟩], stop⟩, ok') := by
  unfold expandHeap
  dsimp only
  rcases hpages : mapPages (pagesFor size) ok with ⟨_ | _, ok'⟩
  · exact .inl ⟨ok', rfl⟩
  have hcount := mapPages_le hpages
  have hneed := pagesFor_spec hsize
  have hblock : (pagesFor size * 4096 + 2 ^ 64 - headerSize) % 2 ^ 64 =
      h.heapEnd + pagesFor size * 4096 - h.heapEnd - headerSize := by
    rw [headerSize] at hneed ⊢
    omega
  have hstop : (h.heapEnd + pagesFor size * 4096) % 2 ^ 64 =
      h.heapEnd + pagesFor size * 4096 := by omega
  refine .inr ⟨h.heapEnd + pagesFor size * 4096, ok', by omega, by omega, ?_⟩
  rw [hblock, hstop]

/-! ### Release -/

def Merged (l : List HeapBlock) : Prop := l.IsChain fun a b => ¬ (a.isFree = true ∧ b.isFree = true)

theorem coalesceFrom_head (b : HeapBlock) (l : List HeapBlock) :
    ∃ c rest, coalesceFrom b l = c :: rest ∧ c.isFree = b.isFree := by
  induction l generalizing b with
  | nil => exact ⟨b, [], rfl, rfl⟩
  | cons c rest ih =>
    rw [coalesceFrom]
    split
    · exact ih _
    · exact ⟨b, _, rfl, rfl⟩

theorem coalesceFrom_spec (hl : Tiles start stop (b :: l)) (hstop : stop < 2 ^ 64) :
    Tiles start stop (coalesceFrom b l) ∧ Merged (coalesceFrom b l) ∧
      ∀ c ∈ b :: l, c.isFree = false → c ∈ coalesceFrom b l := by
  induction l generalizing b start with
  | nil => exact ⟨hl, .singleton b, fun c hc _ => hc⟩
  | cons c rest ih =>
    have hc := hl.within (.tail _ (.head _))
    have hb := hl.within (.head _)
    rw [headerSize] at hc hb
    rw [coalesceFrom]
    split
    next hmerge =>
      have hsize : (b.size + c.size + headerSize) % 2 ^ 64 = b.size + c.size + headerSize := by
        have haddr := hl.2.1
        rw [headerSize] at haddr ⊢
        omega
      have hend : start + headerSize + (b.size + c.size + headerSize) =
          start + headerSize + b.size + headerSize + c.size := by omega
      have hmerged : Tiles start stop ({b with size := b.size + c.size + headerSize} :: rest) :=
        ⟨hl.1, by rw [hend]; exact hl.2.2⟩
      rw [hsize]
      obtain ⟨htiles, hchain, hkept⟩ := ih hmerged
      refine ⟨htiles, hchain, fun d hd hlive => ?_⟩
      rcases mem_cons.mp hd with rfl | hd
      · exact nomatch hmerge.1.symm.trans hlive
      · rcases mem_cons.mp hd with rfl | hd
        · exact nomatch hmerge.2.1.symm.trans hlive
        · exact hkept d (.tail _ hd) hlive
    next hapart =>
      obtain ⟨htiles, hchain, hkept⟩ := ih hl.2
      refine ⟨⟨hl.1, htiles⟩, ?_, fun d hd hlive => ?_⟩
      · obtain ⟨d, rest', heq, hfree⟩ := coalesceFrom_head c rest
        rw [heq] at hchain ⊢
        refine isChain_cons_cons.mpr ⟨fun hboth => hapart ?_, hchain⟩
        refine ⟨hboth.1, hfree ▸ hboth.2, ?_⟩
        have haddr := hl.2.1
        have hstart := hl.1
        rw [headerSize] at haddr ⊢
        omega
      · rcases mem_cons.mp hd with rfl | hd
        · exact .head _
        · exact .tail _ (hkept d hd hlive)

theorem coalesce_spec (hl : Tiles start stop l) (hstop : stop < 2 ^ 64) :
    Tiles start stop (coalesce l) ∧ Merged (coalesce l) ∧
      ∀ c ∈ l, c.isFree = false → c ∈ coalesce l := by
  cases l with
  | nil => exact ⟨hl, .nil, fun _ hc _ => hc⟩
  | cons b rest => exact coalesceFrom_spec hl hstop

theorem Tiles.markFree (ptr : Nat) (hl : Tiles start stop l) :
    Tiles start stop (l.map (markFree ptr)) := by
  induction l generalizing start with
  | nil => exact hl
  | cons b rest ih =>
    have hsame : (Mm.markFree ptr b).addr = b.addr ∧ (Mm.markFree ptr b).size = b.size := by
      unfold Mm.markFree
      split <;> exact ⟨rfl, rfl⟩
    refine ⟨hsame.1.trans hl.1, ?_⟩
    rw [hsame.2]
    exact ih hl.2

end

/-! ### Runs -/

/-- The heap with the live allocations: pointers with the sizes asked for. -/
structure HeapState where
  heap : Heap
  live : List (Nat × Nat)
  deriving DecidableEq, Repr

def HeapState.init : HeapState := ⟨⟨[], heapStartVaddr⟩, []⟩

/-- The calls, with the results of `vmm_alloc_page_kernel` that each will see. -/
inductive HeapOp where
  | kmalloc (size : Nat) (ok : List Bool)
  | kfree (ptr : Nat)
  | krealloc (ptr : Option Nat) (newSize : Nat) (ok : List Bool)
  deriving DecidableEq, Repr

namespace HeapState

def gain (s : HeapState) (ptr : Option Nat) (size : Nat) : HeapState :=
  ptr.elim s fun ptr => {s with live := (ptr, size) :: s.live}

def lose (s : HeapState) (ptr : Option Nat) : HeapState :=
  ptr.elim s fun ptr => {s with live := s.live.filter fun a => a.1 ≠ ptr}

/-- A call and its result; a failed `krealloc` leaves the old pointer alive. -/
def exec (s : HeapState) : HeapOp → Option (Option Nat × HeapState)
  | .kmalloc size ok =>
    (Mm.kmalloc size ok s.heap).map fun r => (r.1, {s with heap := r.2.1}.gain r.1 size)
  | .kfree ptr => some (none, {s with heap := Mm.kfree ptr s.heap}.lose (some ptr))
  | .krealloc ptr newSize ok =>
    (Mm.krealloc ptr newSize ok s.heap).map fun r =>
      (r.1, if newSize = 0 ∨ r.1.isSome then ({s with heap := r.2.1}.lose ptr).gain r.1 newSize
        else {s with heap := r.2.1})

/-- The list tiles the heap, and every live allocation has a block of its own. -/
structure Inv (s : HeapState) : Prop where
  tiles : Tiles heapStartVaddr s.heap.heapEnd s.heap.blocks
  top : s.heap.heapEnd < 2 ^ 64
  nodup : (s.live.map Prod.fst).Nodup
  backed : ∀ a ∈ s.live, ∃ b ∈ s.heap.blocks,
    b.isFree = false ∧ b.addr + headerSize = a.1 ∧ a.2 ≤ b.size

/-- A request that does not wrap in the size arithmetic, on a machine whose
memory fits behind the heap. -/
def Fits (s : HeapState) (size : Nat) (ok : List Bool) : Prop :=
  size + 48 ≤ 2 ^ 64 ∧ s.heap.heapEnd + 4096 * ok.length < 2 ^ 64

end HeapState

open HeapState

structure Allocated (h : Heap) (size ptr : Nat) (h' : Heap) : Prop where
  tiles : Tiles heapStartVaddr h'.heapEnd h'.blocks
  top : h'.heapEnd < 2 ^ 64
  taken : ∃ b ∈ h'.blocks, b.isFree = false ∧ b.addr + headerSize = ptr ∧ size ≤ b.size
  fresh : ∀ b ∈ h.blocks, b.isFree = false → b.addr + headerSize ≠ ptr
  kept : ∀ c ∈ h.blocks, c.isFree = false → c ∈ h'.blocks

theorem TakesFit.fresh {start stop size ptr : Nat} {l l' : List HeapBlock} (hl : Tiles start stop l)
    (h : TakesFit start stop size ptr l l') :
    ∀ b ∈ l, b.isFree = false → b.addr + headerSize ≠ ptr := by
  intro b hb hlive heq
  obtain ⟨c, hc, hfree, hptr⟩ := h.wasFree
  have hsame := hl.unique hb hc (by omega)
  rw [hsame, hfree] at hlive
  cases hlive

theorem kmalloc_spec {s : HeapState} {size : Nat} {ok : List Bool} (hs : s.Inv)
    (hfits : s.Fits size ok) (hpos : size ≠ 0) :
    ∃ r h' ok', kmalloc size ok s.heap = some (r, h', ok') ∧
      (r = none ∧ h' = s.heap ∨ ∃ ptr, r = some ptr ∧ Allocated s.heap size ptr h') := by
  obtain ⟨hle, hbound, hidem⟩ := align16_spec hfits.1
  rw [kmalloc, kmallocFuel, if_neg hpos]
  rcases htake : takeFit (align16 size) s.heap.blocks with _ | ⟨ptr, blocks⟩
  · rcases expandHeap_spec (align16 size) (by omega) hfits.2 with
      ⟨ok', hfail⟩ | ⟨stop, ok', hroom, hstop, hgrow⟩
    · rw [hfail]
      exact ⟨none, _, _, rfl, Or.inl ⟨rfl, rfl⟩⟩
    · -- the new block is the last one, and the first that fits
      obtain ⟨ptr, blocks, hnew⟩ := takeFit_concat
        (b := ⟨s.heap.heapEnd, stop - s.heap.heapEnd - headerSize, true⟩) htake rfl
        (by change _ ≤ _ - _; omega)
      have htiles : Tiles heapStartVaddr stop
          (s.heap.blocks ++ [⟨s.heap.heapEnd, stop - s.heap.heapEnd - headerSize, true⟩]) := by
        refine hs.tiles.append ⟨rfl, ?_⟩
        change _ + _ + (_ - _) = _
        omega
      have hspec := takeFit_spec htiles hstop hbound hnew
      have hnz : align16 size ≠ 0 := by omega
      have hnext : kmallocFuel (ok.length + 1) (align16 size) ok'
          ⟨s.heap.blocks ++ [⟨s.heap.heapEnd, stop - s.heap.heapEnd - headerSize, true⟩], stop⟩ =
          some (some ptr, ⟨blocks, stop⟩, ok') := by
        rw [kmallocFuel, if_neg hnz, hidem, hnew]
      rw [hgrow]
      refine ⟨some ptr, ⟨blocks, stop⟩, ok', hnext, Or.inr ⟨ptr, rfl, hspec.tiles, hstop, ?_,
        fun b hb => ?_, fun c hc => ?_⟩⟩
      · obtain ⟨b, hb, hlive, hptr, hsize⟩ := hspec.taken
        exact ⟨b, hb, hlive, hptr, hle.trans hsize⟩
      · exact hspec.fresh htiles b (mem_append_left _ hb)
      · exact hspec.kept c (mem_append_left _ hc)
  · have hspec := takeFit_spec hs.tiles hs.top hbound htake
    obtain ⟨b, hb, hlive, hptr, hsize⟩ := hspec.taken
    exact ⟨_, _, _, rfl, Or.inr ⟨ptr, rfl, hspec.tiles, hs.top, ⟨b, hb, hlive, hptr, hle.trans hsize⟩,
      hspec.fresh hs.tiles, hspec.kept⟩⟩

theorem Allocated.inv {s : HeapState} {size ptr : Nat} {h' : Heap} (hs : s.Inv)
    (ha : Allocated s.heap size ptr h') :
    ({s with heap := h'}.gain (some ptr) size).Inv ∧ ptr ∉ s.live.map Prod.fst := by
  have hnew : ptr ∉ s.live.map Prod.fst := by
    intro hmem
    obtain ⟨a, ha', rfl⟩ := mem_map.mp hmem
    obtain ⟨b, hb, hlive, hptr, -⟩ := hs.backed a ha'
    exact ha.fresh b hb hlive hptr
  refine ⟨⟨ha.tiles, ha.top, nodup_cons.mpr ⟨hnew, hs.nodup⟩, fun a hmem => ?_⟩, hnew⟩
  rcases mem_cons.mp hmem with rfl | hmem
  · exact ha.taken
  · obtain ⟨b, hb, hlive, hptr, hsize⟩ := hs.backed a hmem
    exact ⟨b, ha.kept b hb hlive, hlive, hptr, hsize⟩

theorem kfree_inv {s : HeapState} (hs : s.Inv) (ptr : Nat) :
    ({s with heap := kfree ptr s.heap}.lose (some ptr)).Inv ∧ Merged (kfree ptr s.heap).blocks := by
  obtain ⟨htiles, hmerged, hkept⟩ := coalesce_spec (hs.tiles.markFree ptr) hs.top
  refine ⟨⟨htiles, hs.top, ?_, fun a ha => ?_⟩, hmerged⟩
  · exact hs.nodup.sublist (Sublist.map _ filter_sublist)
  obtain ⟨hmem, hne⟩ := mem_filter.mp ha
  obtain ⟨b, hb, hlive, hptr, hsize⟩ := hs.backed a hmem
  refine ⟨b, hkept b (mem_map.mpr ⟨b, hb, ?_⟩) hlive, hlive, hptr, hsize⟩
  have hother : b.addr + headerSize ≠ ptr := by
    rw [hptr]
    simpa using hne
  rw [markFree, if_neg hother]

/-- The condition of a step: a pointer that is freed is live, and a size does
not wrap. -/
def HeapOp.Ok (s : HeapState) : HeapOp → Prop
  | .kmalloc size ok => s.Fits size ok
  | .kfree ptr => ptr ∈ s.live.map Prod.fst
  | .krealloc ptr newSize ok => s.Fits newSize ok ∧ ∀ p, ptr = some p → p ∈ s.live.map Prod.fst

/-- What a call promises: a block of the requested size that overlaps no live
one, nothing changed after a failure, and no free neighbours after a release. -/
structure Promise (s : HeapState) (size : Nat) (releases : Bool) (r : Option Nat)
    (s' : HeapState) : Prop where
  block : ∀ ptr, r = some ptr → (ptr, size) ∈ s'.live ∧
    ∃ b ∈ s'.heap.blocks, b.isFree = false ∧ b.addr + headerSize = ptr ∧ size ≤ b.size
  failed : releases = false → r = none → s' = s
  merged : releases = true → Merged s'.heap.blocks

/-- `kfree` was called: by itself, for the size 0, or after a move. -/
def HeapOp.releases (r : Option Nat) : HeapOp → Bool
  | .kmalloc _ _ => false
  | .kfree _ => true
  | .krealloc ptr newSize _ => ptr.isSome && (newSize == 0 || r.isSome)

def HeapOp.size : HeapOp → Nat
  | .kmalloc size _ => size
  | .kfree _ => 0
  | .krealloc _ newSize _ => newSize

theorem HeapState.Inv.kmalloc {s : HeapState} {size : Nat} {ok : List Bool} (hs : s.Inv)
    (hfits : s.Fits size ok) : ∃ r s', s.exec (.kmalloc size ok) = some (r, s') ∧ s'.Inv ∧
      Promise s size false r s' := by
  by_cases hpos : size = 0
  · refine ⟨none, s, ?_, hs, fun _ h => (by cases h), fun _ _ => rfl, fun h => by cases h⟩
    rw [exec, Mm.kmalloc, kmallocFuel, if_pos hpos]
    rfl
  obtain ⟨r, h', ok', hrun, hcase⟩ := kmalloc_spec hs hfits hpos
  refine ⟨r, {s with heap := h'}.gain r size, ?_, ?_⟩
  · rw [exec, hrun]
    rfl
  rcases hcase with ⟨rfl, rfl⟩ | ⟨ptr, rfl, ha⟩
  · exact ⟨hs, fun _ h => (by cases h), fun _ _ => rfl, fun h => by cases h⟩
  · refine ⟨(ha.inv hs).1, fun ptr' h => ?_, fun _ h => (by cases h), fun h => by cases h⟩
    injection h with h
    subst h
    exact ⟨(.head _), ha.taken⟩

/-- Every call that meets the condition comes back, keeps the invariant and
does what it promises. -/
theorem HeapState.Inv.exec {s : HeapState} {op : HeapOp} (hs : s.Inv) (hop : op.Ok s) :
    ∃ r s', s.exec op = some (r, s') ∧ s'.Inv ∧ Promise s op.size (op.releases r) r s' := by
  cases op with
  | kmalloc size ok => exact hs.kmalloc hop
  | kfree ptr =>
    obtain ⟨hinv, hmerged⟩ := kfree_inv hs ptr
    exact ⟨none, _, rfl, hinv, fun _ h => (by cases h), fun h => (by cases h), fun _ => hmerged⟩
  | krealloc ptr newSize ok =>
    obtain ⟨hfits, hlive⟩ := hop
    unfold HeapState.exec krealloc
    dsimp only
    by_cases hzero : newSize = 0
    · subst hzero
      cases ptr with
      | none =>
        exact ⟨none, s, rfl, hs, fun _ h => (by cases h), fun _ _ => rfl, fun h => by cases h⟩
      | some ptr =>
        obtain ⟨hinv, hmerged⟩ := kfree_inv hs ptr
        exact ⟨none, _, rfl, hinv, fun _ h => (by cases h), fun h => (by cases h), fun _ => hmerged⟩
    rw [if_neg hzero]
    obtain ⟨r, h', ok', hrun, hcase⟩ := kmalloc_spec hs hfits hzero
    cases ptr with
    | none =>
      rw [hrun]
      refine ⟨r, _, rfl, ?_⟩
      rcases hcase with ⟨rfl, rfl⟩ | ⟨ptr, rfl, ha⟩
      · simp only [hzero, Option.isSome_none, Bool.false_eq_true, or_self, if_false]
        exact ⟨hs, fun _ h => (by cases h), fun _ _ => rfl, fun h => by cases h⟩
      · simp only [Option.isSome_some, or_true, if_true]
        refine ⟨(ha.inv hs).1, fun ptr' h => ?_, fun _ h => (by cases h), fun h => by cases h⟩
        injection h with h
        subst h
        exact ⟨(.head _), ha.taken⟩
    | some old =>
      rw [hrun]
      rcases hcase with ⟨rfl, rfl⟩ | ⟨ptr, rfl, ha⟩
      · refine ⟨none, _, rfl, ?_⟩
        simp only [hzero, Option.isSome_none, Bool.false_eq_true, or_self, if_false]
        refine ⟨hs, fun _ h => (by cases h), fun _ _ => rfl, fun h => ?_⟩
        simp [HeapOp.releases, hzero] at h
      -- the new pointer is none of the live ones, so `kfree` of the old one keeps it
      obtain ⟨hgain, hnew⟩ := ha.inv hs
      obtain ⟨hinv, hmerged⟩ := kfree_inv hgain old
      have hne : ptr ≠ old := fun heq => hnew (heq ▸ hlive old rfl)
      have hstate : ({s with heap := kfree old h'}.lose (some old)).gain (some ptr) newSize =
          {({s with heap := h'}.gain (some ptr) newSize) with heap := kfree old h'}.lose
            (some old) := by
        simp [gain, lose, hne]
      refine ⟨some ptr, _, rfl, ?_⟩
      simp only [Option.isSome_some, or_true, if_true]
      rw [hstate]
      refine ⟨hinv, fun ptr' h => ?_, fun _ h => (by cases h), fun _ => hmerged⟩
      injection h with h
      subst h
      have hmem : (ptr, newSize) ∈ ({({s with heap := h'}.gain (some ptr) newSize) with
          heap := kfree old h'}.lose (some old)).live :=
        List.mem_filter.mpr ⟨(.head _), by simpa using hne⟩
      exact ⟨hmem, hinv.backed _ hmem⟩

/-- A call whose size does not wrap and whose pointer is live. -/
def HeapStep (s : HeapState) (op : HeapOp) (s' : HeapState) : Prop :=
  op.Ok s ∧ ∃ r, s.exec op = some (r, s')

/-- The block list is in address order and tiles the heap, and live allocations
are disjoint. -/
structure HeapSound (s : HeapState) : Prop where
  tiles : Tiles heapStartVaddr s.heap.heapEnd s.heap.blocks
  ordered : s.heap.blocks.Pairwise fun a b => a.addr < b.addr
  disjoint : ∀ a ∈ s.live, ∀ b ∈ s.live, a ≠ b → a.1 + a.2 ≤ b.1 ∨ b.1 + b.2 ≤ a.1

theorem HeapState.Inv.sound {s : HeapState} (hs : s.Inv) : HeapSound s := by
  refine ⟨hs.tiles, hs.tiles.apart.imp fun h => by rw [headerSize] at h; omega,
    fun a ha b hb hne => ?_⟩
  obtain ⟨x, hx, -, hxptr, hxsize⟩ := hs.backed a ha
  obtain ⟨y, hy, -, hyptr, hysize⟩ := hs.backed b hb
  have hxy : x ≠ y := by
    rintro rfl
    exact hne (inj_on_of_nodup_map hs.nodup ha hb (by omega))
  have hapart := hs.tiles.disjoint hx hy hxy
  omega

theorem HeapState.init_inv : init.Inv := ⟨rfl, by decide, nodup_nil, nofun⟩

theorem HeapState.Inv.step {s s' : HeapState} {op : HeapOp} (hs : s.Inv) (hstep : HeapStep s op s') :
    s'.Inv := by
  obtain ⟨hop, r, hrun⟩ := hstep
  obtain ⟨r', s₁, hrun', hinv, -⟩ := hs.exec hop
  rw [hrun] at hrun'
  injection hrun' with heq
  injection heq with _ heq
  rw [heq]
  exact hinv

/-- In every state of a run whose sizes do not wrap, the list tiles the heap,
and the next call comes back and keeps its promise. -/
theorem heap_run_sound {ops : List HeapOp} {s : HeapState} (hrun : Run HeapStep HeapState.init ops s) :
    HeapSound s ∧ ∀ op : HeapOp, op.Ok s → ∃ r s', s.exec op = some (r, s') ∧ HeapSound s' ∧
      Promise s op.size (op.releases r) r s' := by
  have hs : s.Inv := hrun.invariant (fun _ _ _ h hstep => h.step hstep) init_inv
  refine ⟨hs.sound, fun op hop => ?_⟩
  obtain ⟨r, s', hexec, hinv, hpromise⟩ := hs.exec hop
  exact ⟨r, s', hexec, hinv.sound, hpromise⟩

def oneBlock : HeapState where
  heap := ⟨[⟨0xFFFF900000000000, 16, false⟩, ⟨0xFFFF900000000030, 4016, true⟩], 0xFFFF900000001000⟩
  live := [(0xFFFF900000000020, 16)]

theorem oneBlock_step : HeapStep init (.kmalloc 16 [true]) oneBlock :=
  ⟨⟨by decide, by decide⟩, _, rfl⟩

theorem heap_run_sound_oneBlock : HeapSound oneBlock ∧ HeapOp.Ok oneBlock (.kfree 0xFFFF900000000020) ∧
    ∃ r s', oneBlock.exec (.kfree 0xFFFF900000000020) = some (r, s') ∧ HeapSound s' ∧
      Promise oneBlock 0 true r s' := by
  have hok : HeapOp.Ok oneBlock (.kfree 0xFFFF900000000020) := by
    change 0xFFFF900000000020 ∈ [0xFFFF900000000020]
    decide
  have h := heap_run_sound (.cons oneBlock_step (.nil _))
  exact ⟨h.1, hok, h.2 _ hok⟩

/-- Near the top of `size_t` the rounding wraps to 0: with no block that fits a
failed `kmalloc` leaves the heap grown, and with one it returns 0 bytes. -/
theorem kmalloc_wraps :
    (∃ s, HeapState.init.exec (.kmalloc (2 ^ 64 - 1) [true]) = some (none, s) ∧ s ≠ HeapState.init) ∧
    ∃ ptr s, oneBlock.exec (.kmalloc (2 ^ 64 - 1) []) = some (some ptr, s) ∧
      ∀ b ∈ s.heap.blocks, b.addr + headerSize = ptr → b.size = 0 := by
  refine ⟨⟨_, rfl, by decide⟩, _, _, rfl, by decide⟩

end Kyuzen.Mm
