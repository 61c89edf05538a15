import Kyuzen.Mm.Page

/-!
The frames of `pmm.c` and the calls of `paging.c` that change a page table. A
frame is a page of 512 words, by its physical address: a table, or the 4096
bytes of a user page.
-/

namespace Kyuzen.Mm

/-- Physical memory with the state of the frame allocator after
`pmm_init_dynamic`. `bitmap` tells the used frames by page number. -/
structure Phys where
  mem : Tables
  bitmap : Nat → Bool
  bitmapPages : Nat
  totalPages : Nat
  usedPages : Nat
  nextFreeHint : Nat
  currentPml4 : Nat

def physNull : Nat := 0

/-- The first 72 MB never belong to the allocator. -/
def pmmKernelZoneEnd : Nat := 0x4800000

/-- Mark frame `i` as used and hand it out. -/
def Phys.take (p : Phys) (i : Nat) : Nat × Phys :=
  (i * 4096, { p with bitmap := Function.update p.bitmap i true, usedPages := p.usedPages + 1,
                      nextFreeHint := i + 1 })

/-- `pmm_alloc_page`: from the hint to the end, then from the start to the hint. -/
def pmmAllocPage (p : Phys) : Nat × Phys :=
  let isFree := fun i => !p.bitmap i
  match (List.range' p.nextFreeHint (p.totalPages - p.nextFreeHint)).find? isFree with
  | some i => p.take i
  | none =>
    match (List.range (min p.nextFreeHint p.totalPages)).find? isFree with
    | some i => p.take i
    | none => (physNull, p)

/-- `pmm_free_page`; a refused frame leaves everything as it was. -/
def pmmFreePage (p : Phys) (addr : Nat) : Phys :=
  if addr = physNull then p
  else if addr % 4096 ≠ 0 then p
  else if addr / 4096 ≥ p.bitmapPages then p
  else if addr < pmmKernelZoneEnd then p
  else if p.bitmap (addr / 4096) = false then p
  else
    { p with bitmap := Function.update p.bitmap (addr / 4096) false
             usedPages := p.usedPages - 1
             nextFreeHint := min p.nextFreeHint (addr / 4096) }

def pmmOwnsPage (p : Phys) (addr : Nat) : Bool :=
  if addr = physNull ∨ addr % 4096 ≠ 0 then false
  else if addr / 4096 ≥ p.bitmapPages then false
  else p.bitmap (addr / 4096)

def Phys.setEntry (p : Phys) (table i e : Nat) : Phys :=
  { p with mem := fun t j => if t = table ∧ j = i then e else p.mem t j }

def Phys.zeroPage (p : Phys) (frame : Nat) : Phys :=
  { p with mem := fun t j => if t = frame then 0 else p.mem t j }

def Phys.copyPage (p : Phys) (dst src : Nat) : Phys :=
  { p with mem := fun t j => if t = dst then p.mem src j else p.mem t j }

/-- `alloc_page_virt`: a zeroed frame. -/
def allocPageVirt (p : Phys) : Nat × Phys :=
  match pmmAllocPage p with
  | (0, p') => (physNull, p')
  | (frame, p') => (frame, p'.zeroPage frame)

/-- The table below entry `i`, allocated when the entry is absent. -/
def tableBelow (p : Phys) (table i : Nat) : Option Nat × Phys :=
  if present (p.mem table i) then (some (p.mem table i &&& pageMask), p)
  else
    match allocPageVirt p with
    | (0, p') => (none, p')
    | (frame, p') => (some ((frame ||| 7) &&& pageMask), p'.setEntry table i (frame ||| 7))

/-- The body that `vmm_map_page_into` and `vmm_map_page` share. -/
def mapPage (p : Phys) (vaddr paddr flags pml4 : Nat) : Bool × Phys :=
  match tableBelow p pml4 (pml4Idx vaddr) with
  | (none, p) => (false, p)
  | (some pdpt, p) =>
    if huge (p.mem pdpt (pdptIdx vaddr)) then (false, p)
    else
      match tableBelow p pdpt (pdptIdx vaddr) with
      | (none, p) => (false, p)
      | (some pd, p) =>
        if huge (p.mem pd (pdIdx vaddr)) then (false, p)
        else
          match tableBelow p pd (pdIdx vaddr) with
          | (none, p) => (false, p)
          | (some pt, p) =>
            (true, p.setEntry pt (ptIdx vaddr) ((paddr &&& pageMask) ||| flags))

def vmmMapPageInto (p : Phys) (vaddr paddr flags targetPml4 : Nat) : Bool × Phys :=
  if targetPml4 = physNull then (false, p) else mapPage p vaddr paddr flags targetPml4

def vmmMapPage (p : Phys) (vaddr paddr flags : Nat) : Bool × Phys :=
  if p.currentPml4 = 0 then (false, p) else mapPage p vaddr paddr flags p.currentPml4

def vmmAllocPageInto (p : Phys) (vaddr flags targetPml4 : Nat) : Bool × Phys :=
  match pmmAllocPage p with
  | (0, p) => (false, p)
  | (paddr, p) =>
    match if targetPml4 ≠ physNull then vmmMapPageInto p vaddr paddr flags targetPml4
        else vmmMapPage p vaddr paddr flags with
    | (true, p) => (true, p)
    | (false, p) => (false, pmmFreePage p paddr)

/-- `vmm_protect_page_into` puts new flags on a page that is mapped. -/
def vmmProtectPageInto (p : Phys) (vaddr newFlags targetPml4 : Nat) : Bool × Phys :=
  let pml4 := if targetPml4 ≠ physNull then targetPml4 else p.currentPml4
  let e4 := p.mem pml4 (pml4Idx vaddr)
  let e3 := p.mem (e4 &&& pageMask) (pdptIdx vaddr)
  let e2 := p.mem (e3 &&& pageMask) (pdIdx vaddr)
  let pt := e2 &&& pageMask
  let e1 := p.mem pt (ptIdx vaddr)
  if pml4 = 0 then (false, p)
  else if !present e4 then (false, p)
  else if !present e3 || huge e3 then (false, p)
  else if !present e2 || huge e2 then (false, p)
  else if !present e1 then (false, p)
  else (true, p.setEntry pt (ptIdx vaddr) ((e1 &&& pageMask) ||| newFlags))

end Kyuzen.Mm
