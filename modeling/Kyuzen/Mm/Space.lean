import Kyuzen.Mm.Vmm

/-!
Whole address spaces of `paging.c`: creation, the full copy of `fork` and the
teardown. The four nested loops of the copy and of the teardown have the same
body at the three upper levels, so they are one function by the level of the
table: 3 for the PML4, 2, 1, and 0 for a page table. A table is named by the
page number it starts at, divided by the pages it spans.
-/

namespace Kyuzen.Mm

def kzShmBase : Nat := 0x50000000
def kzShmEnd : Nat := kzShmBase + 16 * 0x800000

def kzShmVaExcluded (va : Nat) : Bool := decide (kzShmBase ≤ va ∧ va < kzShmEnd)

def pagingNx : Nat := 2 ^ 63

/-- `pte_frame`: the address without `PAGING_NX`. -/
def pteFrame (e : Nat) : Nat := (e &&& pageMask) &&& (2 ^ 63 - 1)

/-- `pte_flags`: the low bits and `PAGING_NX`. -/
def pteFlags (e : Nat) : Nat := (e &&& (2 ^ 12 - 1)) ||| (e &&& pagingNx)

/-- `vmm_create_address_space`: the kernel half is copied entry by entry. -/
def vmmCreateAddressSpace (p : Phys) : Nat × Phys :=
  if p.currentPml4 = 0 then (physNull, p)
  else
    match allocPageVirt p with
    | (0, p') => (physNull, p')
    | (root, p') =>
      (root, {p' with mem := fun t i =>
        if t = root ∧ 256 ≤ i ∧ i < 512 then p'.mem p.currentPml4 i else p'.mem t i})

def freeOwned (p : Phys) (frame : Nat) : Phys :=
  if pmmOwnsPage p frame then pmmFreePage p frame else p

/-- The body of the innermost loop of `vmm_destroy_address_space`, for the entry
`i` of the page table that starts at page `q * 512`. -/
def destroyLeaf (q table : Nat) (p : Phys) (i : Nat) : Phys :=
  let e := p.mem table i
  if !present e then p
  else if kzShmVaExcluded ((q * 512 + i) * 4096) then p.setEntry table i 0
  else (freeOwned p (pteFrame e)).setEntry table i 0

/-- The loop over the first `n` entries of a table, with everything below it. -/
def destroyTable : Nat → Nat → Nat → Nat → Phys → Phys
  | 0, q, table, n, p => (List.range n).foldl (destroyLeaf q table) p
  | level + 1, q, table, n, p =>
    (List.range n).foldl (fun p i =>
      let e := p.mem table i
      if !present e then p
      else if huge e then p.setEntry table i 0
      else
        (freeOwned (destroyTable level (q * 512 + i) (e &&& pageMask) 512 p)
          (e &&& pageMask)).setEntry table i 0) p

def vmmDestroyAddressSpace (p : Phys) (pml4 : Nat) (freePml4 : Bool) : Phys :=
  if pml4 = physNull then p
  else
    let p' := destroyTable 3 0 pml4 256 p
    if freePml4 then freeOwned p' pml4 else p'

/-- The body of the innermost loop of `vmm_clone_user_as`; `false` is the jump to
`oom`. -/
def cloneLeaf (child q table : Nat) (r : Bool × Phys) (i : Nat) : Bool × Phys :=
  if !r.1 then r
  else
    let e := r.2.mem table i
    if !present e then r
    else if kzShmVaExcluded ((q * 512 + i) * 4096) then r
    else
      match pmmAllocPage r.2 with
      | (0, p) => (false, p)
      | (dst, p) =>
        match vmmMapPageInto (p.copyPage dst (pteFrame e)) ((q * 512 + i) * 4096) dst
            (pteFlags e) child with
        | (true, p) => (true, p)
        | (false, p) => (false, pmmFreePage p dst)

def cloneTable (child : Nat) : Nat → Nat → Nat → Nat → Bool × Phys → Bool × Phys
  | 0, q, table, n, r => (List.range n).foldl (cloneLeaf child q table) r
  | level + 1, q, table, n, r =>
    (List.range n).foldl (fun r i =>
      if !r.1 then r
      else
        let e := r.2.mem table i
        if !present e || huge e then r
        else cloneTable child level (q * 512 + i) (e &&& pageMask) 512 r) r

def vmmCloneUserAs (p : Phys) (parent : Nat) : Nat × Phys :=
  if parent = physNull ∨ p.currentPml4 = 0 then (physNull, p)
  else
    match vmmCreateAddressSpace p with
    | (0, p) => (physNull, p)
    | (child, p) =>
      match cloneTable child 3 0 parent 256 (true, p) with
      | (true, p) => (child, p)
      | (false, p) => (physNull, vmmDestroyAddressSpace p child true)

/-! ### Reading an address space -/

/-- The table of a level that the walk of page `x` comes to. -/
def tableOf (mem : Tables) (root x : Nat) : Nat → Option Nat
  | 0 => some root
  | depth + 1 =>
    match tableOf mem root x depth with
    | none => none
    | some table =>
      let e := mem table (x / 512 ^ (3 - depth) % 512)
      if present e && !huge e then some (e &&& pageMask) else none

def leafOf (mem : Tables) (root x : Nat) : Option Nat :=
  match tableOf mem root x 3 with
  | none => none
  | some table => if present (mem table (x % 512)) then some (mem table (x % 512)) else none

def userPages : Nat := 2 ^ 35

end Kyuzen.Mm
