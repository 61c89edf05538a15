import Mathlib.Tactic

/-!
Page tables of `paging.h` and `paging.c`. Physical memory is seen as tables of
512 entries, by the physical address of the table. Entries and addresses are
64-bit words, here natural numbers.
-/

namespace Kyuzen.Mm

abbrev Tables := Nat → Nat → Nat

def pml4Idx (va : Nat) : Nat := va >>> 39 % 512
def pdptIdx (va : Nat) : Nat := va >>> 30 % 512
def pdIdx (va : Nat) : Nat := va >>> 21 % 512
def ptIdx (va : Nat) : Nat := va >>> 12 % 512

def present (e : Nat) : Bool := e.testBit 0
def writable (e : Nat) : Bool := e.testBit 1
def user (e : Nat) : Bool := e.testBit 2
/-- Bit 7, a page of 1 GB or 2 MB. -/
def huge (e : Nat) : Bool := e.testBit 7

/-- `PAGE_MASK` keeps all bits from 12 on, `PAGING_NX` too. -/
def pageMask : Nat := 0xFFFFFFFFFFFFF000

/-- `addr & ~0xFFF`. -/
def pageOf (va : Nat) : Nat := va / 4096 * 4096

theorem pageOf_le (va : Nat) : pageOf va ≤ va := Nat.div_mul_le_self va 4096

theorem pageOf_mod (va : Nat) : pageOf va % 4096 = 0 := Nat.mul_mod_left _ _

theorem idx_pageOf (va : Nat) : pml4Idx (pageOf va) = pml4Idx va ∧ pdptIdx (pageOf va) = pdptIdx va ∧
    pdIdx (pageOf va) = pdIdx va ∧ ptIdx (pageOf va) = ptIdx va := by
  simp only [pml4Idx, pdptIdx, pdIdx, ptIdx, pageOf, Nat.shiftRight_eq_div_pow]
  omega

def walkIsMapped (mem : Tables) (pml4 va : Nat) : Bool :=
  let e4 := mem pml4 (pml4Idx va)
  if !present e4 then false
  else
    let e3 := mem (e4 &&& pageMask) (pdptIdx va)
    if !present e3 then false
    else if huge e3 then true
    else
      let e2 := mem (e3 &&& pageMask) (pdIdx va)
      if !present e2 then false
      else if huge e2 then true
      else present (mem (e2 &&& pageMask) (ptIdx va))

/-- `paging_is_mapped_into`; without a PML4 the kernel's is meant. -/
def pagingIsMappedInto (mem : Tables) (currentPml4 va pml4 : Nat) : Bool :=
  walkIsMapped mem (if pml4 ≠ 0 then pml4 else currentPml4) va

theorem walkIsMapped_pageOf (mem : Tables) (pml4 va : Nat) :
    walkIsMapped mem pml4 (pageOf va) = walkIsMapped mem pml4 va := by
  obtain ⟨h4, h3, h2, h1⟩ := idx_pageOf va
  simp only [walkIsMapped, h4, h3, h2, h1]

/-! ### What the processor allows -/

/-- An access of ring 3 needs `PAGING_USER`, and a write `PAGING_WRITABLE`, at
every level. -/
def allows (e : Nat) (write : Bool) : Bool := present e && user e && (!write || writable e)

/-- The address bits 12 to 51 of an entry. -/
def frameBits (e : Nat) : Nat := e &&& 0x000FFFFFFFFFF000

def userAccess (mem : Tables) (pml4 va : Nat) (write : Bool) : Bool :=
  let e4 := mem pml4 (pml4Idx va)
  let e3 := mem (frameBits e4) (pdptIdx va)
  let e2 := mem (frameBits e3) (pdIdx va)
  let e1 := mem (frameBits e2) (ptIdx va)
  allows e4 write && allows e3 write &&
    (huge e3 || allows e2 write && (huge e2 || allows e1 write))

/-- What an entry grants to ring 3, whether or not it is there. -/
def grants (e : Nat) (write : Bool) : Bool := user e && (!write || writable e)

/-- The flags of every entry on the way to the page of `va`. -/
def entriesGrant (mem : Tables) (pml4 va : Nat) (write : Bool) : Bool :=
  let e4 := mem pml4 (pml4Idx va)
  let e3 := mem (frameBits e4) (pdptIdx va)
  let e2 := mem (frameBits e3) (pdIdx va)
  let e1 := mem (frameBits e2) (ptIdx va)
  grants e4 write && grants e3 write &&
    (huge e3 || grants e2 write && (huge e2 || grants e1 write))

/-- No entry on the way to the page of `va` that leads to a table has a bit from
52 on, which `PAGE_MASK` would keep. -/
def PlainWalk (mem : Tables) (pml4 va : Nat) : Prop :=
  let e4 := mem pml4 (pml4Idx va)
  let e3 := mem (frameBits e4) (pdptIdx va)
  let e2 := mem (frameBits e3) (pdIdx va)
  e4 &&& pageMask = frameBits e4 ∧ (huge e3 = false → e3 &&& pageMask = frameBits e3) ∧
    (huge e3 = false → huge e2 = false → e2 &&& pageMask = frameBits e2)

instance (mem : Tables) (pml4 va : Nat) : Decidable (PlainWalk mem pml4 va) := by
  unfold PlainWalk
  infer_instance

theorem allows_eq (e : Nat) (write : Bool) : allows e write = (present e && grants e write) :=
  Bool.and_assoc _ _ _

/-- The walk of the code looks at presence, and only the flags are missing. -/
theorem userAccess_eq {mem : Tables} {pml4 va : Nat} (h : PlainWalk mem pml4 va) (write : Bool) :
    userAccess mem pml4 va write = (walkIsMapped mem pml4 va && entriesGrant mem pml4 va write) := by
  obtain ⟨h4, h3, h2⟩ := h
  simp only [userAccess, walkIsMapped, entriesGrant, allows_eq, h4]
  cases hh3 : huge (mem (frameBits (mem pml4 (pml4Idx va))) (pdptIdx va)) with
  | true =>
    simp only [Bool.true_or, Bool.and_true, if_true]
    split_ifs <;> simp_all
  | false =>
    rw [h3 hh3]
    cases hh2 : huge (mem (frameBits (mem (frameBits (mem pml4 (pml4Idx va))) (pdptIdx va)))
        (pdIdx va)) with
    | true =>
      simp only [Bool.true_or, Bool.false_or, Bool.and_true, Bool.false_eq_true, if_true, if_false]
      split_ifs <;> simp_all
    | false =>
      rw [h2 hh3 hh2]
      simp only [Bool.false_or, Bool.false_eq_true, if_false]
      split_ifs <;> simp_all
      ac_rfl

end Kyuzen.Mm
