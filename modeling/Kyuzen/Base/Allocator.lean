import Mathlib.Tactic

/-!
Blocks of memory, and allocators of one region: what a correct allocator does to its live
blocks and to the memory.
-/

namespace Kyuzen

abbrev Mem := Nat → UInt8

/-- The addresses from `addr` on, `len` of them. -/
structure Block where
  addr : Nat
  len : Nat
  deriving DecidableEq, Repr

namespace Block

def Disjoint (a b : Block) : Prop := a.addr + a.len ≤ b.addr ∨ b.addr + b.len ≤ a.addr

/-- `b` lies inside of `a`. -/
def Within (b a : Block) : Prop := a.addr ≤ b.addr ∧ b.addr + b.len ≤ a.addr + a.len

def Has (a : Block) (i : Nat) : Prop := a.addr ≤ i ∧ i < a.addr + a.len

instance (a : Block) (i : Nat) : Decidable (a.Has i) := inferInstanceAs (Decidable (_ ∧ _))

variable {a b c d : Block} {i : Nat}

theorem Disjoint.symm (h : a.Disjoint b) : b.Disjoint a := Or.symm h

instance : Std.Symm Block.Disjoint := ⟨fun _ _ h => h.symm⟩

theorem Disjoint.mono (h : a.Disjoint b) (hc : c.Within a) (hd : d.Within b) : c.Disjoint d := by
  unfold Disjoint Within at *
  omega

theorem Within.has (h : b.Within a) (hi : b.Has i) : a.Has i := by
  unfold Within Has at *
  omega

theorem Disjoint.not_has (h : a.Disjoint b) (ha : a.Has i) : ¬ b.Has i := by
  unfold Disjoint Has at *
  omega

theorem Within.has_addr (h : b.Within a) (hpos : 0 < b.len) : a.Has b.addr :=
  h.has ⟨le_rfl, Nat.lt_add_of_pos_right hpos⟩

def Same (b : Block) (m m' : Mem) : Prop := ∀ i, b.Has i → m' i = m i

theorem Same.trans {m m' m'' : Mem} (h : b.Same m m') (h' : b.Same m' m'') : b.Same m m'' :=
  fun i hi => (h' i hi).trans (h i hi)

end Block

/-- An allocator of one region that is correct: its live blocks lie in the region and do not
overlap, a call touches no other live block and nothing outside of the region, and a call
that fails changes nothing. `allocate` takes an alignment (0 for none) and a size, `realloc`
an address and a size. -/
structure Allocator where
  Heap : Type
  region : Heap → Block
  blocks : Heap → List Block
  create : Block → Heap
  allocate : Heap → Mem → Nat → Nat → Option (Nat × Heap × Mem)
  free : Heap → Mem → Nat → Heap × Mem
  realloc : Heap → Mem → Nat → Nat → Option (Nat × Heap × Mem)
  usable : Heap → Nat → Nat
  region_create : ∀ r, region (create r) = r
  blocks_create : ∀ r, blocks (create r) = []
  within : ∀ h, ∀ b ∈ blocks h, b.Within (region h) ∧ 0 < b.len
  disjoint : ∀ h, (blocks h).Pairwise Block.Disjoint
  usable_eq : ∀ h, ∀ b ∈ blocks h, usable h b.addr = b.len
  allocate_spec : ∀ h m al n p h' m', allocate h m al n = some (p, h', m') →
    region h' = region h ∧ (∃ len, n ≤ len ∧ (blocks h').Perm (⟨p, len⟩ :: blocks h)) ∧
      (∀ b ∈ blocks h, b.Same m m') ∧ ∀ i, ¬ (region h).Has i → m' i = m i
  free_spec : ∀ h m, ∀ b ∈ blocks h,
    region (free h m b.addr).1 = region h ∧
      (blocks h).Perm (b :: blocks (free h m b.addr).1) ∧
      (∀ c ∈ blocks (free h m b.addr).1, c.Same m (free h m b.addr).2) ∧
      ∀ i, ¬ (region h).Has i → (free h m b.addr).2 i = m i
  realloc_spec : ∀ h m n p h' m', ∀ b ∈ blocks h, realloc h m b.addr n = some (p, h', m') →
    region h' = region h ∧
      (∃ len rest, n ≤ len ∧ (blocks h).Perm (b :: rest) ∧ (blocks h').Perm (⟨p, len⟩ :: rest) ∧
        ∀ c ∈ rest, c.Same m m') ∧
      (∀ i, i < b.len → i < n → m' (p + i) = m (b.addr + i)) ∧
      ∀ i, ¬ (region h).Has i → m' i = m i

end Kyuzen
