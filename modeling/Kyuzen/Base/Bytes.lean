import Mathlib.Tactic

/-!
Byte buffers as total functions from offsets to bytes, with the C memory
primitives on them and little-endian words. A buffer has no length of its
own: whoever uses one keeps to the offsets that belong to the object.
-/

namespace Kyuzen

abbrev Buf := Nat → UInt8

/-- `memcpy(dst + d, src + s, n)`. -/
def memcpy (dst : Buf) (d : Nat) (src : Buf) (s n : Nat) : Buf :=
  fun i => if d ≤ i ∧ i < d + n then src (s + (i - d)) else dst i

/-- `memset(dst + d, c, n)`. -/
def memset (dst : Buf) (d : Nat) (c : UInt8) (n : Nat) : Buf :=
  fun i => if d ≤ i ∧ i < d + n then c else dst i

def leBytes (value : Nat) : Buf := fun i => UInt8.ofNat (value / 256 ^ i)

/-- Store `value` as a little-endian word of `width` bytes at `off`. -/
def putLe (b : Buf) (off width value : Nat) : Buf :=
  memcpy b off (leBytes value) 0 width

/-- Load the little-endian word of `width` bytes at `off`. -/
def getLe (b : Buf) (off : Nat) : Nat → Nat
  | 0 => 0
  | width + 1 => (b off).toNat + 256 * getLe b (off + 1) width

variable {dst src : Buf} {d s n i : Nat} {c : UInt8} {b : Buf} {off width : Nat}

theorem memcpy_inside (h : d ≤ i) (h' : i < d + n) :
    memcpy dst d src s n i = src (s + (i - d)) := if_pos ⟨h, h'⟩

theorem memcpy_outside (h : ¬ (d ≤ i ∧ i < d + n)) : memcpy dst d src s n i = dst i := if_neg h

theorem memset_inside (h : d ≤ i) (h' : i < d + n) : memset dst d c n i = c := if_pos ⟨h, h'⟩

theorem memset_outside (h : ¬ (d ≤ i ∧ i < d + n)) : memset dst d c n i = dst i := if_neg h

theorem putLe_outside {off width value i : Nat}
    (h : ¬ (off ≤ i ∧ i < off + width)) : putLe b off width value i = b i :=
  memcpy_outside h

/-- A load sees only its own bytes. -/
theorem getLe_congr {b b' : Buf} (off off' width : Nat)
    (h : ∀ i < width, b (off + i) = b' (off' + i)) :
    getLe b off width = getLe b' off' width := by
  induction width generalizing off off' with
  | zero => rfl
  | succ width ih =>
    have htail := ih (off + 1) (off' + 1) (fun i hi => by
      have := h (i + 1) (by omega)
      rwa [Nat.add_right_comm, add_assoc off, Nat.add_right_comm off' 1, add_assoc off'])
    have hhead : b off = b' off' := by simpa using h 0 (by omega)
    simp only [getLe, htail, hhead]

theorem getLe_lt (b : Buf) (off width : Nat) : getLe b off width < 256 ^ width := by
  induction width generalizing off with
  | zero => simp [getLe]
  | succ width ih =>
    have hbyte := (b off).toNat_lt
    have htail := ih (off + 1)
    simp only [getLe, pow_succ]
    omega

private theorem getLe_leBytes (value shift width : Nat) :
    getLe (leBytes value) shift width = value / 256 ^ shift % 256 ^ width := by
  induction width generalizing shift with
  | zero => simp [getLe, Nat.mod_one]
  | succ width ih =>
    have hbyte : (leBytes value shift).toNat = value / 256 ^ shift % 256 := by
      simp [leBytes]
    rw [getLe, ih, hbyte, pow_succ 256 shift, ← Nat.div_div_eq_div_mul,
      pow_succ 256 width, mul_comm (256 ^ width) 256, Nat.mod_mul]

theorem getLe_putLe (b : Buf) (off width value : Nat) :
    getLe (putLe b off width value) off width = value % 256 ^ width := by
  have hbytes : getLe (putLe b off width value) off width = getLe (leBytes value) 0 width := by
    apply getLe_congr
    intro i hi
    simp [putLe, memcpy_inside (Nat.le_add_right off i) (Nat.add_lt_add_left hi off)]
  rw [hbytes, getLe_leBytes, pow_zero, Nat.div_one]

theorem getLe_putLe_of_lt {off width value : Nat} (h : value < 256 ^ width) :
    getLe (putLe b off width value) off width = value := by
  rw [getLe_putLe, Nat.mod_eq_of_lt h]

theorem getLe_putLe_disjoint {off off' width width' value : Nat}
    (h : off + width ≤ off' ∨ off' + width' ≤ off) :
    getLe (putLe b off' width' value) off width = getLe b off width := by
  apply getLe_congr
  intro i hi
  exact putLe_outside (by omega)

theorem getLe_memcpy_outside (h : off + width ≤ d ∨ d + n ≤ off) :
    getLe (memcpy dst d src s n) off width = getLe dst off width := by
  apply getLe_congr
  intro i hi
  exact memcpy_outside (by omega)

theorem getLe_memcpy_inside (h : d ≤ off) (h' : off + width ≤ d + n) :
    getLe (memcpy dst d src s n) off width = getLe src (s + (off - d)) width := by
  apply getLe_congr
  intro i hi
  rw [memcpy_inside (by omega) (by omega)]
  congr 1
  omega

end Kyuzen
