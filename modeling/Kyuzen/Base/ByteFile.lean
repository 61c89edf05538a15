import Mathlib.Tactic

/-!
A file as a finite array of bytes that may be cut and extended: writing overlays
bytes, and a byte that became part of the file without being written is zero.
-/

namespace Kyuzen

open List

/-- A byte array of `size` bytes. Outside of it every byte is zero, so extending
a file needs no filling. -/
@[ext] structure ByteFile where
  size : Nat
  byte : Nat → UInt8
  beyond : ∀ p, size ≤ p → byte p = 0

namespace ByteFile

def empty : ByteFile := ⟨0, fun _ => 0, fun _ _ => rfl⟩

/-- Overlay `data` at `off`. Writing nothing changes nothing. -/
def write (f : ByteFile) (off : Nat) (data : List UInt8) : ByteFile where
  size := if data = [] then f.size else max f.size (off + data.length)
  byte p := if off ≤ p ∧ p < off + data.length then data.getD (p - off) 0 else f.byte p
  beyond p hp := by
    by_cases hnil : data = []
    · have hlen : data.length = 0 := by rw [hnil, length_nil]
      rw [if_pos hnil] at hp
      rw [if_neg (by omega)]
      exact f.beyond p hp
    · rw [if_neg hnil] at hp
      rw [if_neg (by omega)]
      exact f.beyond p (by omega)

/-- Cut at `size`, or extend with zeros. -/
def truncate (f : ByteFile) (size : Nat) : ByteFile where
  size := size
  byte p := if p < size then f.byte p else 0
  beyond p hp := if_neg (by omega)

/-- At most `count` bytes from `off` on. -/
def read (f : ByteFile) (off count : Nat) : List UInt8 :=
  (range (min count (f.size - off))).map fun i => f.byte (off + i)

def toList (f : ByteFile) : List UInt8 := (range f.size).map f.byte

@[simp] theorem write_nil (f : ByteFile) (off : Nat) : f.write off [] = f := by
  apply ByteFile.ext
  · simp [write]
  · funext p
    exact if_neg (by rw [length_nil]; omega)

theorem toList_write_end (f : ByteFile) (data : List UInt8) :
    (f.write f.size data).toList = f.toList ++ data := by
  by_cases hnil : data = []
  · simp [hnil]
  have hsize : (f.write f.size data).size = f.size + data.length := by
    simp [write, hnil]
  unfold toList
  rw [hsize, range_add, map_append, map_map]
  congr 1
  · refine map_congr_left fun p hp => ?_
    rw [mem_range] at hp
    exact if_neg (by omega)
  · refine ext_getElem (by simp) fun i hi hi' => ?_
    simp [write, hi']

end ByteFile

end Kyuzen
