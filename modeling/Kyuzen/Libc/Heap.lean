import Kyuzen.Base.Allocator
import Kyuzen.Base.Run

/-!
The user heap of the libc port (`kyuzen_heap.hpp`): a table of arenas, each a region of the
kernel with a `FreeListHeap` on it.
-/

namespace Kyuzen.Libc

def initialArenaBytes : Nat := 1048576
def maxArenaBytes : Nat := 4194304
def maxArenas : Nat := 32
def maxAllocBytes : Nat := 67108864
def regionAlign : Nat := 4096

/-- `region_alloc`: the answer to a call with some regions mapped, a size, and the number of
the call. It may fail at any time; a region that it returns is new. -/
structure Backing where
  regionAlloc : List Block → Nat → Nat → Option Nat
  fresh : ∀ mapped bytes n base, regionAlloc mapped bytes n = some base →
    0 < base ∧ ∀ r ∈ mapped, (⟨base, bytes⟩ : Block).Disjoint r

variable (A : Allocator) (B : Backing)

/-- `id` is the number of the `region_alloc` call that the region came from. -/
structure Arena where
  id : Nat
  heap : A.Heap
  base : Nat
  bytes : Nat
  live : Nat

def Arena.region {A : Allocator} (a : Arena A) : Block := ⟨a.base, a.bytes⟩

/-- The arena table and the memory. Kept beside them are the regions handed out, the regions
returned with the blocks that were live in them, and the blocks that the program holds with
the sizes it asked for. -/
structure Heap where
  arenas : List (Arena A)
  nextArenaBytes : Nat
  mem : Mem
  calls : Nat
  handed : List Nat
  returned : List (Nat × List Block)
  held : List Block

variable {A}

def Heap.start (A : Allocator) (mem : Mem) : Heap A where
  arenas := []
  nextArenaBytes := initialArenaBytes
  mem := mem
  calls := 0
  handed := []
  returned := []
  held := []

def roundUp (value align : Nat) : Nat := (value + align - 1) / align * align

/-- `pow2_at_least`, with the 64 doublings that a `size_t` has room for. -/
def pow2AtLeast (value : Nat) : Nat :=
  let rec loop : Nat → Nat → Nat
    | 0, p => p
    | fuel + 1, p => if p < value then loop fuel (p * 2) else p
  loop 64 1

/-- The size of a new arena and the next size of the series. -/
def arenaSize (next need : Nat) : Nat × Nat :=
  if need > maxArenaBytes then (roundUp (roundUp need regionAlign) regionAlign, next)
  else
    let bytes := if next < need then min (pow2AtLeast need) maxArenaBytes else next
    let bytes := max bytes initialArenaBytes
    let next := if bytes > maxArenaBytes / 2 then maxArenaBytes else bytes * 2
    (roundUp bytes regionAlign, max next initialArenaBytes)

namespace Heap

variable (s : Heap A)

/-- `grow`: the new arena is the last of the table. -/
def grow (need : Nat) : Option (Arena A) × Heap A :=
  if s.arenas.length ≥ maxArenas then (none, s)
  else
    let (bytes, next) := arenaSize s.nextArenaBytes need
    let s' := {s with nextArenaBytes := next, calls := s.calls + 1}
    match B.regionAlloc (s.arenas.map Arena.region) bytes s.calls with
    | none => (none, s')
    | some base =>
      let a : Arena A := ⟨s.calls, A.create ⟨base, bytes⟩, base, bytes, 0⟩
      (some a, {s' with arenas := s.arenas ++ [a], handed := s.calls :: s.handed})

/-- The table of `drop_arena`: the last arena moves into the slot. -/
def compact (arenas : List (Arena A)) (idx : Nat) : List (Arena A) :=
  let last := arenas.length - 1
  match arenas[last]? with
  | none => arenas
  | some z => (if idx ≠ last then arenas.set idx z else arenas).take last

def dropArena (idx : Nat) (allowFirst : Bool) : Heap A :=
  match s.arenas[idx]? with
  | none => s
  | some a =>
    if idx = 0 ∧ allowFirst = false then s
    else
      {s with
        arenas := compact s.arenas idx
        returned := (a.id, A.blocks a.heap) :: s.returned}

def arenaIndexOf (ptr : Nat) : Option Nat :=
  s.arenas.findIdx? fun a => a.base ≤ ptr ∧ ptr < a.base + a.bytes

def tryArena (a : Arena A) (mem : Mem) (alignment size : Nat) : Option (Nat × Arena A × Mem) :=
  match A.allocate a.heap mem alignment size with
  | none => none
  | some (p, heap, mem') => some (p, {a with heap := heap, live := a.live + 1}, mem')

/-- The first loop of `alloc_impl`. -/
def tryAll (alignment size : Nat) : List (Arena A) → Mem → Option (Nat × List (Arena A) × Mem)
  | [], _ => none
  | a :: as, mem =>
    match tryArena a mem alignment size with
    | some (p, a', mem') => some (p, a' :: as, mem')
    | none =>
      match tryAll alignment size as mem with
      | none => none
      | some (p, as', mem') => some (p, a :: as', mem')

/-- The second loop of `alloc_impl`. -/
def attempts (alignment size : Nat) : Nat → Nat → Heap A → Option Nat × Heap A
  | 0, _, s => (none, s)
  | n + 1, margin, s =>
    if margin > maxAllocBytes ∨ size > maxAllocBytes - margin then (none, s)
    else
      match s.grow B (size + margin) with
      | (none, s') => (none, s')
      | (some a, s') =>
        let last := s'.arenas.length - 1
        match tryArena a s'.mem alignment size with
        | some (p, a', mem') => (some p, {s' with arenas := s'.arenas.set last a', mem := mem'})
        | none => attempts alignment size n (margin * 2) (s'.dropArena last (last = 0))

def allocImpl (alignment size : Nat) : Option Nat × Heap A :=
  match tryAll alignment size s.arenas s.mem with
  | some (p, arenas, mem) => (some p, {s with arenas := arenas, mem := mem})
  | none =>
    let margin := if alignment ≠ 0 ∧ alignment > regionAlign then alignment + regionAlign
      else regionAlign
    attempts B alignment size 3 margin s

def hold (size : Nat) (r : Option Nat × Heap A) : Option Nat × Heap A :=
  match r with
  | (none, s) => (none, s)
  | (some p, s) => (some p, {s with held := ⟨p, size⟩ :: s.held})

def alloc (size : Nat) : Option Nat × Heap A :=
  if size = 0 then (none, s)
  else if size > maxAllocBytes then (none, s)
  else hold size (s.allocImpl B 0 size)

def free (ptr : Nat) : Heap A :=
  if ptr = 0 then s
  else
    match s.arenaIndexOf ptr with
    | none => s
    | some idx =>
      match s.arenas[idx]? with
      | none => s
      | some a =>
        let a' := {a with heap := (A.free a.heap s.mem ptr).1, live := a.live - 1}
        let s' := {s with
          arenas := s.arenas.set idx a'
          mem := (A.free a.heap s.mem ptr).2
          held := s.held.eraseP fun b => b.addr = ptr}
        if a'.live = 0 ∧ a'.bytes > maxArenaBytes then s'.dropArena idx true else s'

def fill (mem : Mem) (ptr len : Nat) (f : Nat → UInt8) : Mem :=
  fun i => if ptr ≤ i ∧ i < ptr + len then f (i - ptr) else mem i

def calloc (num size : Nat) : Option Nat × Heap A :=
  if num * size ≥ 2 ^ 64 then (none, s)
  else
    match s.alloc B (num * size) with
    | (none, s') => (none, s')
    | (some p, s') => (some p, {s' with mem := fill s'.mem p (num * size) fun _ => 0})

def realloc (ptr size : Nat) : Option Nat × Heap A :=
  if ptr = 0 then s.alloc B size
  else if size = 0 then (none, s.free ptr)
  else
    match s.arenaIndexOf ptr with
    | none => (none, s)
    | some idx =>
      match s.arenas[idx]? with
      | none => (none, s)
      | some a =>
        match A.realloc a.heap s.mem ptr size with
        | some (p, heap, mem) =>
          (some p, {s with
            arenas := s.arenas.set idx {a with heap := heap}
            mem := mem
            held := ⟨p, size⟩ :: s.held.eraseP fun b => b.addr = ptr})
        | none =>
          let old := A.usable a.heap ptr
          match s.alloc B size with
          | (none, s') => (none, s')
          | (some fresh, s') =>
            let mem := fill s'.mem fresh (min old size) fun i => s'.mem (ptr + i)
            (some fresh, {s' with mem := mem}.free ptr)

def alignedAlloc (alignment size : Nat) : Option Nat × Heap A :=
  if alignment = 0 ∨ alignment &&& (alignment - 1) ≠ 0 then (none, s)
  else if size = 0 ∨ size % alignment ≠ 0 then (none, s)
  else hold size (s.allocImpl B alignment size)

end Heap

/-- A call of the program, or a byte that it writes. -/
inductive Call where
  | alloc (size : Nat)
  | calloc (num size : Nat)
  | alignedAlloc (alignment size : Nat)
  | realloc (ptr size : Nat)
  | free (ptr : Nat)
  | write (addr : Nat) (value : UInt8)

/-- The program passes a live pointer or none, and writes into its own blocks. -/
def Heap.Legal (s : Heap A) : Call → Prop
  | .realloc ptr _ => ptr = 0 ∨ ∃ b ∈ s.held, b.addr = ptr
  | .free ptr => ptr = 0 ∨ ∃ b ∈ s.held, b.addr = ptr
  | .write addr _ => ∃ b ∈ s.held, b.Has addr
  | _ => True

def Heap.call (s : Heap A) : Call → Option Nat × Heap A
  | .alloc size => s.alloc B size
  | .calloc num size => s.calloc B num size
  | .alignedAlloc alignment size => s.alignedAlloc B alignment size
  | .realloc ptr size => s.realloc B ptr size
  | .free ptr => (none, s.free ptr)
  | .write addr value => (none, {s with mem := fun i => if i = addr then value else s.mem i})

abbrev HeapRun : Heap A → List Call → Heap A → Prop :=
  Run fun s c s' => s.Legal c ∧ s' = (s.call B c).2

end Kyuzen.Libc
