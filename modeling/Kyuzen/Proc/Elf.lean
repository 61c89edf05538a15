import Kyuzen.Base.Bytes
import Kyuzen.Mm.UserCopy
import Kyuzen.Mm.Vmm

/-!
`elf_load_file` of `elf.c`. The buffer holds the bytes of the file; what lies
behind them is whatever the heap left there. A run leaves the trail of what the
loader touched: the buffer it read, the pages it found or made mapped in the
target address space, the user bytes it wrote and the pages whose flags it
changed. The contents of user pages are not followed.
-/

namespace Kyuzen.Proc

open Mm

inductive Ev where
  /-- Bytes of the file buffer. -/
  | read (off len : Nat)
  /-- The page is mapped in `target_pml4` from here on, or the load ends. -/
  | ensure (page : Nat)
  /-- The entry of the page gets its final flags. -/
  | protect (page : Nat)
  /-- Bytes at user addresses, by `memcpy` or `memset`. -/
  | write (addr len : Nat)
deriving DecidableEq, Repr

/-- A part of the load; without `go` the loader has returned 0. -/
structure Stage where
  evs : List Ev
  phys : Phys
  go : Bool

def Stage.after (evs : List Ev) (s : Stage) : Stage := { s with evs := evs ++ s.evs }

def Stage.then (s : Stage) (rest : Phys → Option Stage) : Option Stage :=
  if s.go then (rest s.phys).map (Stage.after s.evs) else some s

/-- What a program header says, of either class. -/
structure Phdr where
  type : Nat
  flags : Nat
  offset : Nat
  vaddr : Nat
  filesz : Nat
  memsz : Nat

/-- `elf64_phdr_t` at offset `o`. -/
def phdr64 (buf : Buf) (o : Nat) : Phdr where
  type := getLe buf o 4
  flags := getLe buf (o + 4) 4
  offset := getLe buf (o + 8) 8
  vaddr := getLe buf (o + 16) 8
  filesz := getLe buf (o + 32) 8
  memsz := getLe buf (o + 40) 8

/-- `elf32_phdr_t` at offset `o`. -/
def phdr32 (buf : Buf) (o : Nat) : Phdr where
  type := getLe buf o 4
  offset := getLe buf (o + 4) 4
  vaddr := getLe buf (o + 8) 4
  filesz := getLe buf (o + 16) 4
  memsz := getLe buf (o + 20) 4
  flags := getLe buf (o + 24) 4

def Phdr.segEnd (h : Phdr) : Nat := h.vaddr + h.memsz

/-- `p_memsz > UINT64_MAX - seg_vaddr`. -/
def Phdr.overflows (h : Phdr) : Prop := h.memsz > 2 ^ 64 - 1 - h.vaddr

def Phdr.outside (h : Phdr) (size : Nat) : Prop := h.offset > size ∨ h.filesz > size - h.offset

instance (h : Phdr) : Decidable h.overflows := by
  unfold Phdr.overflows
  infer_instance

instance (h : Phdr) (size : Nat) : Decidable (h.outside size) := by
  unfold Phdr.outside
  infer_instance

/-- The bytes that are copied from the file, then those that are cleared, with
the lengths cut to 32 bits. -/
def Phdr.copies (h : Phdr) : List Ev :=
  [.read h.offset (h.filesz % 2 ^ 32), .write h.vaddr (h.filesz % 2 ^ 32)] ++
    if h.memsz > h.filesz then [.write (h.vaddr + h.filesz) ((h.memsz - h.filesz) % 2 ^ 32)]
    else []

/-! ### The loops over pages -/

def fillFlags : Nat := 7

/-- The loop that maps the pages from `page` up to `seg_end`. It has no result
when it is still running after `fuel` rounds. -/
def premap (pml4 segEnd : Nat) : Nat → Nat → Phys → Option Stage
  | 0, _, _ => none
  | fuel + 1, page, p =>
    if page < segEnd then
      if pagingIsMappedInto p.mem p.currentPml4 page pml4 then
        (premap pml4 segEnd fuel ((page + 4096) % 2 ^ 64) p).map (Stage.after [.ensure page])
      else
        match vmmAllocPageInto p page fillFlags pml4 with
        | (false, p') => some ⟨[.ensure page], p', false⟩
        | (true, p') =>
          (premap pml4 segEnd fuel ((page + 4096) % 2 ^ 64) p').map
            (Stage.after [.ensure page])
    else some ⟨[], p, true⟩

/-- The loop that puts the final flags; a page where this fails is only reported. -/
def reprotect (pml4 segEnd flags : Nat) : Nat → Nat → Phys → Option Stage
  | 0, _, _ => none
  | fuel + 1, page, p =>
    if page < segEnd then
      (reprotect pml4 segEnd flags fuel ((page + 4096) % 2 ^ 64)
        (vmmProtectPageInto p page flags pml4).2).map (Stage.after [.protect page])
    else some ⟨[], p, true⟩

/-- `PAGING_PRESENT | PAGING_USER`, with `PF_W` writable, without `PF_X` not executable. -/
def segFlags (nx : Nat) (h : Phdr) : Nat :=
  5 ||| (if h.flags.testBit 1 then 2 else 0) ||| (if h.flags.testBit 0 then 0 else nx)

/-! ### One segment -/

/-- The fields of the header at `o` in the order they are read. -/
def phdrReads (o : Nat) : List Ev :=
  [.read o 4, .read (o + 16) 8, .read (o + 40) 8, .read (o + 8) 8, .read (o + 32) 8]

def loadSegment (size : Nat) (buf : Buf) (pml4 nx fuel o : Nat) (p : Phys) : Option Stage :=
  let h := phdr64 buf o
  if h.type ≠ 1 then some ⟨[.read o 4], p, true⟩
  else if h.overflows then some ⟨[.read o 4, .read (o + 16) 8, .read (o + 40) 8], p, false⟩
  else if h.outside size then some ⟨phdrReads o, p, false⟩
  else
    (premap pml4 h.segEnd fuel (pageOf h.vaddr) p).bind fun s =>
      (s.after (phdrReads o ++ [.read (o + 4) 4])).then fun p =>
        if segFlags nx h ≠ fillFlags then
          (reprotect pml4 h.segEnd (segFlags nx h) fuel (pageOf h.vaddr) p).map
            (Stage.after h.copies)
        else some ⟨h.copies, p, true⟩

def loadSegments (size : Nat) (buf : Buf) (pml4 nx fuel : Nat) :
    List Nat → Phys → Option Stage
  | [], p => some ⟨[], p, true⟩
  | o :: rest, p =>
    (loadSegment size buf pml4 nx fuel o p).bind fun s =>
      s.then (loadSegments size buf pml4 nx fuel rest)

/-! ### The user stack -/

def userStackSize : Nat := 256 * 1024
def userStackTop : Nat := 0x0C000000

def mapStack (pml4 nx : Nat) : List Nat → Phys → Bool × Phys
  | [], p => (true, p)
  | page :: rest, p =>
    match pmmAllocPage p with
    | (0, p) => (false, p)
    | (pa, p) =>
      match vmmMapPageInto p page pa (7 ||| nx) pml4 with
      | (false, p) => (false, pmmFreePage p pa)
      | (true, p) => mapStack pml4 nx rest (p.zeroPage pa)

def stackPages : List Nat :=
  (List.range (userStackSize / 4096)).map fun k => userStackTop - userStackSize + k * 4096

/-! ### The file -/

/-- The result of `elf_load_file`, with `*out_stack_top`. -/
structure Loaded where
  evs : List Ev
  phys : Phys
  entry : Nat
  stackTop : Nat

def Loaded.fail (evs : List Ev) (p : Phys) : Loaded := ⟨evs, p, 0, 0⟩

def ePhoff64 (buf : Buf) : Nat := getLe buf 32 8
def ePhnum64 (buf : Buf) : Nat := getLe buf 56 2
def eEntry64 (buf : Buf) : Nat := getLe buf 24 8

def phdrOffsets (phoff phnum width : Nat) : List Nat :=
  (List.range phnum).map fun i => phoff + i * width

open Loaded

def loadElf64 (size : Nat) (buf : Buf) (pml4 nx fuel : Nat) (wantStack : Bool) (p : Phys) :
    Option Loaded :=
  if pml4 = physNull then some (fail [] p)
  else if ePhoff64 buf > size then some (fail [.read 32 8] p)
  else if ePhnum64 buf * 56 > size - ePhoff64 buf then
    some (fail [.read 32 8, .read 56 2] p)
  else
    (loadSegments size buf pml4 nx fuel (phdrOffsets (ePhoff64 buf) (ePhnum64 buf) 56) p).map
      fun s =>
        let evs := [.read 32 8, .read 56 2] ++ s.evs
        if !s.go then fail evs s.phys
        else if !wantStack then ⟨evs ++ [.read 24 8], s.phys, eEntry64 buf, 0⟩
        else
          match mapStack pml4 nx stackPages s.phys with
          | (false, p) => fail (evs ++ [.read 24 8]) p
          | (true, p) => ⟨evs ++ [.read 24 8], p, eEntry64 buf, userStackTop⟩

/-- The loop of the 32-bit branch maps one page in each block of 4 MB. -/
def mapBlocks (pml4 segEnd : Nat) : Nat → Nat → Phys → Option Stage
  | 0, _, _ => none
  | fuel + 1, block, p =>
    if block < segEnd then
      match vmmAllocPageInto p block 7 pml4 with
      | (false, p') => some ⟨[.ensure block], p', false⟩
      | (true, p') =>
        (mapBlocks pml4 segEnd fuel ((block + 0x400000) % 2 ^ 32) p').map
          (Stage.after [.ensure block])
    else some ⟨[], p, true⟩

def loadSegments32 (size : Nat) (buf : Buf) (pml4 fuel : Nat) :
    List Nat → Phys → Option Stage
  | [], p => some ⟨[], p, true⟩
  | o :: rest, p =>
    let h := phdr32 buf o
    if h.type ≠ 1 then
      (loadSegments32 size buf pml4 fuel rest p).map (Stage.after [.read o 4])
    else if h.outside size then some ⟨[.read o 32], p, false⟩
    else
      (mapBlocks pml4 (h.segEnd % 2 ^ 32) fuel (h.vaddr / 0x400000 * 0x400000) p).bind fun s =>
        (s.after [.read o 32]).then fun p =>
          (loadSegments32 size buf pml4 fuel rest p).map (Stage.after h.copies)

def loadElf32 (size : Nat) (buf : Buf) (pml4 fuel : Nat) (p : Phys) : Option Loaded :=
  let phoff := getLe buf 28 4
  let phnum := getLe buf 44 2
  if pml4 = physNull then some (fail [] p)
  else if phoff > size then some (fail [.read 28 4] p)
  else if phnum * 32 > size - phoff then some (fail [.read 28 4, .read 44 2] p)
  else
    (loadSegments32 size buf pml4 fuel (phdrOffsets phoff phnum 32) p).map fun s =>
      let evs := [.read 28 4, .read 44 2] ++ s.evs
      if !s.go then fail evs s.phys
      else ⟨evs ++ [.read 24 4], s.phys, getLe buf 24 4, 0⟩

/-- `0x7F`, `E`, `L`, `F`. -/
def elfMagic : List (Nat × UInt8) := [(0, 0x7F), (1, 69), (2, 76), (3, 70)]

/-- The comparison stops at the first byte that differs. -/
def checkMagic (buf : Buf) : List (Nat × UInt8) → List Ev × Bool
  | [] => ([], true)
  | (i, c) :: rest =>
    if buf i ≠ c then ([.read i 1], false)
    else (.read i 1 :: (checkMagic buf rest).1, (checkMagic buf rest).2)

def elfClass32 : UInt8 := 1
def elfClass64 : UInt8 := 2

/-- `elf_load_file` for a file of `fileLen` bytes. `heapOk` says that `kmalloc`
gave a buffer, `nx` is `paging_nx_flag`. -/
def elfLoadFile (fileLen : Nat) (buf : Buf) (heapOk : Bool) (pml4 nx fuel : Nat)
    (wantStack : Bool) (p : Phys) : Option Loaded :=
  let size := fileLen % 2 ^ 32
  let magic := checkMagic buf elfMagic
  if size = 0 then some (fail [] p)
  else if !heapOk then some (fail [] p)
  else if !magic.2 then some (fail magic.1 p)
  else
    let evs := magic.1 ++ [.read 4 1]
    let withEvs := fun r : Loaded => { r with evs := evs ++ r.evs }
    if buf 4 = elfClass64 then (loadElf64 size buf pml4 nx fuel wantStack p).map withEvs
    else if buf 4 = elfClass32 then (loadElf32 size buf pml4 fuel p).map withEvs
    else some (fail evs p)

end Kyuzen.Proc
