import Kyuzen.Kfs.Super

/-!
`kfs_inode.c`: the inode cache, a pool of 64 entries with a hash over the inode
number, and the allocation of inode numbers of `kfs_balloc.c`.
-/

namespace Kyuzen.Kfs

/-- `ino_entry_t`. Its `next` link is the order in `Fs.inoHash`. -/
structure InoEntry where
  ino : InodeMem
  used : Bool
  dead : Bool

inductive VnodeType where
  | vReg
  | vDir
  deriving DecidableEq, Repr

/-- `struct vnode`; `fsData` is the pool index of the entry it points into. -/
structure Vnode where
  type : VnodeType
  refcount : Nat
  size : Nat
  inodeNum : Nat
  fsData : Nat
  deriving DecidableEq, Repr

/-- The whole filesystem in memory. `inoHash h` is the chain of bucket `h`, as
pool indices. The vnodes that exist are listed with their addresses. -/
structure Fs where
  vol : Vol
  inoPool : Nat → InoEntry
  inoHash : Nat → List Nat
  vnodes : List (Nat × Vnode)
  nextVnode : Nat

def inoHashFn (ino : Nat) : Nat := ino % 128

def Fs.setEntry (fs : Fs) (e : Nat) (entry : InoEntry) : Fs :=
  {fs with inoPool := fun i => if i = e then entry else fs.inoPool i}

def Fs.setIno (fs : Fs) (e : Nat) (inn : InodeMem) : Fs :=
  fs.setEntry e {fs.inoPool e with ino := inn}

def Fs.inode (fs : Fs) (e : Nat) : InodeMem := (fs.inoPool e).ino

/-- A block-level call on the inode of entry `e`. -/
def Fs.onInode {α : Type} (fs : Fs) (e : Nat) (call : Vol → InodeMem → α × Vol × InodeMem) :
    α × Fs :=
  let (r, v', inn') := call fs.vol (fs.inode e)
  (r, {fs with vol := v'}.setIno e inn')

def inoCacheFind (fs : Fs) (ino : Nat) : Option Nat :=
  (fs.inoHash (inoHashFn ino)).find? fun e =>
    (fs.inoPool e).used && !(fs.inoPool e).dead && (fs.inode e).ino == ino

def inoCacheUnlink (fs : Fs) (e : Nat) : Fs :=
  let h := inoHashFn (fs.inode e).ino
  {fs.setEntry e {fs.inoPool e with used := false} with
    inoHash := fun h' => if h' = h then (fs.inoHash h).erase e else fs.inoHash h'}

def inoCacheInsertNolock (fs : Fs) (e : Nat) : Fs :=
  let h := inoHashFn (fs.inode e).ino
  {fs.setEntry e {fs.inoPool e with used := true, dead := false} with
    inoHash := fun h' => if h' = h then e :: fs.inoHash h else fs.inoHash h'}

/-- The sync of a dirty inode, with its result dropped and the flag cleared. -/
def flushDirty (fs : Fs) (e : Nat) : Fs :=
  if (fs.inode e).dirty then
    {fs with vol := (inoSyncNolock fs.vol (fs.inode e)).2}.setIno e {fs.inode e with dirty := false}
  else fs

/-- `ino_cache_slot`: a free entry, else an unreferenced dead one, else an
unreferenced live one after a flush. -/
def inoCacheSlot (fs : Fs) : Option Nat × Fs :=
  match (List.range 64).find? fun i => !(fs.inoPool i).used with
  | some e => (some e, fs.setEntry e {fs.inoPool e with dead := false})
  | none =>
    match (List.range 64).find? fun i =>
        (fs.inoPool i).used && (fs.inoPool i).dead && (fs.inode i).refcount == 0 with
    | some e =>
      let fs1 := inoCacheUnlink fs e
      (some e, fs1.setEntry e {fs1.inoPool e with dead := false})
    | none =>
      match (List.range 64).find? fun i =>
          (fs.inoPool i).used && (fs.inode i).refcount == 0 with
      | some e =>
        let fs1 := inoCacheUnlink (flushDirty fs e) e
        (some e, fs1.setEntry e {fs1.inoPool e with dead := false})
      | none => (none, fs)

def inoGetNolock (fs : Fs) (ino : Nat) : Except Rc Nat × Fs :=
  if ino = 0 ∨ (fs.vol.sb.totalInodes ≠ 0 ∧ ino > fs.vol.sb.totalInodes) then
    (.error .einval, fs)
  else
    match inoCacheFind fs ino with
    | some e =>
      (.ok e, fs.setIno e {fs.inode e with refcount := (fs.inode e).refcount + 1})
    | none =>
      match inoCacheSlot fs with
      | (none, fs1) => (.error .enomem, fs1)
      | (some e, fs1) =>
        match inoDiskRead fs1.vol ino with
        | none => (.error .eio, fs1)
        | some inn =>
          (.ok e, inoCacheInsertNolock (fs1.setIno e {inn with refcount := 1}) e)

def inoPutNolock (fs : Fs) (e : Nat) : Fs :=
  let inn := fs.inode e
  let fs1 := if inn.refcount > 0 then fs.setIno e {inn with refcount := inn.refcount - 1} else fs
  if (fs1.inode e).refcount ≠ 0 then fs1
  else if (fs1.inoPool e).dead then inoCacheUnlink fs1 e
  else flushDirty fs1 e

/-- `bm_alloc_bit` from bit `b` on, over `fuel` bits. -/
def bmAllocBit (m : Buf) : Nat → Nat → Option Nat
  | 0, _ => none
  | fuel + 1, b => if bmTest m b then bmAllocBit m fuel (b + 1) else some b

/-- `ino_alloc_nolock`; `none` is the result -1. -/
def inoAllocNolock (v : Vol) : Option Nat × Vol :=
  match bmAllocBit v.ibmMem (v.sb.totalInodes - 1) 1 with
  | none => (none, v)
  | some bit =>
    (some bit,
      {v with
        ibmMem := bmSet v.ibmMem bit
        ibmDirty := true
        sb := {v.sb with freeInodes := v.sb.freeInodes - 1}})

/-- The cache part of `ino_free_nolock`: a cached entry becomes dead, and goes
at once when nobody holds it. -/
def markDead (fs : Fs) (ino : Nat) : Fs :=
  match inoCacheFind fs ino with
  | none => fs
  | some e =>
    let fs1 := fs.setEntry e
      {fs.inoPool e with dead := true, ino := {fs.inode e with dirty := false}}
    if (fs1.inode e).refcount = 0 then inoCacheUnlink fs1 e else fs1

def inoFreeNolock (fs : Fs) (ino : Nat) : Fs :=
  if ino = 0 ∨ ino > fs.vol.sb.totalInodes then fs
  else if bmTest fs.vol.ibmMem ino = false then fs
  else
    let fs1 := markDead fs ino
    {fs1 with vol := {fs1.vol with
      ibmMem := bmClear fs1.vol.ibmMem ino
      ibmDirty := true
      sb := {fs1.vol.sb with freeInodes := fs1.vol.sb.freeInodes + 1}}}

end Kyuzen.Kfs
