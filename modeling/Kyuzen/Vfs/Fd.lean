import Kyuzen.Kfs.Mount

/-!
`vfs_fd.c`: descriptors, open descriptions, and the calls on files. A write or
read of a file holds `vfs_lock` from end to end. The terminal and pipe branches
leave the filesystem and are not followed.
-/

namespace Kyuzen.Vfs

open Kyuzen.Kfs

/-- The `VFS_KIND_*` values. -/
inductive Kind where
  | file
  | tty
  | pipeRead
  | pipeWrite
  | dir
  deriving DecidableEq, Repr

/-- The `VFS_O_*` bits. -/
def oWronly : Nat := 0x1
def oRdwr : Nat := 0x2
def oCreat : Nat := 0x4
def oTrunc : Nat := 0x8
def oAppend : Nat := 0x10

def hasFlag (flags bit : Nat) : Bool := flags &&& bit ≠ 0

/-- `vfs_open_file_t`, without the path text and the pipe. -/
structure OpenDesc where
  refcount : Nat
  kind : Kind
  vnode : Option Nat
  pos : Nat
  flags : Nat

/-- `vfs_fd_entry_t`; `open_` is the description it points to. -/
structure FdEntry where
  used : Bool
  owner : Nat
  open_ : Nat

structure State where
  fs : Fs
  fds : Nat → FdEntry
  opens : Nat → OpenDesc
  nextOpen : Nat

/-- `slot_of`, with `MAX_TASKS` and `VFS_MAX_FDS` both 16. -/
def slotOf (task fd : Nat) : Option Nat :=
  if task ≥ 16 ∨ fd ≥ 16 then none else some (task * 16 + fd)

/-- `resolve_open`: the description behind a descriptor of the task. -/
def resolveOpen (s : State) (task fd : Nat) : Option Nat :=
  match slotOf task fd with
  | none => none
  | some i => if (s.fds i).used ∧ (s.fds i).owner = task then some (s.fds i).open_ else none

/-- `alloc_fd`: the lowest free descriptor. -/
def allocFd (s : State) (task : Nat) : Option Nat :=
  (List.range 16).find? fun fd => !(s.fds (task * 16 + fd)).used

/-- `vfs_open` from the check of the vnode type on. -/
def openVnode (s : State) (task h flags : Nat) : Int × State :=
  match s.fs.vnode h with
  | none => (-1, s)
  | some vn =>
    let refuse : Int × State := (-1, {s with fs := v4Release s.fs h})
    if vn.type = .vDir ∧ hasFlag flags (oWronly ||| oRdwr ||| oCreat ||| oAppend) then refuse
    else if s.fs.vol.env.kmalloc .openAlloc = false then refuse
    else
      match allocFd s task with
      | none => refuse
      | some fd =>
        let desc : OpenDesc :=
          { refcount := 1
            kind := if vn.type = .vDir then .dir else .file
            vnode := some h
            pos := if hasFlag flags oAppend then vn.size % 2 ^ 32 else 0
            flags := flags }
        (fd, {s with
          fds := fun i =>
            if i = task * 16 + fd then ⟨true, task, s.nextOpen⟩ else s.fds i
          opens := fun d => if d = s.nextOpen then desc else s.opens d
          nextOpen := s.nextOpen + 1})

/-- `vfs_open`, run without interruption. -/
def vfsOpen (s : State) (task : Nat) (path : Name) (flags : Nat) : Int × State :=
  if path = [] ∨ task ≥ 16 then (-1, s)
  else
    match kfsWalkPath s.fs path with
    | (.ok h, fs1) =>
      if hasFlag flags oTrunc then
        match fs1.vnode h with
        | none => (-1, {s with fs := fs1})
        | some vn =>
          if vn.type = .vDir then (-1, {s with fs := v4Release fs1 h})
          else openVnode {s with fs := (v4Truncate fs1 h 0).2} task h flags
      else openVnode {s with fs := fs1} task h flags
    | (.error rc, fs1) =>
      if hasFlag flags oCreat = false ∨ rc = .enotdir ∨ rc = .enametoolong then
        (-1, {s with fs := fs1})
      else
        match kfsWalkParent fs1 path with
        | (.error _, fs2) => (-1, {s with fs := fs2})
        | (.ok (parent, name), fs2) =>
          match v4Create fs2 parent name with
          | (.error _, fs3) => (-1, {s with fs := v4Release fs3 parent})
          | (.ok h, fs3) => openVnode {s with fs := v4Release fs3 parent} task h flags

/-- The file part of `vfs_write`, on description `d`. -/
def writeDesc (s : State) (d : Nat) (data : List UInt8) : Int × State :=
  let desc := s.opens d
  match desc.vnode with
  | none => (-1, s)
  | some h =>
    let size := match s.fs.vnode h with
      | some vn => vn.size
      | none => 0
    let pos := if hasFlag desc.flags oAppend then size % 2 ^ 32 else desc.pos
    let setPos (s' : State) (pos' : Nat) : State :=
      {s' with opens := fun i => if i = d then {desc with pos := pos'} else s'.opens i}
    match v4Write s.fs h pos (data.take 0x40000000) with
    | (.ok wrote, fs') => (wrote, setPos {s with fs := fs'} ((pos + wrote) % 2 ^ 32))
    | (.error _, fs') => (-1, setPos {s with fs := fs'} pos)

/-- `vfs_write`; `none` stands for what the terminal or a pipe returns. -/
def vfsWrite (s : State) (task fd : Nat) (data : List UInt8) : Option Int × State :=
  match resolveOpen s task fd with
  | none =>
    match slotOf task fd with
    | some i => if 1 ≤ fd ∧ fd ≤ 2 ∧ ¬ (s.fds i).used then (none, s) else (some (-1), s)
    | none => (some (-1), s)
  | some d =>
    let desc := s.opens d
    if ¬ hasFlag desc.flags (oWronly ||| oRdwr) then (some (-1), s)
    else
      match desc.kind with
      | .pipeWrite => (none, s)
      | .tty => (if fd = 0 then some (-1) else none, s)
      | .pipeRead | .dir => (some (-1), s)
      | .file =>
        let (r, s') := writeDesc s d data
        (some r, s')

def State.setPos (s : State) (d pos : Nat) : State :=
  {s with opens := fun i => if i = d then {s.opens d with pos := pos} else s.opens i}

/-- The file part of `vfs_read`, on description `d`; the second part are the
bytes in the buffer. -/
def readDesc (s : State) (d : Nat) (buf : Buf) (count : Nat) : Int × List UInt8 × State :=
  match (s.opens d).vnode with
  | none => (-1, [], s)
  | some h =>
    match v4Read s.fs h (s.opens d).pos buf (min count 0x40000000) with
    | .ok bytes => (bytes.length, bytes, s.setPos d (((s.opens d).pos + bytes.length) % 2 ^ 32))
    | .error _ => (-1, [], s)

/-- `vfs_read`; `none` stands for what the terminal or a pipe returns. -/
def vfsRead (s : State) (task fd : Nat) (buf : Buf) (count : Nat) :
    Option Int × List UInt8 × State :=
  match resolveOpen s task fd with
  | none =>
    match slotOf task fd with
    | some i => if fd = 0 ∧ ¬ (s.fds i).used then (none, [], s) else (some (-1), [], s)
    | none => (some (-1), [], s)
  | some d =>
    if hasFlag (s.opens d).flags oWronly then (some (-1), [], s)
    else
      match (s.opens d).kind with
      | .pipeRead | .tty => (none, [], s)
      | .pipeWrite | .dir => (some (-1), [], s)
      | .file =>
        let (r, bytes, s') := readDesc s d buf count
        (some r, bytes, s')

/-- `VFS_SEEK_CUR` and `VFS_SEEK_END`; every other value counts from the start. -/
def seekCur : Nat := 1
def seekEnd : Nat := 2

/-- `np` of `vfs_lseek`. -/
def seekTarget (s : State) (d : Nat) (offset : Int) (whence : Nat) : Int :=
  let base : Nat :=
    if whence = seekCur then (s.opens d).pos
    else if whence = seekEnd then ((s.opens d).vnode.bind s.fs.vnode).elim 0 Vnode.size
    else 0
  base + offset

def vfsLseek (s : State) (task fd : Nat) (offset : Int) (whence : Nat) : Int × State :=
  match resolveOpen s task fd with
  | none => (-1, s)
  | some d =>
    if (s.opens d).kind ≠ .file then (-1, s)
    else
      let np := seekTarget s d offset whence
      if np < 0 ∨ np ≥ 2 ^ 32 then (-1, s)
      else (if np < 2 ^ 31 then np else np - 2 ^ 32, s.setPos d np.toNat)

end Kyuzen.Vfs
