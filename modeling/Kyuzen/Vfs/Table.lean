import Kyuzen.Vfs.Fd
import Kyuzen.Vfs.Pipe

/-!
The descriptor table of `vfs_fd.c` with its reference-counted descriptions.
Each function is one `vfs_lock` critical section. What a call gets from
`kmalloc`, and what path resolution gives `vfs_open`, are arguments.
-/

namespace Kyuzen.Vfs

open Function

/-- `vfs_open_file_t` as the table sees it: the vnode, the path and the offset
play no part in its life time. -/
structure Desc where
  refcount : Nat
  kind : Kind
  flags : Nat
  pipe : Option Nat

/-- The side flags of `vfs_pipe_t`. -/
structure Ends where
  readers : Bool
  writers : Bool

def Ends.alive (e : Ends) : PipeEnd → Bool
  | .read => e.readers
  | .write => e.writers

def Ends.drop (e : Ends) : PipeEnd → Ends
  | .read => {e with readers := false}
  | .write => {e with writers := false}

/-- The side of a pipe that a kind of description stands for. -/
def Kind.side : Kind → Option PipeEnd
  | .pipeRead => some .read
  | .pipeWrite => some .write
  | _ => none

/-- The table, the descriptions and pipes on the heap, and the references that
calls in flight hold across a drop of `vfs_lock`. Addresses are not reused;
`fault` is set when a call touches an object that is not on the heap. -/
structure Table where
  fds : Nat → FdEntry
  heap : Nat → Option Desc
  pipes : Nat → Option Ends
  next : Nat
  temps : Nat → Nat
  fault : Bool

/-- `vfs_init`. -/
def Table.init : Table := ⟨fun _ => ⟨false, 0, 0⟩, fun _ => none, fun _ => none, 0, fun _ => 0, false⟩

namespace Table

def setFd (t : Table) (i : Nat) (e : FdEntry) : Table := {t with fds := update t.fds i e}

/-- `used = 0; open = NULL`. -/
def clearFd (t : Table) (i : Nat) : Table := t.setFd i {t.fds i with used := false}

def openGet (t : Table) (d : Nat) : Table :=
  match t.heap d with
  | none => {t with fault := true}
  | some desc =>
    {t with heap := update t.heap d (some {desc with refcount := desc.refcount + 1})}

/-- `pipe_end_closed`: the pipe goes with its second side. -/
def pipeEndClosed (t : Table) (q : Nat) (s : PipeEnd) : Table :=
  match t.pipes q with
  | none => {t with fault := true}
  | some ends =>
    let ends' := ends.drop s
    let dead := ends'.readers = false ∧ ends'.writers = false
    {t with pipes := update t.pipes q (if dead then none else some ends')}

def openPut (t : Table) (d : Nat) : Table :=
  match t.heap d with
  | none => {t with fault := true}
  | some desc =>
    if desc.refcount - 1 ≠ 0 then
      {t with heap := update t.heap d (some {desc with refcount := desc.refcount - 1})}
    else
      let t1 :=
        match desc.kind.side, desc.pipe with
        | some s, some q => t.pipeEndClosed q s
        | _, _ => t
      {t1 with heap := update t1.heap d none}

/-- `open_alloc`, when `kmalloc` succeeds. -/
def openAlloc (t : Table) (kind : Kind) (flags : Nat) (pipe : Option Nat) : Nat × Table :=
  (t.next, {t with
    heap := update t.heap t.next (some ⟨1, kind, flags, pipe⟩)
    next := t.next + 1})

def resolve (t : Table) (task fd : Nat) : Option Nat :=
  match slotOf task fd with
  | none => none
  | some i => if (t.fds i).used ∧ (t.fds i).owner = task then some i else none

def allocFd (t : Table) (task : Nat) : Option Nat :=
  (List.range 16).find? fun fd => !(t.fds (task * 16 + fd)).used

/-- `install_tty_locked`. -/
def installTty (t : Table) (task fd flags : Nat) (kmalloc : Bool) : Table :=
  match slotOf task fd with
  | none => t
  | some i =>
    if (t.fds i).used then t
    else if kmalloc = false then t
    else
      let (d, t1) := t.openAlloc .tty flags none
      t1.setFd i ⟨true, task, d⟩

def vfsTaskInit (t : Table) (task : Nat) (kmalloc : Nat → Bool) : Table :=
  if task ≥ 16 then t
  else
    let t1 := t.installTty task 0 0 (kmalloc 0)
    let t2 := t1.installTty task 1 oWronly (kmalloc 1)
    t2.installTty task 2 oWronly (kmalloc 2)

/-- `vfs_open` on a vnode that was opened, from `open_alloc` on. -/
def vfsOpen (t : Table) (task : Nat) (kind : Kind) (flags : Nat) (kmalloc : Bool) : Table :=
  if task ≥ 16 then t
  else if kmalloc = false then t
  else
    let (d, t1) := t.openAlloc kind flags none
    match t1.allocFd task with
    | none => {t1 with heap := update t1.heap d none}
    | some fd => t1.setFd (task * 16 + fd) ⟨true, task, d⟩

/-- `vfs_pipe`; `kmalloc` tells whether all four allocations succeed. Without
two free descriptors everything is released again. -/
def vfsPipe (t : Table) (task : Nat) (kmalloc : Bool) : Table :=
  if task ≥ 16 then t
  else if kmalloc = false then t
  else
    match (List.range 16).filter fun fd => !(t.fds (task * 16 + fd)).used with
    | rfd :: wfd :: _ =>
      let q := t.next
      let t1 := {t with pipes := update t.pipes q (some ⟨true, true⟩), next := t.next + 1}
      let (ro, t2) := t1.openAlloc .pipeRead 0 (some q)
      let (wo, t3) := t2.openAlloc .pipeWrite oWronly (some q)
      (t3.setFd (task * 16 + rfd) ⟨true, task, ro⟩).setFd (task * 16 + wfd) ⟨true, task, wo⟩
    | _ => t

/-- The loop of `vfs_inherit_stdio` over the descriptors of a list; `none` in
`spec` keeps the descriptor of the child. -/
def inheritLoop (child parent : Nat) (spec : Nat → Option Nat) : List Nat → Table → Int × Table
  | [], t => (0, t)
  | i :: rest, t =>
    match spec i with
    | none => inheritLoop child parent spec rest t
    | some fd =>
      match t.resolve parent fd, t.resolve child i with
      | some ps, some cs =>
        let src := (t.fds ps).open_
        let t1 := t.openGet src
        let old := (t1.fds cs).open_
        let t2 := t1.setFd cs {t1.fds cs with open_ := src}
        inheritLoop child parent spec rest (t2.openPut old)
      | _, _ => (-1, t)

def vfsInheritStdio (t : Table) (child parent : Nat) (spec : Nat → Option Nat) : Int × Table :=
  if child ≥ 16 ∨ parent ≥ 16 ∨ child = parent then (-1, t)
  else inheritLoop child parent spec [0, 1, 2] t

/-- The second pass of `vfs_fork_inherit`. -/
def forkLoop (child parent : Nat) : List Nat → Table → Table
  | [], t => t
  | i :: rest, t =>
    let pe := t.fds (parent * 16 + i)
    if pe.used ∧ pe.owner = parent then
      forkLoop child parent rest
        ((t.openGet pe.open_).setFd (child * 16 + i) ⟨true, child, pe.open_⟩)
    else forkLoop child parent rest t

def vfsForkInherit (t : Table) (child parent : Nat) : Int × Table :=
  if child ≥ 16 ∨ parent ≥ 16 ∨ child = parent then (-1, t)
  else if (List.range 16).any fun i => (t.fds (child * 16 + i)).used then (-1, t)
  else (0, forkLoop child parent (List.range 16) t)

def vfsClose (t : Table) (task fd : Nat) : Int × Table :=
  match t.resolve task fd with
  | none => (-1, t)
  | some i => (0, (t.clearFd i).openPut (t.fds i).open_)

/-- The loop of `vfs_close_all`. -/
def closeLoop (task : Nat) : List Nat → Table → Table
  | [], t => t
  | i :: rest, t =>
    let e := t.fds (task * 16 + i)
    if e.used then closeLoop task rest ((t.clearFd (task * 16 + i)).openPut e.open_)
    else closeLoop task rest t

def vfsCloseAll (t : Table) (task : Nat) : Table :=
  if task ≥ 16 then t else closeLoop task (List.range 16) t

def vfsDup (t : Table) (task old : Nat) : Int × Table :=
  match t.resolve task old with
  | none => (-1, t)
  | some os =>
    match t.allocFd task with
    | none => (-1, t)
    | some nfd =>
      let d := (t.fds os).open_
      (nfd, (t.openGet d).setFd (task * 16 + nfd) ⟨true, task, d⟩)

/-- `vfs_dup2`: the new reference is taken before the old one is released. -/
def vfsDup2 (t : Table) (task old new : Nat) : Int × Table :=
  match slotOf task new, t.resolve task old with
  | some ns, some os =>
    if old = new then (new, t)
    else
      let src := (t.fds os).open_
      let t1 := t.openGet src
      let t2 :=
        if (t1.fds ns).used then (t1.clearFd ns).openPut (t1.fds ns).open_ else t1
      (new, t2.setFd ns ⟨true, task, src⟩)
  | _, _ => (-1, t)

/-- The pin of `vfs_read` on a terminal or a pipe; `none` when there is none. -/
def readPins (t : Table) (task fd count : Nat) : Option Nat :=
  match t.resolve task fd with
  | none => none
  | some i =>
    match t.heap (t.fds i).open_ with
    | none => none
    | some desc =>
      if hasFlag desc.flags oWronly then none
      else
        match desc.kind with
        | .pipeRead => if count = 0 then none else some (t.fds i).open_
        | .tty => if fd ≠ 0 then none else some (t.fds i).open_
        | _ => none

/-- The pin of `vfs_write`. -/
def writePins (t : Table) (task fd count : Nat) : Option Nat :=
  match t.resolve task fd with
  | none => none
  | some i =>
    match t.heap (t.fds i).open_ with
    | none => none
    | some desc =>
      if ¬ hasFlag desc.flags (oWronly ||| oRdwr) then none
      else
        match desc.kind with
        | .pipeWrite => if count = 0 then none else some (t.fds i).open_
        | .tty => if fd = 0 then none else some (t.fds i).open_
        | _ => none

/-- `open_get` before the lock is dropped, and `open_put` after the I/O. -/
def ioBegin (t : Table) (d : Nat) : Table :=
  {t.openGet d with temps := update t.temps d (t.temps d + 1)}

def ioEnd (t : Table) (d : Nat) : Table :=
  {t with temps := update t.temps d (t.temps d - 1)}.openPut d

end Table

inductive TableOp where
  | taskInit (task : Nat) (kmalloc : Nat → Bool)
  | open_ (task : Nat) (kind : Kind) (flags : Nat) (kmalloc : Bool)
  | pipe (task : Nat) (kmalloc : Bool)
  | dup (task old : Nat)
  | dup2 (task old new : Nat)
  | close (task fd : Nat)
  | closeAll (task : Nat)
  | inheritStdio (child parent : Nat) (spec : Nat → Option Nat)
  | forkInherit (child parent : Nat)
  | readBegin (task fd count : Nat)
  | writeBegin (task fd count : Nat)
  | ioEnd (d : Nat)

/-- One critical section. `vfs_open` makes descriptions of files and
directories only, and only a call in flight comes back with `ioEnd`. -/
inductive TableStep : Table → TableOp → Table → Prop where
  | taskInit (t : Table) (task : Nat) (kmalloc : Nat → Bool) :
      TableStep t (.taskInit task kmalloc) (t.vfsTaskInit task kmalloc)
  | open_ (t : Table) (task : Nat) {kind : Kind} (hkind : kind = .file ∨ kind = .dir) (flags : Nat)
      (kmalloc : Bool) : TableStep t (.open_ task kind flags kmalloc) (t.vfsOpen task kind flags kmalloc)
  | pipe (t : Table) (task : Nat) (kmalloc : Bool) :
      TableStep t (.pipe task kmalloc) (t.vfsPipe task kmalloc)
  | dup (t : Table) (task old : Nat) : TableStep t (.dup task old) (t.vfsDup task old).2
  | dup2 (t : Table) (task old new : Nat) :
      TableStep t (.dup2 task old new) (t.vfsDup2 task old new).2
  | close (t : Table) (task fd : Nat) : TableStep t (.close task fd) (t.vfsClose task fd).2
  | closeAll (t : Table) (task : Nat) : TableStep t (.closeAll task) (t.vfsCloseAll task)
  | inheritStdio (t : Table) (child parent : Nat) (spec : Nat → Option Nat) :
      TableStep t (.inheritStdio child parent spec) (t.vfsInheritStdio child parent spec).2
  | forkInherit (t : Table) (child parent : Nat) :
      TableStep t (.forkInherit child parent) (t.vfsForkInherit child parent).2
  | readBegin {t : Table} {task fd count d : Nat} (h : t.readPins task fd count = some d) :
      TableStep t (.readBegin task fd count) (t.ioBegin d)
  | writeBegin {t : Table} {task fd count d : Nat} (h : t.writePins task fd count = some d) :
      TableStep t (.writeBegin task fd count) (t.ioBegin d)
  | ioEnd {t : Table} {d : Nat} (h : 0 < t.temps d) : TableStep t (.ioEnd d) (t.ioEnd d)

end Kyuzen.Vfs
