import Kyuzen.Sched.Single
import Kyuzen.Vfs.Refcount
import Kyuzen.Net.Socket
import Kyuzen.Gfx.KwmInv
import Kyuzen.Mm.Shm

/-!
What a task owns, and the three ways it ends: `proc_exit` and `proc_exit_kill`
run `proc_do_exit` in the task itself, and `proc_kill` ends a task that is ready
from outside. Each path is a list of sections, one for each subsystem, before
the section that changes the state of the task.
-/

namespace Kyuzen.Proc

open Sched Mm Function

/-- The indices of a queue of `event.c`; the events themselves are not followed. -/
structure EventQueue where
  head : Nat
  tail : Nat

def eventQueueSize : Nat := 64

inductive Cleanup where
  | closeAll
  | sockets
  | events
  | windows
  | shm
  deriving DecidableEq, Repr

/-- The sections of `proc_do_exit`. -/
def exitCleanups : List Cleanup := [.closeAll, .sockets, .events, .windows, .shm]

/-- The sections of `proc_kill` for a target that is ready. -/
def killCleanups : List Cleanup := [.closeAll, .sockets, .events, .windows]

/-- A `proc_kill` between its two scheduler sections, with the cleanups ahead. -/
structure Kill where
  pid : Nat
  ahead : List Cleanup
  deriving DecidableEq

/-- The scheduler with the subsystems. `regions` are the nodes of the user heap,
`exits` the tasks inside `proc_do_exit` with the sections ahead of them. `ended`
marks a slot whose last occupant ended on one of the three paths. -/
structure World where
  sched : Sched.State
  vfs : Vfs.Table
  socks : Net.Socks
  windows : Gfx.Kwm
  events : Nat → EventQueue
  shm : Shm
  regions : Nat → List Nat
  exits : Nat → Option (List Cleanup)
  kills : List Kill
  ended : Nat → Bool

/-! ### Calls of a running task -/

/-- `push_event_to`; a full queue loses its oldest event. -/
def EventQueue.push (q : EventQueue) : EventQueue :=
  let next := (q.head + 1) % eventQueueSize
  ⟨next, if next = q.tail then (q.tail + 1) % eventQueueSize else q.tail⟩

def EventQueue.pop (q : EventQueue) : EventQueue :=
  if q.head = q.tail then q else ⟨q.head, (q.tail + 1) % eventQueueSize⟩

/-- The calls that give the task something or take it away. -/
inductive Act where
  | vfsOpen (kind : Vfs.Kind) (flags : Nat) (kmalloc : Bool)
  | vfsPipe (kmalloc : Bool)
  | vfsDup (old : Nat)
  | vfsDup2 (old new : Nat)
  | vfsClose (fd : Nat)
  | ksockSocket (cookie : Nat) (pcb : Option Nat)
  | ksockClose (h : Int) (cookie : Nat)
  | kwmCreateWindow (x y : Int) (width height : Nat) (canvas : Bool)
  | kwmCreateDesktop (mode : Nat × Nat) (canvas : Bool)
  | kwmDestroyWindow (id : Int)
  | popEvent
  | shmCreateBegin (valid : Bool)
  | shmCreateEnd (i width height : Nat) (ok : Bool)
  | shmMap (h : ShmHandle) (write : Bool)
  | shmMapFail (i : Nat)
  | shmUnmap (i : Nat)
  | shmPublish (h : ShmHandle) (x y w hh : Int)
  | shmDestroy (h : ShmHandle)
  | shmAcquire (h : ShmHandle)
  | shmRelease (h : ShmHandle)
  | uheapAlloc (base : Nat)
  | uheapFree (base : Nat)

namespace World

def act (w : World) (t : Nat) : Act → World
  | .vfsOpen kind flags kmalloc => {w with vfs := w.vfs.vfsOpen t kind flags kmalloc}
  | .vfsPipe kmalloc => {w with vfs := w.vfs.vfsPipe t kmalloc}
  | .vfsDup old => {w with vfs := (w.vfs.vfsDup t old).2}
  | .vfsDup2 old new => {w with vfs := (w.vfs.vfsDup2 t old new).2}
  | .vfsClose fd => {w with vfs := (w.vfs.vfsClose t fd).2}
  | .ksockSocket cookie pcb => {w with socks := (w.socks.ksockSocket t cookie pcb).1}
  | .ksockClose h cookie => {w with socks := (w.socks.ksockClose h t cookie).1}
  | .kwmCreateWindow x y width height canvas =>
    {w with windows := (w.windows.kwmCreateWindow t x y width height canvas).1}
  | .kwmCreateDesktop mode canvas =>
    {w with windows := (w.windows.kwmCreateDesktop t mode canvas).1}
  | .kwmDestroyWindow id => {w with windows := (w.windows.kwmDestroyWindow id).1}
  | .popEvent => {w with events := update w.events t (w.events t).pop}
  | .shmCreateBegin valid => {w with shm := (w.shm.createBegin t valid).2}
  | .shmCreateEnd i width height ok => {w with shm := w.shm.createEnd t i width height ok}
  | .shmMap h write => {w with shm := (w.shm.map t h write).2}
  | .shmMapFail i => {w with shm := w.shm.mapFail t i}
  | .shmUnmap i => {w with shm := (w.shm.unmap t i).2}
  | .shmPublish h x y wd hh => {w with shm := (w.shm.publish t h x y wd hh).2}
  | .shmDestroy h => {w with shm := (w.shm.destroy t h).2}
  | .shmAcquire h => {w with shm := (w.shm.acquire t h).2}
  | .shmRelease h => {w with shm := (w.shm.release t h).2}
  | .uheapAlloc base => {w with regions := update w.regions t (base :: w.regions t)}
  | .uheapFree base => {w with regions := update w.regions t ((w.regions t).erase base)}

def cleanup (w : World) (t : Nat) : Cleanup → World
  | .closeAll => {w with vfs := w.vfs.vfsCloseAll t}
  | .sockets => {w with socks := w.socks.netProcessCleanup t}
  | .events => {w with events := update w.events t ⟨0, 0⟩}
  | .windows => {w with windows := (w.windows.kwmDestroyWindowsOf t).1}
  | .shm => {w with shm := w.shm.taskExit t}

end World

/-! ### Steps -/

/-- The descriptors that a maker gives a new task: `vfs_task_init`,
`vfs_inherit_stdio` or `vfs_fork_inherit`. -/
inductive Equip where
  | taskInit (kmalloc : Nat → Bool)
  | stdio (parent : Nat) (spec : Nat → Option Nat)
  | fork (parent : Nat)

inductive WorldOp where
  /-- A section of the scheduler other than those of the termination paths. -/
  | sched (op : Op)
  /-- A call of the current task of a CPU. -/
  | act (cpu : Nat) (a : Act)
  /-- A maker gives a task its descriptors. -/
  | equip (k : Call) (t gen : Nat) (e : Equip)
  /-- An interrupt handler routes an event to a task. -/
  | pushEvent (t : Nat)
  | exitBegin (cpu : Nat)
  | exitCleanup (cpu : Nat)
  | exit (cpu : Nat) (code : Int) (reason : Nat)
  | kill (cpu pid : Nat)
  | killCleanup (k : Kill)
  | killFinish (pid : Nat)

/-- `proc_kill` takes the branch for a target that is ready. -/
def killsReady (s : State) (cpu pid : Nat) : Prop :=
  pid < 16 ∧ s.mayKill cpu pid = true ∧ s.current cpu ≠ some pid ∧
    (s.tasks pid).killPending = false ∧ (s.tasks pid).state = .ready

instance (s : State) (cpu pid : Nat) : Decidable (killsReady s cpu pid) := by
  unfold killsReady
  infer_instance

/-- The section gives slot `t` a new occupant. -/
def replaces (s : State) (op : Op) (t : Nat) : Bool :=
  match op with
  | .createTaskPrio _ _ _ _ => s.allocSlot.any fun r => r.1 = t
  | .createUserTask cpu _ _ _ => s.allocSlot.any fun r => r.1 = t && (r.2.creator cpu).isSome
  | .taskFork cpu _ _ _ =>
    s.allocSlot.any (fun r => r.1 = t) && (s.current cpu).any fun p =>
      decide (¬ (p ≥ 16 ∨ (s.tasks p).pml4Phys = 0 ∨ (s.tasks p).state ≠ .running))
  | _ => false

namespace World

def onEnds (w : World) (t : Nat) : World :=
  {w with regions := update w.regions t [], ended := update w.ended t true,
          exits := update w.exits t none}

def ends (s s' : State) (t : Nat) : Bool :=
  decide ((s.tasks t).state.life = .live) && decide ((s'.tasks t).state.life ≠ .live)

def equip (w : World) (t : Nat) : Equip → World
  | .taskInit kmalloc => {w with vfs := w.vfs.vfsTaskInit t kmalloc}
  | .stdio parent spec => {w with vfs := (w.vfs.vfsInheritStdio t parent spec).2}
  | .fork parent => {w with vfs := (w.vfs.vfsForkInherit t parent).2}

/-- The user heap of a new task: a fork copies that of its parent. -/
def newHeap (w : World) : Op → List Nat
  | .taskFork cpu _ _ true => (w.sched.current cpu).elim [] w.regions
  | _ => []

/-- A scheduler section. The makers reset the user heap and the event queue of
the slot. -/
def section_ (w : World) (op : Op) : World :=
  {w with
    sched := Sched.exec w.sched op
    regions := fun t => if replaces w.sched op t then w.newHeap op else w.regions t
    events := fun t => if replaces w.sched op t then ⟨0, 0⟩ else w.events t
    exits := fun t => if replaces w.sched op t then none else w.exits t
    ended := fun t => if replaces w.sched op t then false else w.ended t}

/-- The files of a child that could not be queued are closed with it. -/
def schedStep (w : World) (op : Op) : World :=
  match op with
  | .createReclaim maker t gen =>
    if .reclaim maker t gen ∈ w.sched.calls ∧ maker ≠ .kernel then
      (w.section_ op).cleanup t .closeAll
    else w.section_ op
  | op => w.section_ op

def exec (w : World) : WorldOp → World
  | .sched op =>
    match op with
    | .exit _ _ _ | .kill _ _ | .killFinish _ => w
    | op => w.schedStep op
  | .act cpu a =>
    match w.sched.current cpu with
    | none => w
    | some t =>
      if (w.sched.tasks t).state = .running ∧ w.exits t = none then w.act t a else w
  | .equip k t gen e =>
    if k ∈ w.sched.calls ∧ k.making = some (t, gen) then w.equip t e else w
  | .pushEvent t =>
    if t < 16 then {w with events := update w.events t (w.events t).push} else w
  | .exitBegin cpu =>
    match w.sched.current cpu with
    | none => w
    | some t =>
      if w.exits t = none then {w with exits := update w.exits t (some exitCleanups)}
      else w
  | .exitCleanup cpu =>
    match w.sched.current cpu with
    | none => w
    | some t =>
      match w.exits t with
      | some (c :: rest) =>
        {w.cleanup t c with exits := update w.exits t (some rest)}
      | _ => w
  | .exit cpu code reason =>
    match w.sched.current cpu with
    | none => w
    | some t =>
      if w.exits t = some [] then
        let s := w.sched.procDoExit cpu code reason
        if ends w.sched s t then {w with sched := s}.onEnds t else {w with sched := s}
      else w
  | .kill cpu pid =>
    {w with sched := w.sched.procKill cpu pid
            kills := if killsReady w.sched cpu pid then ⟨pid, killCleanups⟩ :: w.kills
              else w.kills}
  | .killCleanup k =>
    match k.ahead with
    | c :: rest =>
      if k ∈ w.kills then
        {w.cleanup k.pid c with kills := ⟨k.pid, rest⟩ :: w.kills.erase k}
      else w
    | [] => w
  | .killFinish pid =>
    if ⟨pid, []⟩ ∈ w.kills then
      let s := w.sched.procKillFinish pid
      let w1 := {w with sched := s, kills := w.kills.erase ⟨pid, []⟩}
      if ends w.sched s pid then w1.onEnds pid else w1
    else w

/-- After `tasking_init` and the other initialisations. -/
def init : World where
  sched := Sched.init
  vfs := Vfs.Table.init
  socks := Net.Socks.init
  windows := Gfx.Kwm.init
  events _ := ⟨0, 0⟩
  shm := ⟨fun _ => ⟨false, false, false, false, 0, 0, 0, 0, [], []⟩, 1⟩
  regions _ := []
  exits _ := none
  kills := []
  ended _ := false

def Owns (w : World) (t : Nat) : Cleanup → Prop
  | .closeAll => ∃ i < 256, i / 16 = t ∧ (w.vfs.fds i).used = true
  | .sockets => ∃ i, w.socks.OwnedBy t i
  | .events => (w.events t).head ≠ (w.events t).tail
  | .windows => ∃ i, w.windows.isActive i ∧ (w.windows.wins i).ownerTask = t
  | .shm => w.shm.Traces t

structure Released (w : World) (t : Nat) : Prop where
  tables : ∀ c, ¬ w.Owns t c
  regions : w.regions t = []
  stack : (w.sched.tasks t).stackBase = 0
  space : (w.sched.tasks t).pml4Phys = 0

end World

def WorldStep (w : World) (op : WorldOp) (w' : World) : Prop := w' = w.exec op

end Kyuzen.Proc
