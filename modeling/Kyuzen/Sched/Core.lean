import Kyuzen.Base.Bag
import Kyuzen.Base.Run

/-!
The task table, the per-CPU run queues and the processes of `core.c`,
`runqueue.c`, `block.c`, `lifecycle.c` and `proc.c`. Each critical section of
`scheduler_lock` is one function, and so is each push that takes only the lock
of its run queue. A call that leaves such a section and has more to do is kept
in `calls` until it goes on; it may never do so, when its task is killed.
Stacks, frames and address spaces are addresses here, 0 for none.
-/

namespace Kyuzen.Sched

open List Function

inductive TaskState where
  | ready
  | running
  | sleeping
  | dead
  | blocked
  | zombie
  deriving DecidableEq, Repr

inductive TaskKind where
  | kernel
  | spawned
  deriving DecidableEq, Repr

structure Task where
  state : TaskState
  rsp : Nat
  stackBase : Nat
  pml4Phys : Nat
  wakeAtMs : Nat
  priority : Nat
  enqueueMs : Nat
  kind : TaskKind
  uid : Nat
  parentId : Int
  exitCode : Int
  exitReason : Nat
  killPending : Bool

def maxTasks : Nat := 16
def prioNormal : Nat := 1
def procNoParent : Int := -1
def procKillExitCode : Int := 125
def procExitNormal : Nat := 0
def procExitKilled : Nat := 1

/-- Who makes a task: `create_task_prio`, `create_user_task` or `task_fork`. -/
inductive Maker where
  | kernel
  | user
  | fork
  deriving DecidableEq, Repr

/-- A call between two of its critical sections. `wake` is `unblock_task` before
its push and `repark` after a failed one, `forge` is `task_fork` before the
frame is built, `create` and `reclaim` are the makers before and after their
push, `purge` is `proc_kill` between its two sections, and `unblock` is a call
of `unblock_task` that is still to be made. -/
inductive Call where
  | wake (t : Nat)
  | repark (t : Nat)
  | forge (t gen : Nat)
  | create (maker : Maker) (t gen : Nat)
  | reclaim (maker : Maker) (t gen : Nat)
  | purge (t : Nat)
  | unblock (t : Nat)
  deriving DecidableEq, Repr

/-- The state. `gen` counts the incarnations of a slot and `pushed` is the last
one that its maker has put in a run queue; the code keeps neither. -/
structure State where
  tasks : Nat → Task
  taskCount : Nat
  current : Nat → Option Nat
  queues : Nat → List Nat
  calls : List Call
  gen : Nat → Nat
  pushed : Nat → Nat

namespace State

def setTask (s : State) (t : Nat) (f : Task → Task) : State :=
  {s with tasks := update s.tasks t (f (s.tasks t))}

def setState (s : State) (t : Nat) (st : TaskState) : State :=
  s.setTask t fun x => {x with state := st}

def saveFrame (s : State) (t regs : Nat) : State := s.setTask t fun x => {x with rsp := regs}

def setCurrent (s : State) (cpu : Nat) (t : Option Nat) : State :=
  {s with current := update s.current cpu t}

def setQueue (s : State) (cpu : Nat) (entries : List Nat) : State :=
  {s with queues := update s.queues cpu entries}

def enter (s : State) (c : Call) : State := {s with calls := c :: s.calls}

def leave (s : State) (c : Call) : State := {s with calls := s.calls.erase c}

/-! ### Run queues -/

/-- `effective_prio`: the bonus is cut to 32 bits before it is capped. -/
def effectivePrio (s : State) (t now : Nat) : Nat :=
  let enq := (s.tasks t).enqueueMs
  let waited := if now > enq then now - enq else 0
  let bonus := waited / 100 % 2 ^ 32
  (s.tasks t).priority + if bonus > 8 then 8 else bonus

def runqPush (s : State) (cpu t now : Nat) : Option State :=
  if (s.queues cpu).length ≥ 16 then none
  else some ((s.setTask t fun x => {x with enqueueMs := now}).setQueue cpu (s.queues cpu ++ [t]))

/-- The scan of `runq_pop`: highest effective priority, then longest wait. -/
def bestIndex (s : State) (now : Nat) (entries : List Nat) : Nat :=
  (range' 1 (entries.length - 1)).foldl (fun best i =>
    let t := entries.getD i 0
    let b := entries.getD best 0
    if s.effectivePrio t now > s.effectivePrio b now ∨
        (s.effectivePrio t now = s.effectivePrio b now ∧
          (s.tasks t).enqueueMs < (s.tasks b).enqueueMs) then i
    else best) 0

def runqPop (s : State) (cpu now : Nat) : Option (Nat × State) :=
  let best := s.bestIndex now (s.queues cpu)
  match (s.queues cpu)[best]? with
  | none => none
  | some t => some (t, s.setQueue cpu (swapRemove (s.queues cpu) best))

/-- `steal_task`, from the longest queue of another CPU. -/
def stealTask (s : State) (online cpu now : Nat) : Option (Nat × State) :=
  let victim := (range (min online 16)).foldl (fun (v : Option Nat) i =>
    if i = cpu then v
    else if (s.queues i).length > (v.elim 0 fun j => (s.queues j).length) then some i
    else v) none
  match victim with
  | none => none
  | some v => s.runqPop v now

def schedulerRemoveTask (s : State) (t : Nat) : State :=
  {s with queues := fun c => if c < 16 then purge t (s.queues c) else s.queues c}

/-! ### `schedule_on_cpu` -/

/-- What the current task of a CPU is to the scheduler. -/
inductive Cur where
  | gone
  | running (t : Nat)
  | blocked (t : Nat)

def curOf (s : State) (cpu : Nat) : Cur :=
  match s.current cpu with
  | none => .gone
  | some t =>
    if t < s.taskCount then
      match (s.tasks t).state with
      | .running => .running t
      | .sleeping | .blocked => .blocked t
      | _ => .gone
    else .gone

/-- A dead or invalid task gives the CPU up. -/
def relinquish (s : State) (cur : Cur) (cpu : Nat) : State :=
  match cur with
  | .gone => s.setCurrent cpu none
  | _ => s

def pickNext (s : State) (online cpu now : Nat) : Option (Nat × State) :=
  match s.runqPop cpu now with
  | some r => some r
  | none => s.stealTask online cpu now

def dispatch (s : State) (cpu t : Nat) : State := (s.setState t .running).setCurrent cpu (some t)

def switchTo (s : State) (cur : Cur) (cpu next regs now : Nat) : State :=
  match cur with
  | .gone => s.dispatch cpu next
  | .blocked t => (s.saveFrame t regs).dispatch cpu next
  | .running t =>
    let s1 := (s.saveFrame t regs).setState t .ready
    match s1.runqPush cpu t now with
    | some s2 => s2.dispatch cpu next
    | none =>
      let s2 := s1.setState t .running
      (s2.runqPush cpu next now).getD s2

def scheduleOnCpu (s : State) (online cpu regs now : Nat) : State :=
  if cpu ≥ 16 ∨ regs = 0 then s
  else if s.taskCount = 0 then s
  else
    let cur := s.curOf cpu
    let s1 := s.relinquish cur cpu
    match s1.pickNext online cpu now with
    | none =>
      match cur with
      | .blocked t => s1.saveFrame t regs
      | _ => s1
    | some (next, s2) =>
      -- a stale entry is dropped and the current task keeps the CPU
      if next ≥ s2.taskCount ∨ (s2.tasks next).state ≠ .ready ∨ (s2.tasks next).rsp = 0 then s2
      else s2.switchTo cur cpu next regs now

/-! ### Blocking -/

def blockPrepare (s : State) (cpu : Nat) (timed : Bool) : State :=
  match s.current cpu with
  | none => s
  | some self =>
    if self ≥ s.taskCount then s
    else if (s.tasks self).state ≠ .running then s
    else s.setState self (if timed then .sleeping else .blocked)

/-- The section of `task_sleep_ms` before it blocks. -/
def setWakeAt (s : State) (cpu target : Nat) : State :=
  match s.current cpu with
  | none => s
  | some self =>
    if self ≥ s.taskCount then s else s.setTask self fun x => {x with wakeAtMs := target}

/-- `unblock_task` up to its push. -/
def unblockTask (s : State) (t : Nat) : State :=
  if t ≥ 16 then s
  else if (s.tasks t).state ≠ .sleeping ∧ (s.tasks t).state ≠ .blocked then s
  else
    let s1 := s.setTask t fun x => {x with wakeAtMs := 0}
    if (range 16).any fun c => s.current c = some t then s1.setState t .running
    else (s1.setState t .ready).enter (.wake t)

/-- The push of `unblock_task`, to the CPU that `pick_target_cpu` gave. -/
def unblockPush (s : State) (t target now : Nat) : State :=
  if .wake t ∈ s.calls ∧ target < 16 then
    match (s.leave (.wake t)).runqPush target t now with
    | some s1 => s1
    | none => (s.leave (.wake t)).enter (.repark t)
  else s

def unblockRepark (s : State) (t : Nat) : State :=
  if .repark t ∈ s.calls then
    let s1 := s.leave (.repark t)
    if (s1.tasks t).state = .ready then s1.setState t .blocked else s1
  else s

/-- The sleepers that `sleepq_check_wakeups` finds due. -/
def dueSleepers (s : State) (now : Nat) : List Nat :=
  (range (min 16 s.taskCount)).filter fun t =>
    (s.tasks t).state = .sleeping ∧ (s.tasks t).wakeAtMs ≠ 0 ∧ now ≥ (s.tasks t).wakeAtMs

def sleepqCheckWakeups (s : State) (now : Nat) : State :=
  {s with calls := (s.dueSleepers now).map .unblock ++ s.calls}

/-- A pending call of `unblock_task` is made. -/
def unblockPending (s : State) (t : Nat) : State :=
  if .unblock t ∈ s.calls then (s.leave (.unblock t)).unblockTask t else s

/-! ### Creation -/

/-- The slot search: the first dead slot from 1 on, else a new one. -/
def allocSlot (s : State) : Option (Nat × State) :=
  match (range' 1 (s.taskCount - 1)).find? fun i => (s.tasks i).state = .dead with
  | some i => some (i, s)
  | none => if s.taskCount < 16 then some (s.taskCount, {s with taskCount := s.taskCount + 1}) else none

/-- The new occupant of a slot, not yet in a run queue. -/
def occupy (s : State) (slot : Nat) (x : Task) (c : Nat → Call) : State :=
  ({s.setTask slot fun _ => x with
    gen := update s.gen slot (s.gen slot + 1)}).enter (c (s.gen slot + 1))

/-- `smp_current_task_id` when it names a task of the table. -/
def creator (s : State) (cpu : Nat) : Option Nat :=
  match s.current cpu with
  | none => none
  | some p => if p < s.taskCount then some p else none

def createTaskPrio (s : State) (cpu priority rsp stack : Nat) : State :=
  match s.allocSlot with
  | none => s
  | some (slot, s1) =>
    let old := s1.tasks slot
    s1.occupy slot
      {state := .ready, rsp := rsp, stackBase := stack, pml4Phys := 0, wakeAtMs := 0,
        priority := priority, enqueueMs := old.enqueueMs, kind := .kernel,
        uid := (s1.creator cpu).elim 0 fun p => (s1.tasks p).uid,
        parentId := (s1.creator cpu).elim procNoParent fun p => p,
        exitCode := 0, exitReason := procExitNormal, killPending := false}
      (.create .kernel slot)

/-- `create_user_task` gives up without a creator, with the slot count already
raised. -/
def createUserTask (s : State) (cpu rsp stack pml4 : Nat) : State :=
  match s.allocSlot with
  | none => s
  | some (slot, s1) =>
    match s1.creator cpu with
    | none => s1
    | some p =>
      let old := s1.tasks slot
      s1.occupy slot
        {state := .ready, rsp := rsp, stackBase := stack, pml4Phys := pml4, wakeAtMs := 0,
          priority := prioNormal, enqueueMs := old.enqueueMs, kind := .spawned,
          uid := (s1.tasks p).uid, parentId := p, exitCode := 0,
          exitReason := procExitNormal, killPending := false}
        (.create .user slot)

/-- `task_fork` of the current task, up to the frame of the child. Without
memory for the heap list the slot is dead again. -/
def taskFork (s : State) (cpu stack childAs : Nat) (uheapOk : Bool) : State :=
  match s.current cpu with
  | none => s
  | some p =>
    if p ≥ 16 ∨ (s.tasks p).pml4Phys = 0 ∨ (s.tasks p).state ≠ .running then s
    else
      match s.allocSlot with
      | none => s
      | some (slot, s1) =>
        let old := s1.tasks slot
        let child : Task :=
          {state := .ready, rsp := 0, stackBase := stack, pml4Phys := childAs, wakeAtMs := 0,
            priority := prioNormal, enqueueMs := old.enqueueMs, kind := .spawned,
            uid := (s1.tasks p).uid, parentId := p, exitCode := 0,
            exitReason := procExitNormal, killPending := false}
        if uheapOk then s1.occupy slot child (.forge slot)
        else s1.setTask slot fun _ => {child with state := .dead, stackBase := 0}

def forkForge (s : State) (t gen rsp : Nat) : State :=
  if .forge t gen ∈ s.calls then
    ((s.leave (.forge t gen)).saveFrame t rsp).enter (.create .fork t gen)
  else s

def createPush (s : State) (maker : Maker) (t gen target now : Nat) : State :=
  if .create maker t gen ∈ s.calls ∧ target < 16 then
    match (s.leave (.create maker t gen)).runqPush target t now with
    | some s1 => {s1 with pushed := update s1.pushed t gen}
    | none => (s.leave (.create maker t gen)).enter (.reclaim maker t gen)
  else s

/-- The slot is given up; `create_task_prio` leaves the stack pointer behind. -/
def abandon (s : State) (maker : Maker) (t : Nat) : State :=
  s.setTask t fun x => {x with
    state := .dead
    rsp := 0
    stackBase := if maker = .kernel then x.stackBase else 0}

/-- The child cannot inherit its descriptors. -/
def createFail (s : State) (maker : Maker) (t gen : Nat) : State :=
  if .create maker t gen ∈ s.calls ∧ maker ≠ .kernel then
    (s.leave (.create maker t gen)).abandon maker t
  else s

def createReclaim (s : State) (maker : Maker) (t gen : Nat) : State :=
  if .reclaim maker t gen ∈ s.calls then (s.leave (.reclaim maker t gen)).abandon maker t else s

/-! ### Termination -/

def reparent (s : State) (id : Nat) : State :=
  {s with tasks := fun i =>
    if i < min 16 s.taskCount ∧ (s.tasks i).state ≠ .dead ∧ (s.tasks i).parentId = id then
      {s.tasks i with parentId := if id ≠ 0 then 0 else procNoParent}
    else s.tasks i}

def waitingParent (s : State) (p : Int) : Bool :=
  decide (0 < p ∧ p < s.taskCount) && decide ((s.tasks p.toNat).state ≠ .dead) &&
    decide ((s.tasks p.toNat).state ≠ .zombie)

/-- `proc_transition_locked`; `none` when the task has ended before. -/
def procTransition (s : State) (id : Nat) (code : Int) (reason : Nat) : Option State :=
  if id ≥ s.taskCount then none
  else if (s.tasks id).state = .zombie ∨ (s.tasks id).state = .dead then none
  else
    let s1 := s.reparent id
    let zombie := s1.waitingParent (s1.tasks id).parentId
    some (s1.setTask id fun x => {x with
      state := if zombie then .zombie else .dead
      stackBase := 0
      pml4Phys := 0
      rsp := 0
      wakeAtMs := 0
      killPending := false
      exitCode := code
      exitReason := reason
      parentId := if zombie then x.parentId else procNoParent})

/-- The section of `proc_do_exit`. -/
def procDoExit (s : State) (cpu : Nat) (code : Int) (reason : Nat) : State :=
  match s.current cpu with
  | none => s
  | some self =>
    match s.procTransition self code reason with
    | none => s
    | some s1 => s1.setCurrent cpu none

def procCanKill (isRoot : Bool) (caller : Option Nat) (parent : Int) (target : Nat)
    (spawned alive : Bool) : Bool :=
  if !alive || !spawned then false
  else if caller = some target then true
  else if isRoot then true
  else
    match caller with
    | none => false
    | some c => parent = c

def mayKill (s : State) (cpu pid : Nat) : Bool :=
  let x := s.tasks pid
  let isRoot := (s.creator cpu).elim true fun p => (s.tasks p).uid = 0
  decide (pid < s.taskCount) && procCanKill isRoot (s.current cpu) x.parentId pid
    (decide (x.kind = .spawned)) (decide (x.state ≠ .dead) && decide (x.state ≠ .zombie))

/-- `proc_kill` up to the end of the section that decides. The section before
it makes the same check and sends a task that kills itself to `proc_exit_kill`,
whose section is a step of its own. -/
def procKill (s : State) (cpu pid : Nat) : State :=
  if pid ≥ 16 ∨ s.mayKill cpu pid = false then s
  else if s.current cpu = some pid then s
  else if (s.tasks pid).killPending then s
  else if (s.tasks pid).state = .ready then (s.schedulerRemoveTask pid).enter (.purge pid)
  else (s.setTask pid fun x => {x with killPending := true}).enter (.unblock pid)

/-- The second section of a kill that found its target ready. -/
def procKillFinish (s : State) (pid : Nat) : State :=
  if .purge pid ∈ s.calls then
    let s1 := s.leave (.purge pid)
    if pid ≥ s1.taskCount ∨ (s1.tasks pid).state = .zombie ∨ (s1.tasks pid).state = .dead then s1
    else if (s1.tasks pid).state ≠ .ready then
      (s1.setTask pid fun x => {x with killPending := true}).enter (.unblock pid)
    else (s1.procTransition pid procKillExitCode procExitKilled).getD s1
  else s

inductive WaitResult where
  | noChild
  | noneExited
  | reaped (t : Nat) (status : Int)

/-- The child of a pass of `proc_waitpid`, `none` for `PROC_WAIT_ANY`. -/
def waitTarget (s : State) (self : Nat) (pid : Option Nat) : Option Nat :=
  match pid with
  | none => (range (min 16 s.taskCount)).find? fun i =>
    (s.tasks i).parentId = self ∧ (s.tasks i).state = .zombie
  | some i =>
    if i < min 16 s.taskCount ∧ (s.tasks i).parentId = self ∧ (s.tasks i).state = .zombie then some i
    else none

def haveChild (s : State) (self : Nat) (pid : Option Nat) : Bool :=
  (range (min 16 s.taskCount)).any fun i =>
    decide ((s.tasks i).state ≠ .dead ∧ (s.tasks i).parentId = self) && pid.all (· == i)

def reap (s : State) (t : Nat) : State :=
  s.setTask t fun x => {x with
    state := .dead
    parentId := procNoParent
    rsp := 0
    exitReason := procExitNormal
    killPending := false}

/-- One pass of `proc_waitpid`, from the current task of a CPU. -/
def procWaitpid (s : State) (cpu : Nat) (pid : Option Nat) : WaitResult × State :=
  match s.current cpu with
  | none => (.noChild, s)
  | some self =>
    if self ≥ 16 ∨ s.haveChild self pid = false then (.noChild, s)
    else
      match s.waitTarget self pid with
      | none => (.noneExited, s)
      | some t =>
        (.reaped t (s.tasks t).exitCode, s.reap t)

end State

/-! ### Runs -/

/-- The sections, with the CPU that runs each and what it gets from outside:
the clock, the number of CPUs that are up, frames, stacks and address spaces. -/
inductive Op where
  | schedule (online cpu regs now : Nat)
  | blockPrepare (cpu : Nat) (timed : Bool)
  | setWakeAt (cpu target : Nat)
  | unblock (t : Nat)
  | unblockPush (t target now : Nat)
  | unblockRepark (t : Nat)
  | sleepqCheckWakeups (now : Nat)
  | unblockPending (t : Nat)
  | createTaskPrio (cpu priority rsp stack : Nat)
  | createUserTask (cpu rsp stack pml4 : Nat)
  | taskFork (cpu stack childAs : Nat) (uheapOk : Bool)
  | forkForge (t gen rsp : Nat)
  | createPush (maker : Maker) (t gen target now : Nat)
  | createFail (maker : Maker) (t gen : Nat)
  | createReclaim (maker : Maker) (t gen : Nat)
  | exit (cpu : Nat) (code : Int) (reason : Nat)
  | kill (cpu pid : Nat)
  | killFinish (pid : Nat)
  | waitpid (cpu : Nat) (pid : Option Nat)

def exec (s : State) : Op → State
  | .schedule online cpu regs now => s.scheduleOnCpu online cpu regs now
  | .blockPrepare cpu timed => s.blockPrepare cpu timed
  | .setWakeAt cpu target => s.setWakeAt cpu target
  | .unblock t => s.unblockTask t
  | .unblockPush t target now => s.unblockPush t target now
  | .unblockRepark t => s.unblockRepark t
  | .sleepqCheckWakeups now => s.sleepqCheckWakeups now
  | .unblockPending t => s.unblockPending t
  | .createTaskPrio cpu priority rsp stack => s.createTaskPrio cpu priority rsp stack
  | .createUserTask cpu rsp stack pml4 => s.createUserTask cpu rsp stack pml4
  | .taskFork cpu stack childAs uheapOk => s.taskFork cpu stack childAs uheapOk
  | .forkForge t gen rsp => s.forkForge t gen rsp
  | .createPush maker t gen target now => s.createPush maker t gen target now
  | .createFail maker t gen => s.createFail maker t gen
  | .createReclaim maker t gen => s.createReclaim maker t gen
  | .exit cpu code reason => s.procDoExit cpu code reason
  | .kill cpu pid => s.procKill cpu pid
  | .killFinish pid => s.procKillFinish pid
  | .waitpid cpu pid => (s.procWaitpid cpu pid).2

/-- `tasking_init`. -/
def deadTask : Task :=
  {state := .dead, rsp := 0, stackBase := 0, pml4Phys := 0, wakeAtMs := 0, priority := prioNormal,
    enqueueMs := 0, kind := .kernel, uid := 0, parentId := procNoParent, exitCode := 0,
    exitReason := procExitNormal, killPending := false}

def init : State :=
  {tasks := fun t => if t = 0 then {deadTask with state := .running} else deadTask
   taskCount := 1
   current := fun c => if c = 0 then some 0 else none
   queues := fun _ => []
   calls := []
   gen := fun _ => 0
   pushed := fun _ => 0}

end Kyuzen.Sched
