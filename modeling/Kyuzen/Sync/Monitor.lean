import Kyuzen.Sched.Core

/-!
Mutexes and semaphores of `sync.c` over the wait queues of `wait.c`. The lock of
the wait queue guards the object, so each stretch of code under it is one
step. Of the scheduler the model keeps, per task, its state, whether it sits on
a CPU, its kill flag and whether it is inside `wait_block_locked`.
-/

namespace Kyuzen.Sync

open Kyuzen.Sched (TaskState)

/-- An object that tasks wait for: how much of it can be had, and what taking and
giving back do. Giving back makes at most one more available. -/
structure Resource (σ : Type) where
  avail : σ → Int
  take : Nat → σ → σ
  release : σ → σ
  avail_take : ∀ t s, 0 < avail s → avail (take t s) ≤ avail s - 1
  avail_release : ∀ s, avail (release s) ≤ max (avail s) 0 + 1

/-- `mutex_t` without its wait queue. -/
structure Mutex where
  locked : Bool
  owner : Int
  deriving DecidableEq

def mutex : Resource Mutex where
  avail m := if m.locked then 0 else 1
  take t _ := ⟨true, t⟩
  release _ := ⟨false, -1⟩
  avail_take t m h := by
    rcases m with ⟨_ | _, _⟩
    · simp
    · simp at h
  avail_release m := by rcases m with ⟨_ | _, _⟩ <;> simp

/-- `semaphore_t` is its count. -/
def semaphore : Resource Int where
  avail n := n
  take _ n := n - 1
  release n := n + 1
  avail_take _ _ _ := Int.le_refl _
  avail_release n := by
    have := Int.le_max_left n 0
    omega

structure Waiter where
  state : TaskState
  onCpu : Bool
  waiting : Bool
  killPending : Bool

structure Monitor (σ : Type) where
  res : σ
  wq : List Nat
  task : Nat → Waiter

namespace Monitor

variable {σ : Type} (r : Resource σ) (m : Monitor σ) (t : Nat)

def setTask (w : Waiter) : Monitor σ := {m with task := Function.update m.task t w}

/-- `unblock_task`. -/
def unblock : Monitor σ :=
  if (m.task t).state = .blocked then
    m.setTask t {m.task t with state := if (m.task t).onCpu then .running else .ready}
  else m

/-- `proc_exit_kill`, or the end of a task that is killed when ready. -/
def terminate : Monitor σ :=
  m.setTask t {state := .dead, onCpu := false, waiting := false, killPending := false}

/-- `wait_block_impl` up to the park. A full queue undoes the block, and the
caller finds the object busy again. -/
def waitBlock : Monitor σ :=
  if m.wq.length ≥ 16 then m
  else if (m.task t).killPending then m.terminate t
  else {m with wq := m.wq ++ [t]}.setTask t {m.task t with state := .blocked, waiting := true}

/-- `mutex_lock` and `semaphore_wait`, to the park or the end. -/
def lock : Monitor σ :=
  if t < 16 ∧ (m.task t).state = .running ∧ (m.task t).waiting = false then
    if 0 < r.avail m.res then {m with res := r.take t m.res} else m.waitBlock t
  else m

/-- `mutex_trylock` and `semaphore_trywait`. -/
def tryLock : Monitor σ :=
  if (m.task t).state = .running ∧ (m.task t).waiting = false ∧ 0 < r.avail m.res then
    {m with res := r.take t m.res}
  else m

/-- A task that waits runs again: `wait_block_impl` after the park, and the next
check of the caller's loop. -/
def relock : Monitor σ :=
  if (m.task t).state = .running ∧ (m.task t).waiting = true then
    if (m.task t).killPending then {m with wq := m.wq.erase t}.terminate t
    else if 0 < r.avail m.res then
      {m with res := r.take t m.res}.setTask t {m.task t with waiting := false}
    else m.waitBlock t
  else m

/-- `mutex_unlock` and `semaphore_post`. -/
def release : Monitor σ :=
  match m.wq with
  | [] => {m with res := r.release m.res}
  | id :: rest => {m with res := r.release m.res, wq := rest}.unblock id

/-- The deciding section of `proc_kill`. Its `unblock_task` comes later, without a look at the
flag, and so do those of timers and sockets: `unblock` is a step of its own. -/
def kill : Monitor σ :=
  if (m.task t).state = .dead ∨ (m.task t).state = .zombie ∨ (m.task t).killPending then m
  else if (m.task t).state = .ready then m.terminate t
  else m.setTask t {m.task t with killPending := true}

def deschedule : Monitor σ :=
  match (m.task t).state with
  | .running => m.setTask t {m.task t with state := .ready, onCpu := false}
  | .blocked => m.setTask t {m.task t with onCpu := false}
  | _ => m

def dispatch : Monitor σ :=
  if (m.task t).state = .ready then
    m.setTask t {m.task t with state := .running, onCpu := true}
  else m

def exit : Monitor σ :=
  if (m.task t).state = .running ∧ (m.task t).waiting = false then m.terminate t else m

/-- The slot of a task that has ended is given to a new one. -/
def spawn : Monitor σ :=
  if (m.task t).state = .dead then m.setTask t ⟨.ready, false, false, false⟩ else m

end Monitor

inductive MonitorOp where
  | lock (t : Nat)
  | tryLock (t : Nat)
  | relock (t : Nat)
  | release
  | kill (t : Nat)
  | unblock (t : Nat)
  | deschedule (t : Nat)
  | dispatch (t : Nat)
  | exit (t : Nat)
  | spawn (t : Nat)

def Monitor.exec {σ : Type} (r : Resource σ) (m : Monitor σ) : MonitorOp → Monitor σ
  | .lock t => m.lock r t
  | .tryLock t => m.tryLock r t
  | .relock t => m.relock r t
  | .release => m.release r
  | .kill t => m.kill t
  | .unblock t => m.unblock t
  | .deschedule t => m.deschedule t
  | .dispatch t => m.dispatch t
  | .exit t => m.exit t
  | .spawn t => m.spawn t

def Monitor.start {σ : Type} (res : σ) : Monitor σ :=
  {res := res, wq := [], task := fun _ => ⟨.ready, false, false, false⟩}

end Kyuzen.Sync
