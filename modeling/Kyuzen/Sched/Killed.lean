import Kyuzen.Sched.Still

/-!
Kills and the targets that block: `proc_kill` sets `kill_pending` in one section
and wakes the target in a later one, and the target looks at the flag when a
system call starts and ends, before it parks in a wait queue, and after it wakes.
-/

namespace Kyuzen.Sched

open Function

/-- Where a task is on its way through a blocking system call. -/
inductive Phase where
  /-- In ring 3. -/
  | user
  /-- In a system call, past the check at its entry. -/
  | inside
  /-- In `wait_block_impl`, between `block_prepare` and the look at the flag. -/
  | prepared
  /-- On the way into `block_park`, or in it. -/
  | parked
  /-- In `proc_exit_kill` or `proc_exit`. -/
  | leaving
  deriving DecidableEq, Repr

/-- `owed t` while the `proc_kill` that set the flag of `t` has not made its call
of `unblock_task`. -/
structure Kills where
  sched : State
  phase : Nat → Phase
  owed : Nat → Bool

inductive KillOp where
  /-- A section of the scheduler that is neither `block_prepare` nor an exit. -/
  | sched (op : Op)
  | trap (cpu : Nat)
  | prepare (cpu : Nat) (timed : Bool)
  | full (cpu : Nat)
  | look (cpu : Nat) (killable : Bool)
  | resume (cpu : Nat)
  | ret (cpu : Nat)
  | quit (cpu : Nat)
  | observe (cpu : Nat)
  | exit (cpu : Nat) (code : Int) (reason : Nat)
  | finish (pid : Nat)

namespace Kills

def setPhase (k : Kills) (t : Nat) (p : Phase) : Kills :=
  {k with phase := update k.phase t p}

/-- `if (kill_pending) proc_exit_kill()`, else on to `p`. -/
def check (k : Kills) (t : Nat) (p : Phase) : Kills :=
  k.setPhase t (if (k.sched.tasks t).killPending then .leaving else p)

def inPhase (k : Kills) (cpu : Nat) (p : Phase) : Option Nat :=
  match k.sched.current cpu with
  | none => none
  | some t => if k.phase t = p then some t else none

/-- A section of the scheduler. A slot with a new occupant starts in ring 3, and
a kill that sets the flag owes the wakeup. -/
def run (k : Kills) (op : Op) : Kills where
  sched := exec k.sched op
  phase t := if (exec k.sched op).gen t ≠ k.sched.gen t then .user else k.phase t
  owed t := if (exec k.sched op).tasks t |>.killPending then
      if (k.sched.tasks t).killPending then k.owed t else true
    else false

def exec (k : Kills) : KillOp → Kills
  | .sched op =>
    match op with
    | .blockPrepare _ _ | .exit _ _ _ => k
    | op => k.run op
  | .trap cpu =>
    match k.inPhase cpu .user with
    | none => k
    | some t => k.check t .inside
  | .prepare cpu timed =>
    match k.inPhase cpu .inside with
    | none => k
    | some t =>
      if t < k.sched.taskCount ∧ (k.sched.tasks t).state = .running then
        {k with sched := k.sched.blockPrepare cpu timed}.setPhase t
          (if timed then .parked else .prepared)
      else k
  | .full cpu =>
    match k.inPhase cpu .prepared with
    | none => k
    | some t => {k with sched := k.sched.unblockTask t}.setPhase t .inside
  | .look cpu killable =>
    match k.inPhase cpu .prepared with
    | none => k
    | some t =>
      if (k.sched.tasks t).killPending ∧ killable then
        {k with sched := k.sched.unblockTask t}.setPhase t .leaving
      else k.check t .parked
  | .resume cpu =>
    match k.inPhase cpu .parked with
    | none => k
    | some t => if (k.sched.tasks t).state = .running then k.check t .inside else k
  | .ret cpu =>
    match k.inPhase cpu .inside with
    | none => k
    | some t => k.check t .user
  | .quit cpu =>
    match k.inPhase cpu .inside with
    | none => k
    | some t => k.setPhase t .leaving
  | .observe cpu =>
    match k.inPhase cpu .user with
    | none => k
    | some t => if (k.sched.tasks t).state = .running then k.check t .user else k
  | .exit cpu code reason =>
    match k.inPhase cpu .leaving with
    | none => k
    | some t => {k with sched := k.sched.procDoExit cpu code reason}.setPhase t .user
  | .finish pid =>
    if pid < 16 ∧ .unblock pid ∈ k.sched.calls then
      {k with sched := k.sched.unblockPending pid, owed := update k.owed pid false}
    else k

end Kills

/-! ### What a section does to sleepers and flags -/

namespace AllCalm

variable {s s' s'' : State}

theorem settle (s : State) (slot : Nat) {x : Task} (hx : x.state = .ready ∨ x.state = .dead)
    (hflag : x.killPending = false) : AllCalm s (s.setTask slot fun _ => x) := by
  refine setTask s slot (.awake (fun ha => ?_) fun h => ?_)
  · rcases hx with hx | hx <;> rcases ha with ha | ha <;> rw [hx] at ha <;> cases ha
  · exact nomatch hflag.symm.trans h

theorem occupy (s : State) (slot : Nat) {x : Task} (c : Nat → Call) (hx : x.state = .ready)
    (hflag : x.killPending = false) : AllCalm s (s.occupy slot x c) :=
  (settle s slot (.inl hx) hflag).trans (of_tasks rfl)

theorem abandon (s : State) (maker : Maker) (t : Nat) : AllCalm s (s.abandon maker t) :=
  setTask s t (.awake (fun h => h.elim (nomatch ·) (nomatch ·)) id)

theorem reparent (s : State) (id : Nat) : AllCalm s (s.reparent id) := by
  intro t
  unfold State.reparent
  dsimp only
  split
  · exact ⟨fun h => h, fun h => h⟩
  · exact .refl _

theorem procTransition {id : Nat} {code : Int} {reason : Nat}
    (h : s.procTransition id code reason = some s') : AllCalm s s' := by
  unfold State.procTransition at h
  split at h
  · cases h
  split at h
  · cases h
  · injection h with h
    subst h
    refine (reparent s id).trans (setTask _ id (.awake (fun ha => ?_) nofun))
    rcases ha with ha | ha <;> dsimp only at ha <;> split at ha <;> cases ha

theorem reap (s : State) (t : Nat) : AllCalm s (s.reap t) :=
  setTask s t (.awake (fun h => h.elim (nomatch ·) (nomatch ·)) nofun)

theorem procDoExit (s : State) (cpu : Nat) (code : Int) (reason : Nat) :
    AllCalm s (s.procDoExit cpu code reason) := by
  unfold State.procDoExit
  split
  · exact refl s
  · split
    · exact refl s
    next s1 htrans => exact (procTransition htrans).trans (of_tasks rfl)

end AllCalm

variable {t : Nat} {s : State} {k : Kills}

theorem asleep_setFlag (s : State) (pid t : Nat) :
    ((s.setTask pid fun x => {x with killPending := true}).tasks t).Asleep ↔ (s.tasks t).Asleep := by
  by_cases ht : t = pid
  · subst ht
    rw [setTask_self]
    rfl
  · rw [setTask_of_ne s ht]

theorem asleep_procKill {cpu pid : Nat} (h : ((s.procKill cpu pid).tasks t).Asleep) :
    (s.tasks t).Asleep := by
  revert h
  fun_cases State.procKill
  all_goals try exact id
  exact (asleep_setFlag s pid t).mp

theorem AllCalm.made {op : Op} {s' : State} (hm : Made s op s') : AllCalm s s' := by
  cases hm with
  | nothing => exact .of_tasks rfl
  | counted slot s1 halloc => exact .of_tasks (allocSlot_frame halloc).2.1
  | occupied slot s1 x c halloc hx hflag =>
    have hslot : AllCalm s s1 := .of_tasks (allocSlot_frame halloc).2.1
    exact hslot.trans (.occupy s1 slot c hx hflag)
  | undone slot s1 x halloc hx hflag =>
    have hslot : AllCalm s s1 := .of_tasks (allocSlot_frame halloc).2.1
    exact hslot.trans (.settle s1 slot (.inr hx) hflag)
  | forged u gen rsp =>
    have hleave : AllCalm s (s.leave (.forge u gen)) := .of_tasks rfl
    exact (hleave.trans (.saveFrame _ u rsp)).trans (.of_tasks rfl)
  | pushed maker u gen target now s1 hcall htarget hpush =>
    have hleave : AllCalm s (s.leave (.create maker u gen)) := .of_tasks rfl
    exact (hleave.trans (.runqPush hpush)).trans (.of_tasks rfl)
  | unpushed => exact .of_tasks rfl
  | abandoned k maker u =>
    have hleave : AllCalm s (s.leave k) := .of_tasks rfl
    exact hleave.trans (.abandon _ maker u)

/-- The sections that may put a task to sleep or set a flag. -/
def Op.stirs : Op → Bool
  | .blockPrepare .. | .unblockRepark _ | .kill .. | .killFinish _ => true
  | _ => false

theorem exec_calm (s : State) {op : Op} (hop : op.stirs = false) : AllCalm s (exec s op) := by
  cases op with
  | schedule online cpu regs now => exact (Still.scheduleOnCpu s online cpu regs now).calm
  | setWakeAt cpu target => exact (Still.setWakeAt s cpu target).calm
  | unblock u => exact (Still.unblockTask s u).calm
  | unblockPush u target now => exact (Still.unblockPush s u target now).calm
  | sleepqCheckWakeups now => exact .of_tasks rfl
  | unblockPending u => exact (Still.unblockPending s u).calm
  | createTaskPrio | createUserTask | taskFork | forkForge | createPush | createFail
  | createReclaim => exact .made (exec_made s rfl)
  | exit cpu code reason => exact .procDoExit s cpu code reason
  | waitpid cpu pid =>
    rcases procWaitpid_cases s cpu pid with ⟨u, -, heq⟩ | ⟨heq, -⟩
    · simp only [exec, heq]
      exact .reap s u
    · simp only [exec, heq]
      exact .refl s
  | blockPrepare | unblockRepark | kill | killFinish => cases hop

theorem procKillFinish_cases (s : State) (pid : Nat) :
    AllCalm s (s.procKillFinish pid) ∨ (s.tasks pid).state ≠ .ready ∧
      ∃ calls, s.procKillFinish pid =
        {s.setTask pid fun x => {x with killPending := true} with calls := calls} := by
  unfold State.procKillFinish
  split
  · have hleave : AllCalm s (s.leave (.purge pid)) := .of_tasks rfl
    dsimp only
    split
    · exact .inl hleave
    split
    next hstate => exact .inr ⟨hstate, _, rfl⟩
    · left
      cases htrans : (s.leave (.purge pid)).procTransition pid procKillExitCode procExitKilled with
      | none => exact hleave
      | some s1 => exact hleave.trans (.procTransition htrans)
  · exact .inl (.refl s)

/-- Only `block_prepare` and a push that finds its queue full put a task to sleep. -/
theorem asleep_exec {op : Op} (hprep : ∀ cpu timed, op ≠ .blockPrepare cpu timed)
    (hfull : op ≠ .unblockRepark t) (h : ((exec s op).tasks t).Asleep) : (s.tasks t).Asleep := by
  cases op with
  | blockPrepare cpu timed => exact absurd rfl (hprep cpu timed)
  | unblockRepark u =>
    have hne : t ≠ u := fun heq => hfull (by rw [heq])
    simp only [exec, State.unblockRepark] at h
    split at h
    · split at h
      · rw [State.setState, setTask_of_ne _ hne] at h
        exact h
      · exact h
    · exact h
  | kill cpu pid => exact asleep_procKill h
  | killFinish pid =>
    rcases procKillFinish_cases s pid with hcalm | ⟨-, calls, heq⟩
    · exact (hcalm t).asleep h
    · rw [exec, heq] at h
      exact (asleep_setFlag s pid t).mp h
  | _ => exact (exec_calm s rfl t).asleep h

/-- The section is one of a kill of task `t`. -/
def Op.Kills (t : Nat) : Op → Prop
  | .kill _ pid | .killFinish pid => pid = t
  | _ => False

theorem flag_setFlag {pid : Nat} (h : ((s.setTask pid fun x =>
    {x with killPending := true}).tasks t).killPending = true) :
    (s.tasks t).killPending = true ∨ pid = t := by
  by_cases ht : t = pid
  · exact .inr ht.symm
  · rw [setTask_of_ne s ht] at h
    exact .inl h

theorem flag_setState (s : State) (u : Nat) (st : TaskState) :
    ((s.setState u st).tasks t).killPending = (s.tasks t).killPending := by
  by_cases ht : t = u
  · rw [ht, State.setState, setTask_self]
  · rw [State.setState, setTask_of_ne s ht]

theorem flag_exec {op : Op} (h : ((exec s op).tasks t).killPending = true) :
    (s.tasks t).killPending = true ∨ op.Kills t ∧ (s.tasks t).state ≠ .ready := by
  cases op with
  | blockPrepare cpu timed =>
    left
    simp only [exec, State.blockPrepare] at h
    split at h
    · exact h
    · split_ifs at h <;> first | exact h | rwa [flag_setState] at h
  | unblockRepark u =>
    left
    simp only [exec, State.unblockRepark] at h
    split_ifs at h <;> first | exact h | exact (flag_setState ..).symm.trans h
  | kill cpu pid =>
    revert h
    simp only [exec]
    fun_cases State.procKill
    all_goals try exact .inl
    next hstate =>
      intro h
      refine (flag_setFlag h).imp_right ?_
      rintro rfl
      exact ⟨rfl, hstate⟩
  | killFinish pid =>
    rcases procKillFinish_cases s pid with hcalm | ⟨hstate, calls, heq⟩
    · exact .inl ((hcalm t).flag h)
    · rw [exec, heq] at h
      refine (flag_setFlag h).imp_right ?_
      rintro rfl
      exact ⟨rfl, hstate⟩
  | _ => exact .inl ((exec_calm s rfl t).flag h)

theorem unblockTask_awake (s : State) (ht : t < 16) : ¬ ((s.unblockTask t).tasks t).Asleep := by
  unfold State.unblockTask
  rw [if_neg (by omega)]
  split
  next hst => exact fun ha => ha.elim hst.1 hst.2
  split
  · intro ha
    rw [Task.Asleep, setState_self] at ha
    rcases ha with ha | ha <;> cases ha
  · intro ha
    rw [Task.Asleep, State.enter, setState_self] at ha
    rcases ha with ha | ha <;> cases ha

/-! ### Runs -/

/-- A kill whose call has finished has woken its target. -/
def Kills.Woken (k : Kills) : Prop :=
  ∀ t, (k.sched.tasks t).killPending = true → k.owed t = false → ¬ (k.sched.tasks t).Asleep

/-- No task with its flag set is past the check at the entry of a system call. -/
def Kills.Outside (k : Kills) : Prop :=
  ∀ t, (k.sched.tasks t).killPending = true → k.phase t ≠ .inside

/-- The condition of a step: a kill does not set the flag of a task that is past a check and
not yet in `block_prepare`, no wait queue is full for a task with its flag set, and the push of
such a task finds room. -/
def KillOp.Timely (k : Kills) : KillOp → Prop
  | .sched (.kill _ pid) | .sched (.killFinish pid) =>
    k.phase pid = .inside → (k.sched.tasks pid).state = .ready
  | .sched (.unblockRepark t) => (k.sched.tasks t).killPending = true → k.owed t = true
  | .full cpu => ∀ t, k.inPhase cpu .prepared = some t → (k.sched.tasks t).killPending = false
  | _ => True

namespace Kills.Outside

variable {k : Kills} (hk : k.Outside)
include hk

theorem setPhase {s' : State} (hflag : ∀ u, (s'.tasks u).killPending = true →
    (k.sched.tasks u).killPending = true) (t : Nat) {p : Phase}
    (hp : p = .inside → (s'.tasks t).killPending = false) :
    Kills.Outside ({k with sched := s'}.setPhase t p) := by
  intro u hu
  by_cases hut : u = t
  · subst hut
    change update k.phase u p u ≠ .inside
    rw [update_self]
    intro hinside
    cases (hp hinside).symm.trans hu
  · change update k.phase t p u ≠ .inside
    rw [update_of_ne hut]
    exact hk u (hflag u hu)

/-- The check keeps a task with its flag set out. -/
theorem check (t : Nat) (p : Phase) : (k.check t p).Outside := by
  refine hk.setPhase (fun _ h => h) t fun hp => ?_
  by_contra hflag
  rw [if_pos (Bool.eq_true_of_not_eq_false hflag)] at hp
  cases hp

theorem run {op : Op}
    (hop : ∀ t, op.Kills t → k.phase t = .inside → (k.sched.tasks t).state = .ready) :
    (k.run op).Outside := by
  intro t hflag hinside
  have hphase : k.phase t = .inside := by
    simp only [Kills.run] at hinside
    split at hinside
    · cases hinside
    · exact hinside
  rcases flag_exec hflag with hbefore | ⟨hkill, hstate⟩
  · exact hk t hbefore hphase
  · exact hstate (hop t hkill hphase)

end Kills.Outside

namespace Kills.Woken

variable {k : Kills}

section
variable (hk : k.Woken)
include hk

theorem calm {s' : State} (hcalm : AllCalm k.sched s') (phase : Nat → Phase) :
    Kills.Woken ⟨s', phase, k.owed⟩ :=
  fun t hflag howed ha => hk t ((hcalm t).flag hflag) howed ((hcalm t).asleep ha)

theorem setPhase (t : Nat) (p : Phase) : (k.setPhase t p).Woken := hk

theorem run {op : Op} (hprep : ∀ cpu timed, op ≠ .blockPrepare cpu timed)
    (hfull : ∀ t, op = .unblockRepark t → (k.sched.tasks t).killPending = true → k.owed t = true) :
    (k.run op).Woken := by
  intro t hflag howed ha
  have howed' : (if (Sched.exec k.sched op).tasks t |>.killPending then
      if (k.sched.tasks t).killPending then k.owed t else true else false) = false := howed
  have hflag' : ((Sched.exec k.sched op).tasks t).killPending = true := hflag
  rw [if_pos hflag'] at howed'
  split at howed'
  next hbefore =>
    refine hk t hbefore howed' (asleep_exec hprep (fun heq => ?_) ha)
    rw [hfull t heq hbefore] at howed'
    cases howed'
  · cases howed'

theorem unblock (t : Nat) (p : Phase) :
    ({k with sched := k.sched.unblockTask t}.setPhase t p).Woken :=
  (hk.calm (Still.unblockTask k.sched t).calm k.phase).setPhase t p

theorem prepare {cpu t : Nat} (timed : Bool) (hcur : k.sched.current cpu = some t)
    (hflag : (k.sched.tasks t).killPending = true → k.owed t = true) :
    Kills.Woken {k with sched := k.sched.blockPrepare cpu timed} := by
  intro u hu howed ha
  simp only [State.blockPrepare, hcur] at hu ha
  split_ifs at hu ha
  · exact hk u hu howed ha
  · exact hk u hu howed ha
  all_goals
    by_cases hut : u = t
    · subst hut
      rw [State.setState, setTask_self] at hu
      have hpaid := hflag hu
      rw [show k.owed u = false from howed] at hpaid
      cases hpaid
    · rw [State.setState, setTask_of_ne _ hut] at hu ha
      exact hk u hu howed ha

theorem finish {pid : Nat} (hpid : pid < 16) (hcall : .unblock pid ∈ k.sched.calls) :
    Kills.Woken {k with
      sched := k.sched.unblockPending pid, owed := update k.owed pid false} := by
  intro t hflag howed ha
  by_cases ht : t = pid
  · subst ht
    have heq : k.sched.unblockPending t = (k.sched.leave (.unblock t)).unblockTask t := if_pos hcall
    rw [heq] at ha
    exact unblockTask_awake _ hpid ha
  · have howed' : k.owed t = false := by
      rw [← howed]
      exact (update_of_ne ht _ _).symm
    have hcalm := (Still.unblockPending k.sched pid).calm t
    exact hk t (hcalm.flag hflag) howed' (hcalm.asleep ha)

end

end Kills.Woken

theorem Kills.of_inPhase {cpu : Nat} {p : Phase} (h : k.inPhase cpu p = some t) :
    k.sched.current cpu = some t ∧ k.phase t = p := by
  unfold Kills.inPhase at h
  split at h
  · cases h
  next u hu =>
    split at h
    next hp =>
      cases h
      exact ⟨hu, hp⟩
    · cases h

theorem Kills.Outside.exec {op : KillOp} (hk : k.Outside) (hop : op.Timely k) :
    (k.exec op).Outside := by
  fun_cases Kills.exec k op
  all_goals try first | exact hk | exact hk.check _ _
  next op hprep hexit =>
    refine hk.run fun t hkill => ?_
    cases op with
    | kill cpu pid | killFinish pid =>
      cases hkill
      exact hop
    | _ => cases hkill
  next cpu timed t hat _ =>
    refine hk.setPhase (fun u hu => ?_) t fun hp => ?_
    · change ((Sched.exec k.sched (.blockPrepare cpu timed)).tasks u).killPending = true at hu
      exact (flag_exec hu).resolve_right fun h => h.1
    · split at hp <;> cases hp
  next t hat =>
    have hcalm := (Still.unblockTask k.sched t).calm
    refine hk.setPhase (fun u => (hcalm u).flag) t fun _ => ?_
    by_contra hflag
    cases (hop t hat).symm.trans ((hcalm t).flag (Bool.eq_true_of_not_eq_false hflag))
  next t _ _ =>
    exact hk.setPhase (fun u => ((Still.unblockTask k.sched t).calm u).flag) t fun hp => by cases hp
  next t _ => exact hk.setPhase (fun _ h => h) t fun hp => by cases hp
  next cpu code reason t _ =>
    exact hk.setPhase (fun u => (AllCalm.procDoExit k.sched cpu code reason u).flag) t
      fun hp => by cases hp
  next pid _ => exact fun u hu => hk u (((Still.unblockPending k.sched pid).calm u).flag hu)

theorem Kills.Woken.exec {op : KillOp} (hk : k.Woken) (hout : k.Outside) (hop : op.Timely k) :
    (k.exec op).Woken := by
  fun_cases Kills.exec k op
  -- phases alone do not matter: what is left are the steps that change the scheduler
  all_goals try exact hk
  next hprep hexit =>
    refine hk.run hprep fun t heq => ?_
    subst heq
    exact hop
  next timed t hat _ =>
    obtain ⟨hcur, hinside⟩ := Kills.of_inPhase hat
    exact (hk.prepare timed hcur fun hflag => absurd hinside (hout t hflag)).setPhase _ _
  next => exact hk.unblock _ _
  next => exact hk.unblock _ _
  next cpu code reason t _ =>
    exact (hk.calm (.procDoExit k.sched cpu code reason) k.phase).setPhase _ _
  next hcall => exact hk.finish hcall.1 hcall.2

def Kills.init : Kills := ⟨Sched.init, fun _ => .user, fun _ => false⟩

def KillStep (k : Kills) (op : KillOp) (k' : Kills) : Prop := k' = k.exec op ∧ op.Timely k

/-- A task whose flag was set by a kill that has finished runs or is ready,
unless it has ended. -/
def Kills.Converging (k : Kills) (t : Nat) : Prop :=
  (k.sched.tasks t).killPending = true → k.owed t = false →
    (k.sched.tasks t).state = .running ∨ (k.sched.tasks t).state = .ready ∨
      (k.sched.tasks t).state = .zombie ∨ (k.sched.tasks t).state = .dead

/-- In every run in which no kill finds its target past its check and on the way to
`block_prepare`, no finished kill leaves its target BLOCKED or SLEEPING. -/
theorem no_kill_lost {ops : List KillOp} {k : Kills} (hrun : Run KillStep Kills.init ops k) (t : Nat) :
    k.Converging t := by
  have hnone : ∀ u, (Sched.init.tasks u).killPending ≠ true := by
    intro u
    unfold Sched.init
    dsimp only
    split <;> exact Bool.false_ne_true
  have hk : k.Woken ∧ k.Outside := by
    refine hrun.invariant (I := fun k => k.Woken ∧ k.Outside) ?_
      ⟨fun u hflag => absurd hflag (hnone u), fun u hflag => absurd hflag (hnone u)⟩
    rintro k op _ ⟨hwoken, hout⟩ ⟨rfl, hop⟩
    exact ⟨hwoken.exec hout hop, hout.exec hop⟩
  intro hflag howed
  have hawake := hk.1 t hflag howed
  rw [Task.Asleep] at hawake
  cases hst : (k.sched.tasks t).state <;> simp_all

def enterCall : List KillOp :=
  [.sched (.createUserTask 0 64 64 64), .sched (.createPush .user 1 1 1 0),
    .sched (.schedule 2 1 1 0), .trap 1]

def Kills.runAll (ops : List KillOp) : Kills := ops.foldl Kills.exec Kills.init

/-- The target is killed while it sleeps. -/
def killedAsleep : List KillOp := enterCall ++ [.prepare 1 true, .sched (.kill 0 1), .finish 1]

theorem no_kill_lost_asleep :
    ((Kills.runAll killedAsleep).sched.tasks 1).killPending = true ∧
      (Kills.runAll killedAsleep).owed 1 = false ∧ (Kills.runAll killedAsleep).Converging 1 := by
  have hrun : Run KillStep Kills.init killedAsleep (Kills.runAll killedAsleep) :=
    .cons ⟨rfl, trivial⟩ (.cons ⟨rfl, trivial⟩ (.cons ⟨rfl, trivial⟩ (.cons ⟨rfl, trivial⟩
      (.cons ⟨rfl, trivial⟩ (.cons ⟨rfl, fun h => absurd h (by decide +kernel)⟩
      (.cons ⟨rfl, trivial⟩ (.nil _)))))))
  exact ⟨by decide +kernel, by decide +kernel, no_kill_lost hrun 1⟩

/-- The target is killed past the check at the entry of its system call. -/
def killedInside : List KillOp := enterCall ++ [.sched (.kill 0 1), .finish 1]

/-- Past the check at the entry of its system call the target is killed, and
then it sleeps. -/
theorem kill_lost_in_sleep :
    ((Kills.runAll (killedInside ++ [.prepare 1 true])).sched.tasks 1).killPending = true ∧
      (Kills.runAll (killedInside ++ [.prepare 1 true])).owed 1 = false ∧
      ((Kills.runAll (killedInside ++ [.prepare 1 true])).sched.tasks 1).state = .sleeping ∧
      ((Kills.runAll (killedInside ++ [.prepare 1 false])).sched.tasks 1).state = .blocked := by
  decide +kernel

end Kyuzen.Sched
