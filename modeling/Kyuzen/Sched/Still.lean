import Kyuzen.Sched.Ownership

/-!
What a section leaves alone. A quiet one makes no task and ends none, one that
is `Kept` touches no stack and no address space, and a calm one puts no task to
sleep. The dispatcher and the sections that wake tasks are all three, which is
proved once, as `Still`.
-/

namespace Kyuzen.Sched

open List State

variable {st : TaskState}

/-! ### Incarnations -/

inductive Life where
  | live
  | zombie
  | dead
  deriving DecidableEq

def TaskState.life : TaskState → Life
  | .ready | .running | .sleeping | .blocked => .live
  | .zombie => .zombie
  | .dead => .dead

theorem life_eq_dead : st.life = .dead ↔ st = .dead := by
  cases st <;> simp [TaskState.life]

theorem life_eq_zombie : st.life = .zombie ↔ st = .zombie := by
  cases st <;> simp [TaskState.life]

theorem life_eq_live : st.life = .live ↔ st ≠ .dead ∧ st ≠ .zombie := by
  cases st <;> simp [TaskState.life]

structure Quiet (s s' : State) : Prop where
  gen : s'.gen = s.gen
  pushed : s'.pushed = s.pushed
  calls : ∀ k : Call, k.making ≠ none → (k ∈ s'.calls ↔ k ∈ s.calls)
  life : ∀ t, (s'.tasks t).state.life = (s.tasks t).state.life
  parent : ∀ t, (s'.tasks t).parentId = (s.tasks t).parentId
  count : s'.taskCount = s.taskCount

namespace Quiet

variable {s s' s'' : State} {t : Nat}

theorem refl (s : State) : Quiet s s :=
  ⟨rfl, rfl, fun _ _ => Iff.rfl, fun _ => rfl, fun _ => rfl, rfl⟩

theorem trans (h : Quiet s s') (h' : Quiet s' s'') : Quiet s s'' :=
  ⟨h'.gen.trans h.gen, h'.pushed.trans h.pushed,
    fun k hk => (h'.calls k hk).trans (h.calls k hk), fun t => (h'.life t).trans (h.life t),
    fun t => (h'.parent t).trans (h.parent t), h'.count.trans h.count⟩

section
variable (s)

theorem setTask {f : Task → Task} (hlife : (f (s.tasks t)).state.life = (s.tasks t).state.life)
    (hparent : (f (s.tasks t)).parentId = (s.tasks t).parentId) : Quiet s (s.setTask t f) := by
  refine ⟨rfl, rfl, fun _ _ => Iff.rfl, fun u => ?_, fun u => ?_, rfl⟩ <;> by_cases hne : u = t
  · subst hne
    rw [setTask_self, hlife]
  · rw [setTask_of_ne s hne]
  · subst hne
    rw [setTask_self, hparent]
  · rw [setTask_of_ne s hne]

theorem setState {st : TaskState} (hst : (s.tasks t).state.life = .live)
    (hnew : st.life = .live) : Quiet s (s.setState t st) :=
  setTask s (hnew.trans hst.symm) rfl

theorem setCurrent (cpu : Nat) (x : Option Nat) : Quiet s (s.setCurrent cpu x) :=
  ⟨rfl, rfl, fun _ _ => Iff.rfl, fun _ => rfl, fun _ => rfl, rfl⟩

theorem setQueue (cpu : Nat) (l : List Nat) : Quiet s (s.setQueue cpu l) :=
  ⟨rfl, rfl, fun _ _ => Iff.rfl, fun _ => rfl, fun _ => rfl, rfl⟩

theorem enter {k : Call} (hk : k.making = none) : Quiet s (s.enter k) := by
  refine ⟨rfl, rfl, fun k' hk' => ?_, fun _ => rfl, fun _ => rfl, rfl⟩
  have hne : k' ≠ k := fun heq => hk' (heq ▸ hk)
  simp [State.enter, hne]

theorem leave {k : Call} (hk : k.making = none) : Quiet s (s.leave k) := by
  refine ⟨rfl, rfl, fun k' hk' => ?_, fun _ => rfl, fun _ => rfl, rfl⟩
  exact mem_erase_of_ne fun heq => hk' (heq ▸ hk)

theorem saveFrame (t regs : Nat) : Quiet s (s.saveFrame t regs) := setTask s rfl rfl

end

theorem runqPush {cpu now : Nat} (h : s.runqPush cpu t now = some s') : Quiet s s' := by
  unfold State.runqPush at h
  split at h
  · cases h
  · obtain rfl := Option.some.inj h
    exact (setTask s (f := fun x => {x with enqueueMs := now}) rfl rfl).trans (setQueue _ cpu _)

theorem blockPrepare (s : State) (cpu : Nat) (timed : Bool) :
    Quiet s (s.blockPrepare cpu timed) := by
  unfold State.blockPrepare
  split
  · exact refl s
  split
  · exact refl s
  · split
    · exact refl s
    next hst =>
      refine setState s (by rw [not_not.mp hst]; rfl) ?_
      cases timed <;> rfl

theorem unblockRepark (s : State) (t : Nat) : Quiet s (s.unblockRepark t) := by
  unfold State.unblockRepark
  split
  · dsimp only
    split
    next hready => exact (leave s rfl).trans (setState _ (by rw [hready]; rfl) rfl)
    · exact leave s rfl
  · exact refl s

theorem procKill (s : State) (cpu pid : Nat) : Quiet s (s.procKill cpu pid) := by
  unfold State.procKill
  repeat' split
  all_goals try exact refl s
  · have hpurge : Quiet s (s.schedulerRemoveTask pid) :=
      ⟨rfl, rfl, fun _ _ => Iff.rfl, fun _ => rfl, fun _ => rfl, rfl⟩
    exact hpurge.trans (enter _ rfl)
  · refine Quiet.trans ?_ (enter _ rfl)
    exact setTask s rfl rfl

end Quiet

/-- A section that touches no stack and no address space and finishes no kill. -/
structure Kept (s s' : State) : Prop where
  stack : ∀ t, (s'.tasks t).stackBase = (s.tasks t).stackBase
  space : ∀ t, (s'.tasks t).pml4Phys = (s.tasks t).pml4Phys
  purges : ∀ t, Call.purge t ∈ s.calls → Call.purge t ∈ s'.calls

namespace Kept

variable {s s' s'' : State} {t : Nat}

theorem refl (s : State) : Kept s s := ⟨fun _ => rfl, fun _ => rfl, fun _ h => h⟩

theorem trans (h : Kept s s') (h' : Kept s' s'') : Kept s s'' :=
  ⟨fun t => (h'.stack t).trans (h.stack t), fun t => (h'.space t).trans (h.space t),
    fun t ht => h'.purges t (h.purges t ht)⟩

section
variable (s)

theorem setTask (t : Nat) {f : Task → Task}
    (hstack : ∀ x, (f x).stackBase = x.stackBase) (hspace : ∀ x, (f x).pml4Phys = x.pml4Phys) :
    Kept s (s.setTask t f) := by
  refine ⟨fun u => ?_, fun u => ?_, fun _ h => h⟩ <;> by_cases hne : u = t
  · subst hne
    rw [setTask_self, hstack]
  · rw [setTask_of_ne s hne]
  · subst hne
    rw [setTask_self, hspace]
  · rw [setTask_of_ne s hne]

theorem setState (t : Nat) (st : TaskState) : Kept s (s.setState t st) :=
  setTask s t (fun _ => rfl) fun _ => rfl

theorem saveFrame (t regs : Nat) : Kept s (s.saveFrame t regs) :=
  setTask s t (fun _ => rfl) fun _ => rfl

theorem setCurrent (cpu : Nat) (x : Option Nat) : Kept s (s.setCurrent cpu x) :=
  ⟨fun _ => rfl, fun _ => rfl, fun _ h => h⟩

theorem setQueue (cpu : Nat) (l : List Nat) : Kept s (s.setQueue cpu l) :=
  ⟨fun _ => rfl, fun _ => rfl, fun _ h => h⟩

theorem enter (k : Call) : Kept s (s.enter k) :=
  ⟨fun _ => rfl, fun _ => rfl, fun _ h => mem_cons_of_mem _ h⟩

theorem leave {k : Call} (hk : ∀ t, k ≠ .purge t) : Kept s (s.leave k) :=
  ⟨fun _ => rfl, fun _ => rfl, fun t h => (mem_erase_of_ne fun heq => hk t heq.symm).mpr h⟩

end

theorem runqPush {cpu now : Nat} (h : s.runqPush cpu t now = some s') : Kept s s' := by
  unfold State.runqPush at h
  split at h
  · cases h
  · obtain rfl := Option.some.inj h
    refine Kept.trans ?_ (setQueue _ cpu _)
    exact setTask s t (fun _ => rfl) fun _ => rfl

section
variable (s)

theorem blockPrepare (cpu : Nat) (timed : Bool) : Kept s (s.blockPrepare cpu timed) := by
  unfold State.blockPrepare
  repeat' split
  all_goals first | exact refl s | exact setState s _ _

theorem unblockRepark (t : Nat) : Kept s (s.unblockRepark t) := by
  unfold State.unblockRepark
  have hleave : Kept s (s.leave (.repark t)) := leave s (by simp)
  split
  · dsimp only
    split
    · exact hleave.trans (setState _ t _)
    · exact hleave
  · exact refl s

theorem procKill (cpu pid : Nat) : Kept s (s.procKill cpu pid) := by
  unfold State.procKill
  repeat' split
  all_goals try exact refl s
  · have hpurge : Kept s (s.schedulerRemoveTask pid) :=
      ⟨fun _ => rfl, fun _ => rfl, fun _ h => h⟩
    exact hpurge.trans (enter _ _)
  · refine Kept.trans ?_ (enter _ _)
    exact setTask s pid (fun _ => rfl) fun _ => rfl

theorem forkForge (t gen rsp : Nat) : Kept s (s.forkForge t gen rsp) := by
  unfold State.forkForge
  split
  · exact ((leave s (by simp)).trans (saveFrame _ t rsp)).trans (enter _ _)
  · exact refl s

theorem createPush (maker : Maker) (t gen target now : Nat) :
    Kept s (s.createPush maker t gen target now) := by
  unfold State.createPush
  have hleave : Kept s (s.leave (.create maker t gen)) := leave s (by simp)
  split
  · split
    next s1 hpush =>
      have hs1 := hleave.trans (runqPush hpush)
      exact {hs1 with}
    · exact hleave.trans (enter _ _)
  · exact refl s

theorem procWaitpid (cpu : Nat) (pid : Option Nat) : Kept s (s.procWaitpid cpu pid).2 := by
  rcases procWaitpid_cases s cpu pid with ⟨t, -, heq⟩ | ⟨heq, -⟩
  · rw [heq]
    dsimp only [reap]
    exact setTask s t (fun _ => rfl) fun _ => rfl
  · rw [heq]
    exact refl s

end

end Kept

def Task.Asleep (x : Task) : Prop := x.state = .sleeping ∨ x.state = .blocked

/-- The task does not fall asleep and its flag is not set. -/
structure Calm (x y : Task) : Prop where
  asleep : y.Asleep → x.Asleep
  flag : y.killPending = true → x.killPending = true

theorem Calm.refl (x : Task) : Calm x x := ⟨id, id⟩

theorem Calm.trans {x y z : Task} (h : Calm x y) (h' : Calm y z) : Calm x z :=
  ⟨fun ha => h.asleep (h'.asleep ha), fun hk => h.flag (h'.flag hk)⟩

theorem Calm.awake {x y : Task} (hy : ¬ y.Asleep)
    (hflag : y.killPending = true → x.killPending = true) :
    Calm x y := ⟨fun ha => absurd ha hy, hflag⟩

def AllCalm (s s' : State) : Prop := ∀ t, Calm (s.tasks t) (s'.tasks t)

namespace AllCalm

variable {s s' s'' : State}

theorem refl (s : State) : AllCalm s s := fun _ => .refl _

theorem trans (h : AllCalm s s') (h' : AllCalm s' s'') : AllCalm s s'' := fun t => (h t).trans (h' t)

theorem setTask (s : State) (t : Nat) {f : Task → Task} (hf : Calm (s.tasks t) (f (s.tasks t))) :
    AllCalm s (s.setTask t f) := by
  intro u
  by_cases hu : u = t
  · subst hu
    rw [setTask_self]
    exact hf
  · rw [setTask_of_ne s hu]
    exact .refl _

theorem setState (s : State) (t : Nat) {st : TaskState} (hst : st ≠ .sleeping ∧ st ≠ .blocked) :
    AllCalm s (s.setState t st) :=
  setTask s t (.awake (fun ha => ha.elim hst.1 hst.2) id)

theorem saveFrame (s : State) (t regs : Nat) : AllCalm s (s.saveFrame t regs) :=
  setTask s t ⟨id, id⟩

theorem of_tasks (h : s'.tasks = s.tasks) : AllCalm s s' := fun t => by
  rw [h]
  exact .refl _

theorem runqPush {cpu t now : Nat} (h : s.runqPush cpu t now = some s') : AllCalm s s' := by
  unfold State.runqPush at h
  split at h
  · cases h
  · injection h with h
    subst h
    have hset : AllCalm s (s.setTask t fun x => {x with enqueueMs := now}) := setTask s t ⟨id, id⟩
    exact hset.trans (of_tasks rfl)

end AllCalm

/-- A section that only moves live tasks about: it makes, ends and parks none. -/
structure Still (s s' : State) : Prop where
  quiet : Quiet s s'
  kept : Kept s s'
  calm : AllCalm s s'

namespace Still

variable {cpu : Nat} {s s' s'' : State} {t : Nat}

theorem refl (s : State) : Still s s := ⟨.refl s, .refl s, .refl s⟩

theorem trans (h : Still s s') (h' : Still s' s'') : Still s s'' :=
  ⟨h.quiet.trans h'.quiet, h.kept.trans h'.kept, h.calm.trans h'.calm⟩

section
variable (s)

theorem setState {st : TaskState} (hst : (s.tasks t).state.life = .live)
    (hnew : st = .ready ∨ st = .running) : Still s (s.setState t st) := by
  refine ⟨.setState s hst ?_, .setState s t st, .setState s t ?_⟩ <;> rcases hnew with rfl | rfl
  · rfl
  · rfl
  · exact ⟨by decide, by decide⟩
  · exact ⟨by decide, by decide⟩

theorem setWake (t ms : Nat) : Still s (s.setTask t fun x => {x with wakeAtMs := ms}) :=
  ⟨.setTask s rfl rfl, .setTask s t (fun _ => rfl) fun _ => rfl, .setTask s t ⟨id, id⟩⟩

theorem saveFrame (t regs : Nat) : Still s (s.saveFrame t regs) :=
  ⟨.saveFrame s t regs, .saveFrame s t regs, .saveFrame s t regs⟩

theorem setCurrent (cpu : Nat) (x : Option Nat) : Still s (s.setCurrent cpu x) :=
  ⟨.setCurrent s cpu x, .setCurrent s cpu x, .of_tasks rfl⟩

theorem setQueue (cpu : Nat) (l : List Nat) : Still s (s.setQueue cpu l) :=
  ⟨.setQueue s cpu l, .setQueue s cpu l, .of_tasks rfl⟩

theorem enter {k : Call} (hk : k.making = none) : Still s (s.enter k) :=
  ⟨.enter s hk, .enter s k, .of_tasks rfl⟩

theorem leave {k : Call} (hk : k.making = none) (hpurge : ∀ t, k ≠ .purge t) :
    Still s (s.leave k) :=
  ⟨.leave s hk, .leave s hpurge, .of_tasks rfl⟩

end

theorem runqPush {now : Nat} (h : s.runqPush cpu t now = some s') : Still s s' :=
  ⟨.runqPush h, .runqPush h, .runqPush h⟩

theorem dispatch (hst : (s.tasks t).state.life = .live) : Still s (s.dispatch cpu t) :=
  (setState s hst (.inr rfl)).trans (setCurrent _ cpu _)

theorem switchTo {cur : State.Cur} (hcur : ∀ t, cur = .running t → (s.tasks t).state = .running)
    {next regs now : Nat} (hnext : (s.tasks next).state = .ready) :
    Still s (s.switchTo cur cpu next regs now) := by
  have hlive : (s.tasks next).state.life = .live := by rw [hnext]; rfl
  cases cur with
  | gone => exact dispatch hlive
  | blocked t =>
    refine (saveFrame s t regs).trans (dispatch ?_)
    rw [saveFrame_state]
    exact hlive
  | running t =>
    have hst := hcur t rfl
    have hs1 : Still s ((s.saveFrame t regs).setState t .ready) := by
      refine (saveFrame s t regs).trans (setState _ ?_ (.inl rfl))
      rw [saveFrame_state, hst]
      rfl
    unfold State.switchTo
    dsimp only
    split
    next s2 hpush =>
      have hs2 := hs1.trans (runqPush hpush)
      exact hs2.trans (dispatch ((hs2.quiet.life next).trans hlive))
    -- the queue is full: the current task keeps the CPU
    have hback : Still ((s.saveFrame t regs).setState t .ready)
        (((s.saveFrame t regs).setState t .ready).setState t .running) :=
      setState _ (by rw [setState_self]; rfl) (.inr rfl)
    cases hpush : (((s.saveFrame t regs).setState t .ready).setState t .running).runqPush
        cpu next now with
    | none => exact hs1.trans hback
    | some s2 => exact (hs1.trans hback).trans (runqPush hpush)

section
variable (s)

theorem scheduleOnCpu (online cpu regs now : Nat) :
    Still s (s.scheduleOnCpu online cpu regs now) := by
  have hs1 : Still s (s.relinquish (s.curOf cpu) cpu) := by
    unfold relinquish
    split
    · exact setCurrent s cpu none
    · exact refl s
  have htasks : (s.relinquish (s.curOf cpu) cpu).tasks = s.tasks := by
    unfold relinquish
    split <;> rfl
  fun_cases scheduleOnCpu
  · exact refl s
  · exact refl s
  · exact hs1.trans (saveFrame _ _ _)
  · exact hs1
  all_goals
    rename_i hpick _
    obtain ⟨v, -, i, -, rfl⟩ := pickNext_eq (by omega) hpick
    have hs2 := hs1.trans (setQueue (s.relinquish (s.curOf cpu) cpu) v
      (swapRemove ((s.relinquish (s.curOf cpu) cpu).queues v) i))
  · exact hs2
  refine hs2.trans (switchTo (fun t ht => ?_) (by tauto))
  change ((s.relinquish (s.curOf cpu) cpu).tasks t).state = .running
  rw [htasks]
  change s.curOf cpu = _ at ht
  unfold curOf at ht
  repeat' split at ht
  all_goals cases ht
  assumption

theorem setWakeAt (cpu target : Nat) : Still s (s.setWakeAt cpu target) := by
  fun_cases setWakeAt
  · exact refl s
  · exact refl s
  · exact setWake s _ _

theorem unblockTask (t : Nat) : Still s (s.unblockTask t) := by
  unfold State.unblockTask
  split
  · exact refl s
  split
  · exact refl s
  rename_i hst
  have hlive : ((s.setTask t fun x => {x with wakeAtMs := 0}).tasks t).state.life = .live := by
    rw [setTask_self]
    cases heq : (s.tasks t).state <;> simp_all [TaskState.life]
  split
  · exact (setWake s t 0).trans (setState _ hlive (.inr rfl))
  · exact ((setWake s t 0).trans (setState _ hlive (.inl rfl))).trans (enter _ rfl)

theorem unblockPush (t target now : Nat) : Still s (s.unblockPush t target now) := by
  unfold State.unblockPush
  have hleave : Still s (s.leave (.wake t)) := leave s rfl (by simp)
  split
  · split
    next s1 hpush => exact hleave.trans (runqPush hpush)
    · exact hleave.trans (enter _ rfl)
  · exact refl s

theorem sleepqCheckWakeups (now : Nat) : Still s (s.sleepqCheckWakeups now) := by
  refine ⟨⟨rfl, rfl, fun k hk => ?_, fun _ => rfl, fun _ => rfl, rfl⟩,
    ⟨fun _ => rfl, fun _ => rfl, fun _ h => mem_append_right _ h⟩, .of_tasks rfl⟩
  simp only [State.sleepqCheckWakeups, mem_append, mem_map]
  refine ⟨fun h => h.resolve_left ?_, .inr⟩
  rintro ⟨t, -, rfl⟩
  exact hk rfl

theorem unblockPending (t : Nat) : Still s (s.unblockPending t) := by
  unfold State.unblockPending
  split
  · exact (leave s rfl (by simp)).trans (unblockTask _ t)
  · exact refl s

end

end Still

def Op.quiet : Op → Bool
  | .schedule .. | .blockPrepare .. | .setWakeAt .. | .unblock .. | .unblockPush ..
  | .unblockRepark .. | .sleepqCheckWakeups .. | .unblockPending .. | .kill .. => true
  | _ => false

theorem exec_quiet_kept (s : State) {op : Op} (hop : op.quiet = true) :
    Quiet s (exec s op) ∧ Kept s (exec s op) := by
  have still : ∀ {s'}, Still s s' → Quiet s s' ∧ Kept s s' := fun h => ⟨h.quiet, h.kept⟩
  cases op with
  | schedule online cpu regs now => exact still (.scheduleOnCpu s online cpu regs now)
  | blockPrepare cpu timed => exact ⟨.blockPrepare s cpu timed, .blockPrepare s cpu timed⟩
  | setWakeAt cpu target => exact still (.setWakeAt s cpu target)
  | unblock t => exact still (.unblockTask s t)
  | unblockPush t target now => exact still (.unblockPush s t target now)
  | unblockRepark t => exact ⟨.unblockRepark s t, .unblockRepark s t⟩
  | sleepqCheckWakeups now => exact still (.sleepqCheckWakeups s now)
  | unblockPending t => exact still (.unblockPending s t)
  | kill cpu pid => exact ⟨.procKill s cpu pid, .procKill s cpu pid⟩
  | _ => cases hop

theorem exec_quiet (s : State) {op : Op} (hop : op.quiet = true) : Quiet s (exec s op) :=
  (exec_quiet_kept s hop).1

theorem exec_kinds (s : State) (op : Op) :
    Quiet s (exec s op) ∨ Made s op (exec s op) ∨ Finished s op (exec s op) ∨
      ∃ cpu pid, op = .waitpid cpu pid := by
  cases op with
  | schedule | blockPrepare | setWakeAt | unblock | unblockPush | unblockRepark
  | sleepqCheckWakeups | unblockPending | kill =>
    exact .inl (exec_quiet s rfl)
  | createTaskPrio | createUserTask | taskFork | forkForge | createPush | createFail
  | createReclaim => exact .inr (.inl (exec_made s rfl))
  | exit | killFinish => exact .inr (.inr (.inl (exec_finished s rfl)))
  | waitpid cpu pid => exact .inr (.inr (.inr ⟨cpu, pid, rfl⟩))

end Kyuzen.Sched
