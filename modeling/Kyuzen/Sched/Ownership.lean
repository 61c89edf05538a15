import Kyuzen.Base.Count
import Kyuzen.Sched.Core

/-!
Who owns a task. A ready task is in the hands of one run queue or of one call
that is going to push or end it, a running task is the current one of one CPU,
a blocked one may still sit on one, and nothing holds a dead task or a zombie.
-/

namespace Kyuzen.Sched

open Function List Option Finset

variable {s s' : State} {cpu now t : Nat}

/-- The task that a call in flight is going to push or to end. -/
def Call.task : Call → Option Nat
  | .wake t | .repark t | .purge t => some t
  | .forge t _ | .create _ t _ | .reclaim _ t _ => some t
  | .unblock _ => none

/-- Entries of run queues and calls in flight that hold `t`. -/
def State.own (s : State) (t : Nat) : Nat :=
  (∑ c ∈ range 16, (s.queues c).count t) + s.calls.countP fun k => k.task = some t

def State.cpus (s : State) (t : Nat) : Nat :=
  ((Finset.range 16).filter fun c => s.current c = some t).card

/-- What each state of a task allows. -/
def Good : TaskState → Nat → Nat → Prop
  | .ready, own, cpus => own ≤ 1 ∧ cpus = 0
  | .running, own, cpus => own = 0 ∧ cpus = 1
  | .sleeping, own, cpus | .blocked, own, cpus => own = 0 ∧ cpus ≤ 1
  | .dead, own, cpus | .zombie, own, cpus => own = 0 ∧ cpus = 0

/-- The table with tasks `h` in the hands of the running section. -/
structure Owned (s : State) (h : Nat → Nat) : Prop where
  good : ∀ t, Good (s.tasks t).state (s.own t + h t) (s.cpus t)
  range : ∀ c, 16 ≤ c → s.current c = none
  fresh : ∀ t, s.taskCount ≤ t → (s.tasks t).state = .dead
  pos : 0 < s.taskCount

/-! ### Counters -/

section Counters

variable (s : State) (t : Nat)

open State

theorem own_enter (k : Call) : (s.enter k).own t = s.own t + if k.task = some t then 1 else 0 := by
  simp only [own, enter, countP_cons, decide_eq_true_eq]
  omega

theorem own_leave {s : State} {k : Call} (hk : k ∈ s.calls) (t : Nat) :
    (s.leave k).own t + (if k.task = some t then 1 else 0) = s.own t := by
  have hcount := countP_cons (p := fun k : Call => decide (k.task = some t)) (a := k)
    (l := s.calls.erase k)
  rw [← (perm_cons_erase hk).countP_eq] at hcount
  simp only [decide_eq_true_eq] at hcount
  simp only [own, leave]
  omega

theorem own_setQueue {cpu : Nat} (hcpu : cpu < 16) (l : List Nat) :
    (s.setQueue cpu l).own t + (s.queues cpu).count t = s.own t + l.count t := by
  have hsum := sum_range_update hcpu s.queues (fun q => q.count t) l
  simp only [own, setQueue]
  omega

theorem own_schedulerRemoveTask_self :
    (s.schedulerRemoveTask t).own t = s.calls.countP fun k => k.task = some t := by
  have hzero : ∑ c ∈ Finset.range 16, ((s.schedulerRemoveTask t).queues c).count t = 0 := by
    refine Finset.sum_eq_zero fun c hc => ?_
    simp only [schedulerRemoveTask, if_pos (Finset.mem_range.mp hc)]
    exact count_purge_self t _
  rw [own, hzero, zero_add]
  rfl

theorem own_schedulerRemoveTask_of_ne {u : Nat} (hne : u ≠ t) :
    (s.schedulerRemoveTask t).own u = s.own u := by
  have hsum : ∑ c ∈ Finset.range 16, ((s.schedulerRemoveTask t).queues c).count u =
      ∑ c ∈ Finset.range 16, (s.queues c).count u := by
    refine Finset.sum_congr rfl fun c hc => ?_
    simp only [schedulerRemoveTask, if_pos (Finset.mem_range.mp hc)]
    exact count_purge_of_ne hne _
  rw [own, hsum]
  rfl

theorem cpus_setCurrent {cpu : Nat} (hcpu : cpu < 16) (x : Option Nat) :
    (s.setCurrent cpu x).cpus t + (if s.current cpu = some t then 1 else 0) =
      s.cpus t + if x = some t then 1 else 0 :=
  card_filter_update hcpu s.current (fun y => y = some t) x

theorem cpus_pos {s : State} {t c : Nat} (hc : c < 16) (hcur : s.current c = some t) :
    0 < s.cpus t :=
  Finset.card_pos.mpr ⟨c, Finset.mem_filter.mpr ⟨Finset.mem_range.mpr hc, hcur⟩⟩

theorem cpus_eq_zero {s : State} {t : Nat} (h : ∀ c < 16, s.current c ≠ some t) : s.cpus t = 0 := by
  refine Finset.card_eq_zero.mpr (Finset.filter_eq_empty_iff.mpr fun c hc => ?_)
  exact h c (Finset.mem_range.mp hc)

end Counters

@[simp] theorem setTask_self (s : State) (t : Nat) (f : Task → Task) :
    (s.setTask t f).tasks t = f (s.tasks t) := update_self _ _ _

theorem setTask_of_ne (s : State) {u : Nat} (hne : u ≠ t) (f : Task → Task) :
    (s.setTask t f).tasks u = s.tasks u := update_of_ne hne _ _

@[simp] theorem setState_self (s : State) (t : Nat) (st : TaskState) :
    ((s.setState t st).tasks t).state = st := by
  rw [State.setState, setTask_self]

theorem setTask_state (s : State) (t : Nat) {f : Task → Task} (hf : ∀ x, (f x).state = x.state)
    (u : Nat) : ((s.setTask t f).tasks u).state = (s.tasks u).state := by
  by_cases hne : u = t
  · subst hne
    rw [setTask_self, hf]
  · rw [setTask_of_ne s hne]

theorem saveFrame_state (s : State) (t regs u : Nat) :
    ((s.saveFrame t regs).tasks u).state = (s.tasks u).state :=
  setTask_state s t (f := fun x => {x with rsp := regs}) (fun _ => rfl) u

theorem runqPush_state (h : s.runqPush cpu t now = some s') (u : Nat) :
    (s'.tasks u).state = (s.tasks u).state := by
  unfold State.runqPush at h
  split at h
  · cases h
  · obtain rfl := some.inj h
    exact setTask_state s t (f := fun x => {x with enqueueMs := now}) (fun _ => rfl) u

/-! ### Primitives -/

namespace Owned

variable {k : Call} {f : Task → Task} {s s' : State} {h h' : Nat → Nat} {t cpu : Nat}

section
variable (hs : Owned s h)
include hs

theorem reframe (hstate : ∀ u, (s'.tasks u).state = (s.tasks u).state)
    (hqueues : s'.queues = s.queues) (hcalls : s'.calls = s.calls)
    (hcurrent : s'.current = s.current) (hcount : s.taskCount ≤ s'.taskCount) : Owned s' h := by
  refine ⟨fun u => ?_, fun c hc => ?_, fun u hu => ?_, lt_of_lt_of_le hs.pos hcount⟩
  · rw [hstate, State.own, State.cpus, hqueues, hcalls, hcurrent]
    exact hs.good u
  · rw [hcurrent]
    exact hs.range c hc
  · rw [hstate]
    exact hs.fresh u (by omega)

theorem setField (t : Nat) (hf : ∀ x, (f x).state = x.state) : Owned (s.setTask t f) h :=
  hs.reframe (setTask_state s t hf) rfl rfl rfl le_rfl

theorem change (t : Nat) (hstate : ∀ u ≠ t, (s'.tasks u).state = (s.tasks u).state)
    (hown : ∀ u ≠ t, s'.own u + h' u = s.own u + h u)
    (hcpus : ∀ u ≠ t, s'.cpus u = s.cpus u)
    (hself : Good (s'.tasks t).state (s'.own t + h' t) (s'.cpus t))
    (hrange : ∀ c, 16 ≤ c → s'.current c = none) (hcount : s.taskCount ≤ s'.taskCount)
    (ht : t < s'.taskCount ∨ (s'.tasks t).state = .dead) : Owned s' h' := by
  refine ⟨fun u => ?_, hrange, fun u hu => ?_, lt_of_lt_of_le hs.pos hcount⟩
  · by_cases hne : u = t
    · subst hne
      exact hself
    · rw [hstate u hne, hown u hne, hcpus u hne]
      exact hs.good u
  · by_cases hne : u = t
    · subst hne
      exact ht.resolve_left (by omega)
    · rw [hstate u hne]
      exact hs.fresh u (by omega)

section
variable (hcur : s.current cpu = some t)
include hcur

theorem cpu_lt : cpu < 16 := by
  by_contra hle
  rw [hs.range cpu (by omega)] at hcur
  cases hcur

theorem seated :
    ((s.tasks t).state = .running ∨ (s.tasks t).state = .sleeping ∨ (s.tasks t).state = .blocked) ∧
      s.own t + h t = 0 ∧ s.cpus t = 1 := by
  have hpos := cpus_pos (hs.cpu_lt hcur) hcur
  have hgood := hs.good t
  cases hst : (s.tasks t).state <;> rw [hst] at hgood <;> simp only [Good] at hgood <;>
    simp <;> omega

theorem seated_lt : t < s.taskCount := by
  by_contra hle
  have hdead := hs.fresh t (by omega)
  rcases (hs.seated hcur).1 with hst | hst | hst <;> rw [hst] at hdead <;> cases hdead

end

theorem held_ready (hpos : 0 < s.own t + h t) :
    (s.tasks t).state = .ready ∧ s.own t + h t = 1 ∧ s.cpus t = 0 := by
  have hgood := hs.good t
  cases hst : (s.tasks t).state <;> rw [hst] at hgood <;> simp only [Good] at hgood <;>
    simp <;> omega

theorem lt_of_not_dead (hst : (s.tasks t).state ≠ .dead) : t < s.taskCount := by
  by_contra hle
  exact hst (hs.fresh t (by omega))

end

theorem drop (hs : Owned s (held h t)) : Owned s h := by
  have hready := hs.held_ready (t := t) (by rw [held_self]; omega)
  rw [held_self] at hready
  refine hs.change t (fun u _ => rfl) (fun u hne => by rw [held_of_ne hne]) (fun u _ => rfl) ?_
    hs.range le_rfl (.inl (hs.lt_of_not_dead (by rw [hready.1]; simp)))
  rw [hready.1]
  simp only [Good]
  omega

theorem take (hs : Owned s h) (hcpu : cpu < 16) {i : Nat} (hi : (s.queues cpu)[i]? = some t) :
    Owned (s.setQueue cpu (swapRemove (s.queues cpu) i)) (held h t) := by
  have hown : ∀ u, (s.setQueue cpu (swapRemove (s.queues cpu) i)).own u + held h t u =
      s.own u + h u := by
    intro u
    have hqueue := own_setQueue s u hcpu (swapRemove (s.queues cpu) i)
    have hcount := count_swapRemove hi u
    by_cases hne : u = t
    · subst hne
      rw [if_pos rfl] at hcount
      rw [held_self]
      omega
    · rw [if_neg (Ne.symm hne)] at hcount
      rw [held_of_ne hne]
      omega
  refine {hs with good := fun u => ?_}
  rw [hown]
  exact hs.good u

theorem put (hs : Owned s (held h t)) (hcpu : cpu < 16) {now : Nat}
    (hpush : s.runqPush cpu t now = some s') : Owned s' h := by
  unfold State.runqPush at hpush
  split at hpush
  · cases hpush
  obtain rfl := some.inj hpush
  have hset := hs.setField t (f := fun x => {x with enqueueMs := now}) fun _ => rfl
  have hown : ∀ u, ((s.setTask t fun x => {x with enqueueMs := now}).setQueue cpu
      (s.queues cpu ++ [t])).own u + h u = s.own u + held h t u := by
    intro u
    have hqueue := own_setQueue (s.setTask t fun x => {x with enqueueMs := now}) u hcpu
      (s.queues cpu ++ [t])
    change _ + (s.queues cpu).count u = s.own u + _ at hqueue
    rw [count_append, count_singleton] at hqueue
    by_cases hne : u = t
    · subst hne
      rw [held_self]
      simp only [beq_self_eq_true, if_true] at hqueue
      omega
    · rw [held_of_ne hne]
      rw [if_neg (by simpa using Ne.symm hne)] at hqueue
      omega
  refine {hset with good := fun u => ?_}
  rw [hown]
  exact hset.good u

/-- The held task gets a CPU that has no current task. -/
theorem dispatch (hs : Owned s (held h t)) (hcpu : cpu < 16) (hfree : s.current cpu = none) :
    Owned (s.dispatch cpu t) h := by
  have hready := hs.held_ready (t := t) (by rw [held_self]; omega)
  rw [held_self] at hready
  have hcpus := fun u => cpus_setCurrent (s.setState t .running) u hcpu (some t)
  have hnone : (s.setState t .running).current cpu = none := hfree
  simp only [hnone, reduceCtorEq, if_false, some_inj] at hcpus
  refine hs.change t (fun u hne => ?_) (fun u hne => ?_) (fun u hne => ?_) ?_ (fun c hc => ?_)
    le_rfl (.inl (hs.lt_of_not_dead (by rw [hready.1]; simp)))
  · exact congrArg Task.state (setTask_of_ne s hne fun x => {x with state := .running})
  · rw [held_of_ne hne]
    rfl
  · have := hcpus u
    rw [if_neg (Ne.symm hne)] at this
    exact this
  · have hself := hcpus t
    rw [if_pos rfl] at hself
    change _ = s.cpus t + 1 at hself
    change Good ((s.setState t .running).tasks t).state (s.own t + h t)
      (((s.setState t .running).setCurrent cpu (some t)).cpus t)
    rw [setState_self]
    simp only [Good]
    omega
  · change update s.current cpu (some t) c = none
    rw [update_of_ne (by omega)]
    exact hs.range c hc

/-- The current task of a CPU leaves it: a running one is ready and held, a
blocked one is on its own. -/
theorem unseat (hs : Owned s h) (hcur : s.current cpu = some t) (hother : ∀ u ≠ t, h' u = h u)
    (hself : Good (f (s.tasks t)).state (s.own t + h' t) 0) :
    Owned ((s.setTask t f).setCurrent cpu none) h' := by
  have hcpu := hs.cpu_lt hcur
  obtain ⟨-, -, hone⟩ := hs.seated hcur
  have hlt := hs.seated_lt hcur
  have hcpus := fun u => cpus_setCurrent (s.setTask t f) u hcpu none
  have hcur' : (s.setTask t f).current cpu = some t := hcur
  simp only [hcur', reduceCtorEq, if_false, some_inj] at hcpus
  refine hs.change t (fun u hne => ?_) (fun u hne => ?_) (fun u hne => ?_) ?_ (fun c hc => ?_)
    le_rfl (.inl hlt)
  · exact congrArg Task.state (setTask_of_ne s hne f)
  · rw [hother u hne]
    rfl
  · have := hcpus u
    rw [if_neg (Ne.symm hne)] at this
    exact this
  · have hzero : ((s.setTask t f).setCurrent cpu none).cpus t = 0 := by
      have := hcpus t
      rw [if_pos rfl] at this
      change _ = s.cpus t + 0 at this
      omega
    rw [hzero]
    change Good ((s.setTask t f).tasks t).state (s.own t + h' t) 0
    rw [setTask_self]
    exact hself
  · change update s.current cpu none c = none
    rw [update_of_ne (by omega)]
    exact hs.range c hc

theorem setTask (hs : Owned s h) (hother : ∀ u ≠ t, h' u = h u)
    (hself : Good (f (s.tasks t)).state (s.own t + h' t) (s.cpus t))
    (ht : t < s.taskCount ∨ (f (s.tasks t)).state = .dead) : Owned (s.setTask t f) h' := by
  refine hs.change t (fun u hne => ?_) (fun u hne => ?_) (fun u _ => rfl) ?_ hs.range
    le_rfl ?_
  · exact congrArg Task.state (setTask_of_ne s hne f)
  · rw [hother u hne]
    rfl
  · rw [setTask_self]
    exact hself
  · rw [setTask_self]
    exact ht

theorem enter (hs : Owned s (held h t)) (hk : k.task = some t) : Owned (s.enter k) h := by
  refine {hs with good := fun u => ?_}
  have hgood := hs.good u
  rw [own_enter, hk]
  by_cases hne : u = t
  · subst hne
    rw [held_self] at hgood
    rw [if_pos rfl, show s.own u + 1 + h u = s.own u + (h u + 1) by omega]
    exact hgood
  · rw [held_of_ne hne] at hgood
    rw [if_neg (by simpa using Ne.symm hne), add_zero]
    exact hgood

theorem leave (hs : Owned s h) (hmem : k ∈ s.calls) (hk : k.task = some t) :
    Owned (s.leave k) (held h t) := by
  refine {hs with good := fun u => ?_}
  have hgood := hs.good u
  have hown := own_leave hmem u
  rw [hk] at hown
  by_cases hne : u = t
  · subst hne
    rw [if_pos rfl] at hown
    rw [held_self]
    rw [show (s.leave k).own u + (h u + 1) = s.own u + h u by omega]
    exact hgood
  · rw [if_neg (by simpa using Ne.symm hne)] at hown
    rw [held_of_ne hne]
    rw [show (s.leave k).own u + h u = s.own u + h u by omega]
    exact hgood

theorem enter_free (hs : Owned s h) (hk : k.task = none) : Owned (s.enter k) h := by
  refine {hs with good := fun u => ?_}
  rw [own_enter, hk, if_neg (by simp), add_zero]
  exact hs.good u

theorem leave_free (hs : Owned s h) (hmem : k ∈ s.calls) (hk : k.task = none) :
    Owned (s.leave k) h := by
  refine {hs with good := fun u => ?_}
  have hown := own_leave hmem u
  rw [hk, if_neg (by simp), add_zero] at hown
  rw [hown]
  exact hs.good u

end Owned

/-! ### Sections -/

theorem dispatch_setCurrent (s : State) (cpu t : Nat) (x : Option Nat) :
    (s.setCurrent cpu x).dispatch cpu t = s.dispatch cpu t := by
  simp [State.dispatch, State.setState, State.setTask, State.setCurrent]

theorem runqPush_setCurrent (h : s.runqPush cpu t now = some s') (x : Option Nat) :
    (s.setCurrent cpu x).runqPush cpu t now = some (s'.setCurrent cpu x) := by
  unfold State.runqPush at h ⊢
  split at h
  · cases h
  next hroom =>
    obtain rfl := some.inj h
    exact if_neg hroom

theorem runqPop_eq (h : s.runqPop cpu now = some (t, s')) :
    ∃ i, (s.queues cpu)[i]? = some t ∧ s' = s.setQueue cpu (swapRemove (s.queues cpu) i) := by
  unfold State.runqPop at h
  dsimp only at h
  split at h
  · cases h
  next y hy =>
    cases h
    exact ⟨_, hy, rfl⟩

theorem foldl_option_lt {n : Nat} {f : Option Nat → Nat → Option Nat}
    (hf : ∀ v i, f v i = v ∨ f v i = some i) (l : List Nat) (hl : ∀ i ∈ l, i < n) (v : Option Nat)
    (hv : ∀ w, v = some w → w < n) : ∀ w, l.foldl f v = some w → w < n := by
  induction l generalizing v with
  | nil => exact hv
  | cons i l ih =>
    refine ih (fun j hj => hl j (mem_cons_of_mem i hj)) _ fun w hw => ?_
    rcases hf v i with heq | heq
    · exact hv w (heq ▸ hw)
    · rw [heq] at hw
      rw [← some.inj hw]
      exact hl i (by simp)

theorem stealTask_eq {online : Nat} (h : s.stealTask online cpu now = some (t, s')) :
    ∃ v < 16, s.runqPop v now = some (t, s') := by
  unfold State.stealTask at h
  dsimp only at h
  split at h
  · cases h
  rename_i v hv
  refine ⟨v, foldl_option_lt (fun v i => ?_) _ (fun i hi => ?_) none nofun v hv, h⟩
  · repeat' split
    all_goals first | exact .inl rfl | exact .inr rfl
  · have := List.mem_range.mp hi
    omega

theorem pickNext_eq {online : Nat} (hcpu : cpu < 16)
    (h : s.pickNext online cpu now = some (t, s')) :
    ∃ v < 16, ∃ i, (s.queues v)[i]? = some t ∧
      s' = s.setQueue v (swapRemove (s.queues v) i) := by
  unfold State.pickNext at h
  split at h
  next r hr =>
    rw [h] at hr
    exact ⟨cpu, hcpu, runqPop_eq hr⟩
  · obtain ⟨v, hv, hpop⟩ := stealTask_eq h
    exact ⟨v, hv, runqPop_eq hpop⟩

/-- What the scheduler sees of the current task of a CPU. -/
inductive CurSpec (s : State) (cpu : Nat) : State.Cur → Prop where
  | gone (h : s.current cpu = none) : CurSpec s cpu .gone
  | running {t : Nat} (h : s.current cpu = some t) (hst : (s.tasks t).state = .running) :
      CurSpec s cpu (.running t)
  | blocked {t : Nat} (h : s.current cpu = some t)
      (hst : (s.tasks t).state = .sleeping ∨ (s.tasks t).state = .blocked) :
      CurSpec s cpu (.blocked t)

theorem CurSpec.setQueue {cur : State.Cur} (h : CurSpec s cpu cur) (v : Nat) (l : List Nat) :
    CurSpec (s.setQueue v l) cpu cur := by
  cases h with
  | gone hfree => exact .gone hfree
  | running hseat hst => exact .running hseat hst
  | blocked hseat hst => exact .blocked hseat hst

namespace Owned

variable {s s' : State} {h : Nat → Nat} {t cpu : Nat}

theorem curOf (hs : Owned s h) (cpu : Nat) : CurSpec s cpu (s.curOf cpu) := by
  unfold State.curOf
  cases hcur : s.current cpu with
  | none => exact .gone hcur
  | some t =>
    simp only [if_pos (hs.seated_lt hcur)]
    rcases (hs.seated hcur).1 with hst | hst | hst
    · rw [hst]
      exact .running hcur hst
    · rw [hst]
      exact .blocked hcur (.inl hst)
    · rw [hst]
      exact .blocked hcur (.inr hst)

/-- An idle CPU stays idle, and any other task keeps its CPU. -/
theorem relinquish (hs : Owned s h) {cur : State.Cur} (hcur : CurSpec s cpu cur) :
    Owned (s.relinquish cur cpu) h ∧ CurSpec (s.relinquish cur cpu) cpu cur := by
  cases hcur with
  | gone hfree =>
    refine ⟨hs.reframe (fun _ => rfl) rfl rfl ?_ le_rfl, .gone (update_self _ _ _)⟩
    change update s.current cpu none = s.current
    rw [← hfree, update_eq_self]
  | running hseat hst => exact ⟨hs, .running hseat hst⟩
  | blocked hseat hst => exact ⟨hs, .blocked hseat hst⟩

theorem switchTo {cur : State.Cur} {next regs now : Nat} (hs : Owned s (held h next))
    (hcpu : cpu < 16) (hcur : CurSpec s cpu cur) :
    Owned (s.switchTo cur cpu next regs now) h := by
  cases hcur with
  | gone hfree => exact hs.dispatch hcpu hfree
  | @blocked t hseat hst =>
    have hown := (hs.seated hseat).2.1
    have hout : Owned ((s.saveFrame t regs).setCurrent cpu none) (held h next) := by
      refine hs.unseat hseat (fun _ _ => rfl) ?_
      rw [hown]
      change Good (s.tasks t).state 0 0
      rcases hst with hst | hst <;> rw [hst] <;> simp [Good]
    have hfinal := hout.dispatch hcpu (update_self _ _ _)
    rwa [dispatch_setCurrent] at hfinal
  | @running t hseat hst =>
    have hsave := hs.setField t (f := fun x => {x with rsp := regs}) fun _ => rfl
    have hseat' : (s.saveFrame t regs).current cpu = some t := hseat
    have hown := (hsave.seated hseat').2.1
    unfold State.switchTo
    dsimp only
    split
    next s2 hpush =>
      have hout : Owned (((s.saveFrame t regs).setState t .ready).setCurrent cpu none)
          (held (held h next) t) := by
        refine hsave.unseat hseat' (fun u hne => held_of_ne hne) ?_
        change Good .ready _ 0
        rw [held_self, ← add_assoc, hown]
        simp [Good]
      have hput := hout.put hcpu (runqPush_setCurrent hpush none)
      have hfinal := hput.dispatch hcpu (update_self _ _ _)
      rwa [dispatch_setCurrent] at hfinal
    · have hback : Owned (((s.saveFrame t regs).setState t .ready).setState t .running)
          (held h next) := by
        refine hsave.reframe (fun u => ?_) rfl rfl rfl le_rfl
        by_cases hne : u = t
        · subst hne
          rw [setState_self]
          rw [setTask_self, hst]
        · rw [State.setState, setTask_of_ne _ hne, State.setState, setTask_of_ne _ hne]
          rfl
      cases hpush : (((s.saveFrame t regs).setState t .ready).setState t .running).runqPush
          cpu next now with
      | none => exact hback.drop
      | some s2 => exact hback.put hcpu hpush

section
variable (hs : Owned s h)
include hs

theorem scheduleOnCpu (online cpu regs now : Nat) :
    Owned (s.scheduleOnCpu online cpu regs now) h := by
  fun_cases State.scheduleOnCpu
  · exact hs
  · exact hs
  all_goals obtain ⟨hs1, hcur1⟩ := hs.relinquish (hs.curOf cpu)
  · exact hs1.setField _ fun _ => rfl
  · exact hs1
  all_goals
    rename_i hpick _
    obtain ⟨v, hv, i, hi, rfl⟩ := pickNext_eq (by omega) hpick
    have htake := hs1.take hv hi
  · exact htake.drop
  · exact htake.switchTo (by omega) (hcur1.setQueue v _)

theorem blockPrepare (cpu : Nat) (timed : Bool) : Owned (s.blockPrepare cpu timed) h := by
  fun_cases State.blockPrepare
  all_goals try exact hs
  rename_i hcur _ _
  obtain ⟨-, hown, hone⟩ := hs.seated hcur
  refine hs.setTask (fun _ _ => rfl) ?_ (.inl (hs.seated_lt hcur))
  rw [hown, hone]
  cases timed <;> simp [Good]

theorem setWakeAt (cpu target : Nat) : Owned (s.setWakeAt cpu target) h := by
  fun_cases State.setWakeAt
  · exact hs
  · exact hs
  · exact hs.setField _ fun _ => rfl

theorem unblockTask (t : Nat) : Owned (s.unblockTask t) h := by
  unfold State.unblockTask
  split
  · exact hs
  split
  · exact hs
  rename_i hst
  have hst' : (s.tasks t).state = .sleeping ∨ (s.tasks t).state = .blocked := by tauto
  have hfree : s.own t + h t = 0 ∧ s.cpus t ≤ 1 := by
    have hgood := hs.good t
    rcases hst' with heq | heq <;> rw [heq] at hgood <;> exact hgood
  have hlt : t < s.taskCount := hs.lt_of_not_dead (by
    rcases hst' with heq | heq <;> rw [heq] <;> simp)
  have hwake := hs.setField t (f := fun x => {x with wakeAtMs := 0}) fun _ => rfl
  split
  next hany =>
    obtain ⟨c, hc, hcur⟩ := List.any_eq_true.mp hany
    have hpos := cpus_pos (List.mem_range.mp hc) (of_decide_eq_true hcur)
    refine hwake.setTask (fun _ _ => rfl) ?_ (.inl hlt)
    change Good .running (s.own t + h t) (s.cpus t)
    simp only [Good]
    omega
  next hany =>
    have hzero : s.cpus t = 0 := cpus_eq_zero fun c hc hcur =>
      hany (List.any_eq_true.mpr ⟨c, List.mem_range.mpr hc, by simpa using hcur⟩)
    have hheld : Owned ((s.setTask t fun x => {x with wakeAtMs := 0}).setState t .ready)
        (held h t) := by
      refine hwake.setTask (fun u hne => held_of_ne hne) ?_ (.inl hlt)
      change Good .ready (s.own t + held h t t) (s.cpus t)
      rw [held_self]
      simp only [Good]
      omega
    exact hheld.enter rfl

theorem unblockPush (t target now : Nat) : Owned (s.unblockPush t target now) h := by
  unfold State.unblockPush
  split
  next hcall =>
    have hleave := hs.leave (t := t) hcall.1 rfl
    split
    next s1 hpush => exact hleave.put hcall.2 hpush
    · exact hleave.enter rfl
  · exact hs

theorem unblockRepark (t : Nat) : Owned (s.unblockRepark t) h := by
  unfold State.unblockRepark
  split
  next hcall =>
    have hleave := hs.leave (t := t) hcall rfl
    have hready := hleave.held_ready (t := t) (by rw [held_self]; omega)
    rw [held_self] at hready
    rw [if_pos hready.1]
    refine hleave.setTask (fun u hne => (held_of_ne hne).symm) ?_
      (.inl (hleave.lt_of_not_dead (by rw [hready.1]; simp)))
    simp only [Good]
    omega
  · exact hs

theorem sleepqCheckWakeups (now : Nat) : Owned (s.sleepqCheckWakeups now) h := by
  refine {hs with good := fun u => ?_}
  have hown : (s.sleepqCheckWakeups now).own u = s.own u := by
    simp [State.own, State.sleepqCheckWakeups, countP_map, Function.comp_def, Call.task]
  rw [hown]
  exact hs.good u

theorem unblockPending (t : Nat) : Owned (s.unblockPending t) h := by
  unfold State.unblockPending
  split
  next hcall => exact (hs.leave_free hcall rfl).unblockTask t
  · exact hs

end

end Owned

theorem allocSlot_spec {h : Nat → Nat} {slot : Nat} (hs : Owned s h)
    (halloc : s.allocSlot = some (slot, s')) :
    (s.tasks slot).state = .dead ∧ slot < s'.taskCount ∧ 0 < slot ∧
      (s' = s ∨ s' = {s with taskCount := s.taskCount + 1}) := by
  unfold State.allocSlot at halloc
  split at halloc
  next i hi =>
    cases halloc
    have hmem := mem_range'_1.mp (mem_of_find?_eq_some hi)
    have hdead := find?_some hi
    exact ⟨of_decide_eq_true hdead, by omega, by omega, .inl rfl⟩
  · split at halloc
    · cases halloc
      exact ⟨hs.fresh _ le_rfl, Nat.lt_succ_self _, hs.pos, .inr rfl⟩
    · cases halloc

/-! ### What a maker does -/

/-- The slot and incarnation that a maker in flight is working on. -/
def Call.making : Call → Option (Nat × Nat)
  | .forge t g | .create _ t g | .reclaim _ t g => some (t, g)
  | .wake _ | .repark _ | .purge _ | .unblock _ => none

theorem Call.task_of_making {k : Call} {t g : Nat} (h : k.making = some (t, g)) :
    k.task = some t := by
  cases k <;> simp_all [Call.making, Call.task]

theorem allocSlot_frame {s' : State} {slot : Nat} (halloc : s.allocSlot = some (slot, s')) :
    s'.gen = s.gen ∧ s'.tasks = s.tasks ∧ s'.current = s.current := by
  unfold State.allocSlot at halloc
  split at halloc
  · rw [← (Prod.mk.inj (some.inj halloc)).2]
    exact ⟨rfl, rfl, rfl⟩
  · split at halloc
    · rw [← (Prod.mk.inj (some.inj halloc)).2]
      exact ⟨rfl, rfl, rfl⟩
    · cases halloc

theorem current_of_creator {cpu p : Nat} (h : s.creator cpu = some p) : s.current cpu = some p := by
  unfold State.creator at h
  split at h
  · cases h
  next q hq =>
    split at h
    · rw [← h, hq]
    · cases h

def Op.makes : Op → Bool
  | .createTaskPrio .. | .createUserTask .. | .taskFork .. | .forkForge .. | .createPush ..
  | .createFail .. | .createReclaim .. => true
  | _ => false

/-- The sections of the makers, by what they do. -/
inductive Made (s : State) (op : Op) : State → Prop where
  | nothing : Made s op s
  | counted (slot : Nat) (s1 : State) (halloc : s.allocSlot = some (slot, s1)) : Made s op s1
  | occupied (slot : Nat) (s1 : State) (x : Task) (c : Nat → Call)
      (halloc : s.allocSlot = some (slot, s1)) (hx : x.state = .ready)
      (hflag : x.killPending = false)
      (hparent : x.parentId = procNoParent ∨
        ∃ (cpu p : Nat), s1.current cpu = some p ∧ x.parentId = p)
      (hc : ∀ g, (c g).making = some (slot, g)) : Made s op (s1.occupy slot x c)
  | undone (slot : Nat) (s1 : State) (x : Task) (halloc : s.allocSlot = some (slot, s1))
      (hx : x.state = .dead) (hflag : x.killPending = false) : Made s op (s1.setTask slot fun _ => x)
  | forged (t gen rsp : Nat) (hcall : .forge t gen ∈ s.calls) :
      Made s op (((s.leave (.forge t gen)).saveFrame t rsp).enter (.create .fork t gen))
  | pushed (maker : Maker) (t gen target now : Nat) (s1 : State)
      (hcall : .create maker t gen ∈ s.calls) (htarget : target < 16)
      (hpush : (s.leave (.create maker t gen)).runqPush target t now = some s1) :
      Made s op {s1 with pushed := update s1.pushed t gen}
  | unpushed (maker : Maker) (t gen : Nat) (hcall : .create maker t gen ∈ s.calls) :
      Made s op ((s.leave (.create maker t gen)).enter (.reclaim maker t gen))
  | abandoned (k : Call) (maker : Maker) (t gen : Nat) (hk : k ∈ s.calls)
      (hop : op = .createFail maker t gen ∧ k = .create maker t gen ∨
        op = .createReclaim maker t gen ∧ k = .reclaim maker t gen)
      (hm : k.making = some (t, gen)) : Made s op ((s.leave k).abandon maker t)

theorem exec_made (s : State) {op : Op} (hop : op.makes = true) : Made s op (exec s op) := by
  cases op with dsimp only [exec]
  | createTaskPrio cpu priority rsp stack =>
    fun_cases State.createTaskPrio s cpu priority rsp stack
    · exact .nothing
    next slot s1 halloc _ =>
      refine .occupied slot s1 _ _ halloc rfl rfl ?_ fun _ => rfl
      cases hcreator : s1.creator cpu with
      | none => exact .inl rfl
      | some p => exact .inr ⟨cpu, p, current_of_creator hcreator, rfl⟩
  | createUserTask cpu rsp stack pml4 =>
    fun_cases State.createUserTask s cpu rsp stack pml4
    · exact .nothing
    next slot s1 halloc _ => exact .counted slot s1 halloc
    next slot s1 halloc p hcreator _ =>
      exact .occupied slot s1 _ _ halloc rfl rfl
        (.inr ⟨cpu, p, current_of_creator hcreator, rfl⟩) fun _ => rfl
  | taskFork cpu stack childAs uheapOk =>
    fun_cases State.taskFork s cpu stack childAs uheapOk
    all_goals try exact .nothing
    next p hcur _ slot s1 halloc _ _ _ =>
      refine .occupied slot s1 _ _ halloc rfl rfl (.inr ⟨cpu, p, ?_, rfl⟩) fun _ => rfl
      rw [(allocSlot_frame halloc).2.2, hcur]
    next slot s1 halloc _ _ _ => exact .undone slot s1 _ halloc rfl rfl
  | forkForge t gen rsp =>
    fun_cases State.forkForge s t gen rsp
    next hcall => exact .forged t gen rsp hcall
    · exact .nothing
  | createPush maker t gen target now =>
    fun_cases State.createPush s maker t gen target now
    next hcall s1 hpush => exact .pushed maker t gen target now s1 hcall.1 hcall.2 hpush
    next hcall _ => exact .unpushed maker t gen hcall.1
    · exact .nothing
  | createFail maker t gen =>
    fun_cases State.createFail s maker t gen
    next hcall => exact .abandoned _ maker t gen hcall.1 (.inl ⟨rfl, rfl⟩) rfl
    · exact .nothing
  | createReclaim maker t gen =>
    fun_cases State.createReclaim s maker t gen
    next hcall => exact .abandoned _ maker t gen hcall (.inr ⟨rfl, rfl⟩) rfl
    · exact .nothing
  | _ => exact nomatch hop

def Op.ends (s : State) : Op → Option Nat
  | .exit cpu _ _ => s.current cpu
  | .killFinish pid =>
    if .purge pid ∈ s.calls ∧ (s.tasks pid).state = .ready then some pid else none
  | _ => none

/-- The sections that may end a task, by what they do. -/
inductive Finished (s : State) (op : Op) : State → Prop where
  | nothing : Finished s op s
  | exited (cpu t : Nat) (code : Int) (reason : Nat) (s1 : State) (hop : op.ends s = some t)
      (hcur : s.current cpu = some t) (htrans : s.procTransition t code reason = some s1) :
      Finished s op (s1.setCurrent cpu none)
  | gone (pid : Nat) (hcall : .purge pid ∈ s.calls) : Finished s op (s.leave (.purge pid))
  | flagged (pid : Nat) (hcall : .purge pid ∈ s.calls) :
      Finished s op (((s.leave (.purge pid)).setTask pid fun x =>
        {x with killPending := true}).enter (.unblock pid))
  | killed (pid : Nat) {s1 : State} (hcall : .purge pid ∈ s.calls) (hop : op.ends s = some pid)
      (htrans : (s.leave (.purge pid)).procTransition pid procKillExitCode procExitKilled =
        some s1) : Finished s op s1

def Op.finishes : Op → Bool
  | .exit .. | .killFinish _ => true
  | _ => false

theorem exec_finished (s : State) {op : Op} (hop : op.finishes = true) :
    Finished s op (exec s op) := by
  cases op with
  | exit cpu code reason =>
    dsimp only [exec]
    fun_cases State.procDoExit s cpu code reason
    · exact .nothing
    · exact .nothing
    next t hcur s1 htrans => exact .exited cpu t code reason s1 hcur hcur htrans
  | killFinish pid =>
    simp only [exec, State.procKillFinish]
    split
    next hcall =>
      split
      · exact .gone pid hcall
      split
      · exact .flagged pid hcall
      rename_i hready
      cases htrans : (s.leave (.purge pid)).procTransition pid procKillExitCode procExitKilled with
      | none => exact .gone pid hcall
      | some s1 => exact .killed pid hcall (if_pos ⟨hcall, not_not.mp hready⟩) htrans
    · exact .nothing
  | _ => exact nomatch hop

theorem procTransition_eq {id : Nat} {code : Int} {reason : Nat}
    (h : s.procTransition id code reason = some s') :
    id < s.taskCount ∧ (s.tasks id).state ≠ .zombie ∧ (s.tasks id).state ≠ .dead ∧
      ∃ f : Task → Task, s' = (s.reparent id).setTask id f ∧ ∀ x, ((f x).state = .dead ∨
        (f x).state = .zombie ∧ (f x).parentId = x.parentId ∧
          (s.reparent id).waitingParent ((s.reparent id).tasks id).parentId = true) := by
  unfold State.procTransition at h
  split at h
  · cases h
  rename_i hlt
  split at h
  · cases h
  rename_i hst
  refine ⟨by omega, fun heq => hst (.inl heq), fun heq => hst (.inr heq), _,
    (some.inj h).symm, fun x => ?_⟩
  cases (s.reparent id).waitingParent ((s.reparent id).tasks id).parentId with
  | false => exact .inl rfl
  | true => exact .inr ⟨rfl, rfl, rfl⟩

theorem reparent_state (s : State) (id u : Nat) :
    ((s.reparent id).tasks u).state = (s.tasks u).state := by
  simp only [State.reparent]
  split <;> rfl

namespace Owned

variable {s s' : State} {h : Nat → Nat} {t cpu : Nat}

theorem allocSlot (hs : Owned s h) {slot : Nat} (halloc : s.allocSlot = some (slot, s')) :
    Owned s' h := by
  obtain ⟨-, -, -, rfl | rfl⟩ := allocSlot_spec hs halloc
  · exact hs
  · exact hs.reframe (fun _ => rfl) rfl rfl rfl (Nat.le_succ _)

theorem occupy (hs : Owned s h) {slot : Nat} (hdead : (s.tasks slot).state = .dead)
    (hlt : slot < s.taskCount) {x : Task} (hx : x.state = .ready) {c : Nat → Call}
    (hc : ∀ g, (c g).task = some slot) : Owned (s.occupy slot x c) h := by
  have hfree : s.own slot + h slot = 0 ∧ s.cpus slot = 0 := by
    have hgood := hs.good slot
    rw [hdead] at hgood
    exact hgood
  have hheld : Owned (s.setTask slot fun _ => x) (held h slot) := by
    refine hs.setTask (fun u hne => held_of_ne hne) ?_ (.inl hlt)
    rw [hx, held_self]
    simp only [Good]
    omega
  have hgen : Owned {s.setTask slot fun _ => x with
      gen := update s.gen slot (s.gen slot + 1)} (held h slot) :=
    hheld.reframe (fun _ => rfl) rfl rfl rfl le_rfl
  exact hgen.enter (hc _)

theorem retire (hs : Owned s (held h t)) {f : Task → Task}
    (hf : ∀ x, (f x).state = .dead ∨ (f x).state = .zombie) : Owned (s.setTask t f) h := by
  have hready := hs.held_ready (t := t) (by rw [held_self]; omega)
  rw [held_self] at hready
  refine hs.setTask (fun u hne => (held_of_ne hne).symm) ?_
    (.inl (hs.lt_of_not_dead (by rw [hready.1]; simp)))
  rcases hf (s.tasks t) with heq | heq <;> rw [heq] <;> simp only [Good] <;> omega

section
variable (hs : Owned s h)
include hs

theorem made {op : Op} (hm : Made s op s') : Owned s' h := by
  have hslot {slot : Nat} {s1 : State} (halloc : s.allocSlot = some (slot, s1)) :
      Owned s1 h ∧ slot < s1.taskCount ∧ (s1.tasks slot).state = .dead := by
    obtain ⟨hdead, hlt, -, -⟩ := allocSlot_spec hs halloc
    exact ⟨hs.allocSlot halloc, hlt, by rw [(allocSlot_frame halloc).2.1, hdead]⟩
  cases hm with
  | nothing => exact hs
  | counted slot s1 halloc => exact hs.allocSlot halloc
  | occupied slot s1 x c halloc hx _ _ hc =>
    obtain ⟨hs1, hlt, hdead⟩ := hslot halloc
    exact hs1.occupy hdead hlt hx fun g => Call.task_of_making (hc g)
  | undone slot s1 x halloc hx =>
    obtain ⟨hs1, hlt, hdead⟩ := hslot halloc
    refine hs1.setTask (fun _ _ => rfl) ?_ (.inl hlt)
    have hgood := hs1.good slot
    rw [hdead] at hgood
    rw [hx]
    exact hgood
  | forged t gen rsp hcall =>
    have hsave := (hs.leave (t := t) hcall rfl).setField t (f := fun x => {x with rsp := rsp})
      fun _ => rfl
    exact hsave.enter rfl
  | pushed maker t gen target now s1 hcall htarget hpush =>
    have hleave := hs.leave (t := t) hcall rfl
    exact (hleave.put htarget hpush).reframe (fun _ => rfl) rfl rfl rfl le_rfl
  | unpushed maker t gen hcall => exact (hs.leave (t := t) hcall rfl).enter rfl
  | abandoned k maker t gen hk _ hm =>
    exact (hs.leave hk (Call.task_of_making hm)).retire fun _ => .inl rfl

theorem reparent (id : Nat) : Owned (s.reparent id) h :=
  hs.reframe (reparent_state s id) rfl rfl rfl le_rfl

theorem finished {op : Op} (hf : Finished s op s') : Owned s' h := by
  cases hf with
  | nothing => exact hs
  | exited cpu self code reason s1 hop hcur htrans =>
    obtain ⟨-, -, -, f, rfl, hf⟩ := procTransition_eq htrans
    have hcur' : (s.reparent self).current cpu = some self := hcur
    have hown := ((hs.reparent self).seated hcur').2.1
    refine (hs.reparent self).unseat hcur (fun _ _ => rfl) ?_
    rw [hown]
    rcases hf ((s.reparent self).tasks self) with heq | ⟨heq, -⟩ <;> rw [heq] <;> simp [Good]
  | gone pid hcall => exact (hs.leave (t := pid) hcall rfl).drop
  | flagged pid hcall =>
    refine Owned.enter_free ?_ rfl
    exact (hs.leave (t := pid) hcall rfl).drop.setField pid fun _ => rfl
  | killed pid hcall hop htrans =>
    obtain ⟨-, -, -, f, rfl, hf⟩ := procTransition_eq htrans
    exact ((hs.leave (t := pid) hcall rfl).reparent pid).retire fun x =>
      (hf x).imp_right fun hz => hz.1

/-- Purging a task that is in a run queue puts it in the hands of the killer. -/
theorem schedulerRemoveTask {pid : Nat} (hqueued : ∃ c < 16, pid ∈ s.queues c) :
    Owned (s.schedulerRemoveTask pid) (held h pid) := by
  obtain ⟨c, hc, hmem⟩ := hqueued
  have hpos := count_pos_iff.mpr hmem
  have hsum : (s.queues c).count pid ≤ ∑ c ∈ Finset.range 16, (s.queues c).count pid :=
    Finset.single_le_sum (f := fun c => (s.queues c).count pid) (fun _ _ => Nat.zero_le _)
      (Finset.mem_range.mpr hc)
  have hrest := own_schedulerRemoveTask_self s pid
  have hown : s.own pid = _ + _ := rfl
  rw [← hrest] at hown
  generalize hrest' : (s.schedulerRemoveTask pid).own pid = rest at hown
  have hready := hs.held_ready (t := pid) (by omega)
  have hlt := hs.lt_of_not_dead (t := pid) (by rw [hready.1]; simp)
  refine hs.change pid (fun u _ => rfl) (fun u hne => ?_) (fun u _ => rfl) ?_ hs.range
    le_rfl (.inl hlt)
  · rw [held_of_ne hne, own_schedulerRemoveTask_of_ne s pid hne]
  · change Good (s.tasks pid).state _ (s.cpus pid)
    rw [hready.1, hready.2.2, held_self, hrest']
    exact ⟨by omega, rfl⟩

theorem procKill (cpu : Nat) {pid : Nat}
    (hqueued : (s.tasks pid).state = .ready → s.current cpu ≠ some pid →
      (s.tasks pid).killPending = false → s.mayKill cpu pid = true → pid < 16 →
      ∃ c < 16, pid ∈ s.queues c) : Owned (s.procKill cpu pid) h := by
  fun_cases State.procKill s cpu pid
  all_goals try exact hs
  next hmay hother hpending hready =>
    have hq := hqueued hready hother (Bool.eq_false_of_not_eq_true hpending)
      (by simpa using fun hno => hmay (.inr hno)) (by omega)
    exact (hs.schedulerRemoveTask hq).enter rfl
  · refine Owned.enter_free ?_ rfl
    exact hs.setField pid fun _ => rfl

end

end Owned

theorem waitTarget_zombie {self : Nat} {pid : Option Nat} (h : s.waitTarget self pid = some t) :
    (s.tasks t).state = .zombie := by
  unfold State.waitTarget at h
  split at h
  · have hfound := find?_some h
    simp only [decide_eq_true_eq] at hfound
    exact hfound.2
  · split at h
    next hchild =>
      obtain rfl := some.inj h
      exact hchild.2.2
    · cases h

/-- A pass of `proc_waitpid` reaps a zombie or changes nothing. -/
theorem procWaitpid_cases (s : State) (cpu : Nat) (pid : Option Nat) :
    (∃ t, (s.tasks t).state = .zombie ∧
      s.procWaitpid cpu pid = (.reaped t (s.tasks t).exitCode, s.reap t)) ∨
    (s.procWaitpid cpu pid).2 = s ∧ ∀ t code, (s.procWaitpid cpu pid).1 ≠ .reaped t code := by
  unfold State.procWaitpid
  split
  · exact .inr ⟨rfl, by simp⟩
  split
  · exact .inr ⟨rfl, by simp⟩
  · split
    · exact .inr ⟨rfl, by simp⟩
    next t htarget => exact .inl ⟨t, waitTarget_zombie htarget, rfl⟩

theorem reap_self (s : State) (t : Nat) : ((s.reap t).tasks t).state = .dead := by
  rw [State.reap, setTask_self]

theorem reap_of_ne (s : State) {u : Nat} (hne : u ≠ t) : (s.reap t).tasks u = s.tasks u :=
  setTask_of_ne s hne _

theorem Owned.procWaitpid {h : Nat → Nat} (hs : Owned s h) (cpu : Nat) (pid : Option Nat) :
    Owned (s.procWaitpid cpu pid).2 h := by
  rcases procWaitpid_cases s cpu pid with ⟨t, hzombie, heq⟩ | ⟨heq, -⟩
  · rw [heq]
    have hgood := hs.good t
    rw [hzombie] at hgood
    dsimp only [State.reap]
    refine hs.setTask (fun _ _ => rfl) ?_ (.inr ?_)
    · exact hgood
    · rfl
  · rw [heq]
    exact hs

end Kyuzen.Sched
