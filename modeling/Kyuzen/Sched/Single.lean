import Kyuzen.Sched.Still

/-!
No task runs on two CPUs or sits in two run queues, and none is selected before
its maker has pushed it. All of it rests on `proc_kill` finding a ready target
in a run queue. When the target has been made ready and its push is still to
come, the slot is freed and used again, and the late push enters the next
occupant.
-/

namespace Kyuzen.Sched

open List Function Option Finset Quiet

variable {s : State}

/-- A section that makes no task and revives none. -/
structure Steady (s s' : State) : Prop where
  gen : s'.gen = s.gen
  pushed : s'.pushed = s.pushed
  calls : ∀ k : Call, k.making ≠ none → (k ∈ s'.calls ↔ k ∈ s.calls)
  dead : ∀ t, (s.tasks t).state = .dead → (s'.tasks t).state = .dead

theorem Quiet.steady {s' : State} (h : Quiet s s') : Steady s s' := by
  refine {h with dead := fun t ht => life_eq_dead.mp ?_}
  rw [h.life, ht]
  rfl

namespace Steady

variable {s s' s'' : State} {t : Nat}

theorem trans (h : Steady s s') (h' : Steady s' s'') : Steady s s'' :=
  ⟨h'.gen.trans h.gen, h'.pushed.trans h.pushed,
    fun k hk => (h'.calls k hk).trans (h.calls k hk), fun t ht => h'.dead t (h.dead t ht)⟩

theorem setTask (s : State) {f : Task → Task}
    (hf : (s.tasks t).state = .dead → (f (s.tasks t)).state = .dead) : Steady s (s.setTask t f) := by
  refine ⟨rfl, rfl, fun _ _ => Iff.rfl, fun u hu => ?_⟩
  by_cases hne : u = t
  · subst hne
    rw [setTask_self]
    exact hf hu
  · rw [setTask_of_ne s hne]
    exact hu

theorem procTransition {id : Nat} {code : Int} {reason : Nat}
    (h : s.procTransition id code reason = some s') : Steady s s' := by
  obtain ⟨-, -, hst, f, rfl, -⟩ := procTransition_eq h
  have hmove : Steady s (s.reparent id) :=
    ⟨rfl, rfl, fun _ _ => Iff.rfl, fun u hu => (reparent_state s id u).trans hu⟩
  exact hmove.trans (setTask _ fun hdead => absurd ((reparent_state s id id).symm.trans hdead) hst)

theorem finished {op : Op} (hf : Finished s op s') : Steady s s' := by
  cases hf with
  | nothing => exact (refl s).steady
  | exited cpu t code reason s1 hop hcur htrans =>
    exact (procTransition htrans).trans (setCurrent _ cpu none).steady
  | gone pid hcall => exact (leave s rfl).steady
  | flagged pid hcall =>
    refine Steady.trans ?_ (enter _ rfl).steady
    exact (leave s rfl).steady.trans (setTask _ fun hdead => hdead)
  | killed pid hcall hop htrans =>
    exact (leave s (k := .purge pid) rfl).steady.trans (procTransition htrans)

theorem procWaitpid (s : State) (cpu : Nat) (pid : Option Nat) :
    Steady s (s.procWaitpid cpu pid).2 := by
  rcases procWaitpid_cases s cpu pid with ⟨t, -, heq⟩ | ⟨heq, -⟩
  · rw [heq]
    dsimp only [State.reap]
    refine setTask s fun _ => ?_
    rfl
  · rw [heq]
    exact (refl s).steady

end Steady

/-- Each task that is not dead has been pushed by its maker, or its maker is
still in flight. -/
structure Born (s : State) : Prop where
  gens : ∀ k ∈ s.calls, ∀ t g, k.making = some (t, g) → g = s.gen t
  born : ∀ t, (s.tasks t).state ≠ .dead →
    s.pushed t = s.gen t ∨ ∃ k ∈ s.calls, k.making = some (t, s.gen t)

theorem own_pos_of_call {k : Call} {t : Nat} (hk : k ∈ s.calls) (ht : k.task = some t) :
    0 < s.own t := by
  have hpos := countP_pos_iff (p := fun k : Call => decide (k.task = some t)).mpr
    ⟨k, hk, decide_eq_true ht⟩
  rw [State.own]
  omega

namespace Born

variable {s s' : State} {h : Nat → Nat} {t g : Nat} {k k' : Call}

section
variable (hs : Born s)
include hs

theorem steady (hst : Steady s s') : Born s' := by
  refine ⟨fun k hk t g hm => ?_, fun t ht => ?_⟩
  · rw [hst.gen]
    exact hs.gens k ((hst.calls k (by rw [hm]; simp)).mp hk) t g hm
  · rw [hst.gen, hst.pushed]
    refine (hs.born t fun hdead => ht (hst.dead t hdead)).imp_right ?_
    rintro ⟨k, hk, hm⟩
    exact ⟨k, (hst.calls k (by rw [hm]; simp)).mpr hk, hm⟩

theorem handOver (hk : k ∈ s.calls) (hm : k.making = some (t, g))
    (hm' : k'.making = some (t, g)) : Born ((s.leave k).enter k') := by
  refine ⟨fun c hc u g' hcm => ?_, fun u hu => (hs.born u hu).imp_right ?_⟩
  · rcases mem_cons.mp hc with rfl | hc
    · rw [hm'] at hcm
      cases hcm
      exact hs.gens k hk t g hm
    · exact hs.gens c (mem_of_mem_erase hc) u g' hcm
  · rintro ⟨c, hc, hcm⟩
    by_cases heq : c = k
    · subst heq
      exact ⟨k', mem_cons_self, hm'.trans (hm.symm.trans hcm)⟩
    · exact ⟨c, mem_cons_of_mem _ ((mem_erase_of_ne heq).mpr hc), hcm⟩

theorem finish (hk : k ∈ s.calls) (hm : k.making = some (t, g))
    (hcalls : s'.calls = s.calls.erase k) (hgen : s'.gen = s.gen)
    (hother : ∀ u ≠ t, (s'.tasks u).state = (s.tasks u).state ∧ s'.pushed u = s.pushed u)
    (hself : (s'.tasks t).state = .dead ∨ s'.pushed t = g) : Born s' := by
  refine ⟨fun c hc u g' hcm => ?_, fun u hu => ?_⟩
  · rw [hcalls] at hc
    rw [hgen]
    exact hs.gens c (mem_of_mem_erase hc) u g' hcm
  by_cases hne : u = t
  · subst hne
    rw [hself.resolve_left hu, hgen]
    exact .inl (hs.gens k hk u g hm)
  obtain ⟨hstate, hpushed⟩ := hother u hne
  rw [hstate] at hu
  rw [hpushed, hgen, hcalls]
  refine (hs.born u hu).imp_right ?_
  rintro ⟨c, hc, hcm⟩
  refine ⟨c, (mem_erase_of_ne fun heq => ?_).mpr hc, hcm⟩
  rw [heq, hm] at hcm
  exact hne (Prod.mk.inj (some.inj hcm)).1.symm

theorem occupy (ho : Owned s h) {slot : Nat} (hdead : (s.tasks slot).state = .dead)
    (x : Task) {c : Nat → Call} (hc : ∀ g, (c g).making = some (slot, g)) :
    Born (s.occupy slot x c) := by
  have hfree : s.own slot + h slot = 0 := by
    have hgood := ho.good slot
    rw [hdead] at hgood
    exact hgood.1
  have hgen : ∀ u ≠ slot, (s.occupy slot x c).gen u = s.gen u := fun u hne =>
    update_of_ne hne _ _
  have hself : (s.occupy slot x c).gen slot = s.gen slot + 1 := update_self _ _ _
  refine ⟨fun k hk u g hm => ?_, fun u hu => ?_⟩
  · rcases mem_cons.mp hk with rfl | hk
    · rw [hc] at hm
      cases hm
      exact hself.symm
    · have hne : u ≠ slot := by
        rintro rfl
        have : 0 < s.own u := own_pos_of_call hk (Call.task_of_making hm)
        omega
      rw [hgen u hne]
      exact hs.gens k hk u g hm
  · by_cases hne : u = slot
    · subst hne
      rw [hself]
      exact .inr ⟨c (s.gen u + 1), mem_cons_self, hc _⟩
    · rw [hgen u hne]
      have hu' : (s.tasks u).state ≠ .dead := by
        have htask : (s.occupy slot x c).tasks u = s.tasks u := setTask_of_ne s hne fun _ => x
        rwa [htask] at hu
      refine (hs.born u hu').imp_right ?_
      rintro ⟨k, hk, hm⟩
      exact ⟨k, mem_cons_of_mem _ hk, hm⟩

theorem allocSlot (ho : Owned s h) {slot : Nat} (halloc : s.allocSlot = some (slot, s')) :
    Born s' ∧ Owned s' h ∧ (s'.tasks slot).state = .dead := by
  obtain ⟨hdead, -, -, heq⟩ := allocSlot_spec ho halloc
  refine ⟨?_, ho.allocSlot halloc, ?_⟩ <;> rcases heq with rfl | rfl
  · exact hs
  · exact {hs with}
  · exact hdead
  · exact hdead

theorem abandon {maker : Maker} (hk : k ∈ s.calls) (hm : k.making = some (t, g)) :
    Born ((s.leave k).abandon maker t) := by
  refine hs.finish hk hm rfl rfl (fun u hne => ⟨?_, rfl⟩) (.inl ?_)
  · exact congrArg Task.state (setTask_of_ne (s.leave k) hne _)
  · rw [State.abandon, setTask_self]

theorem made {op : Op} (ho : Owned s h) (hm : Made s op s') : Born s' := by
  cases hm with
  | nothing => exact hs
  | counted slot s1 halloc => exact (hs.allocSlot ho halloc).1
  | occupied slot s1 x c halloc _ _ _ hc =>
    obtain ⟨hs1, ho1, hdead⟩ := hs.allocSlot ho halloc
    exact hs1.occupy ho1 hdead x hc
  | undone slot s1 x halloc hx =>
    exact (hs.allocSlot ho halloc).1.steady (Steady.setTask s1 fun _ => hx)
  | forged t gen rsp hcall =>
    have hgo : Born ((s.leave (.forge t gen)).enter (.create .fork t gen)) :=
      hs.handOver hcall rfl rfl
    exact hgo.steady (saveFrame _ t rsp).steady
  | pushed maker t gen target now s1 hcall htarget hpush =>
    have hsteady := runqPush hpush
    have hstate := runqPush_state hpush
    refine hs.finish hcall rfl ?_ hsteady.gen (fun u hne => ⟨hstate u, ?_⟩)
      (.inr (update_self _ _ _))
    · unfold State.runqPush at hpush
      split at hpush
      · cases hpush
      · obtain rfl := some.inj hpush
        rfl
    · change update s1.pushed t gen u = s.pushed u
      rw [update_of_ne hne, hsteady.pushed]
      rfl
  | unpushed maker t gen hcall => exact hs.handOver hcall rfl rfl
  | abandoned k maker t gen hk _ hm => exact hs.abandon hk hm

end

end Born

/-! ### Runs -/

/-- A kill that finds its target ready finds it in a run queue. -/
def Op.PurgesQueued (s : State) : Op → Prop
  | .kill cpu pid => (s.tasks pid).state = .ready → s.current cpu ≠ some pid →
      (s.tasks pid).killPending = false → s.mayKill cpu pid = true → pid < 16 →
      ∃ c < 16, pid ∈ s.queues c
  | _ => True

def SchedStep (s : State) (op : Op) (s' : State) : Prop := s' = exec s op

def CarefulStep (s : State) (op : Op) (s' : State) : Prop := op.PurgesQueued s ∧ s' = exec s op

/-- No call in flight and nothing in hand between sections. -/
abbrev Sound (s : State) : Prop := Owned s (fun _ => 0) ∧ Born s

theorem Owned.exec {h : Nat → Nat} (hs : Owned s h) {op : Op} (hop : op.PurgesQueued s) :
    Owned (exec s op) h := by
  cases op with
  | schedule online cpu regs now => exact hs.scheduleOnCpu online cpu regs now
  | blockPrepare cpu timed => exact hs.blockPrepare cpu timed
  | setWakeAt cpu target => exact hs.setWakeAt cpu target
  | unblock t => exact hs.unblockTask t
  | unblockPush t target now => exact hs.unblockPush t target now
  | unblockRepark t => exact hs.unblockRepark t
  | sleepqCheckWakeups now => exact hs.sleepqCheckWakeups now
  | unblockPending t => exact hs.unblockPending t
  | createTaskPrio | createUserTask | taskFork | forkForge | createPush | createFail
  | createReclaim => exact hs.made (exec_made s rfl)
  | exit | killFinish => exact hs.finished (exec_finished s rfl)
  | kill cpu pid => exact hs.procKill cpu hop
  | waitpid cpu pid => exact hs.procWaitpid cpu pid

theorem Born.exec {h : Nat → Nat} (hs : Born s) (ho : Owned s h) (op : Op) : Born (exec s op) := by
  rcases exec_kinds s op with h | h | h | ⟨cpu, pid, rfl⟩
  · exact hs.steady h.steady
  · exact hs.made ho h
  · exact hs.steady (.finished h)
  · exact hs.steady (.procWaitpid s cpu pid)

theorem init_sound : Sound init := by
  have hcpus : ∀ t, init.cpus t = if t = 0 then 1 else 0 := by
    intro t
    by_cases ht : t = 0
    · subst ht
      decide
    rw [if_neg ht]
    refine cpus_eq_zero fun c _ hcur => ?_
    simp only [init] at hcur
    split at hcur
    · exact ht (some.inj hcur).symm
    · cases hcur
  have hown : ∀ t, init.own t = 0 := by
    intro t
    simp [State.own, init]
  refine ⟨⟨fun t => ?_, fun c hc => ?_, fun t ht => ?_, Nat.one_pos⟩, ⟨fun k hk => ?_, fun t _ => .inl rfl⟩⟩
  · rw [hown, hcpus]
    by_cases ht : t = 0 <;> simp [init, ht, Good, deadTask]
  · exact if_neg (by omega)
  · have hne : t ≠ 0 := by
      change 1 ≤ t at ht
      omega
    simp [init, hne, deadTask]
  · cases hk

theorem CarefulStep.sound {s' : State} {op : Op} (hs : Sound s) (h : CarefulStep s op s') :
    Sound s' := by
  obtain ⟨hop, rfl⟩ := h
  exact ⟨hs.1.exec hop, hs.2.exec hs.1 op⟩

theorem CarefulRun.sound {ops : List Op} (h : Run CarefulStep init ops s) : Sound s :=
  h.invariant (I := Sound) (fun _ _ _ hs hstep => CarefulStep.sound hs hstep) init_sound

/-- When every kill of a ready task finds it in a run queue, no task is current
on two CPUs and each running task is current on exactly one. -/
theorem no_task_on_two_cpus {ops : List Op} {s : State} (h : Run CarefulStep init ops s) :
    (∀ c c' t, s.current c = some t → s.current c' = some t → c = c') ∧
    ∀ t, (s.tasks t).state = .running → ∃! c, s.current c = some t := by
  obtain ⟨ho, -⟩ := CarefulRun.sound h
  have huniq : ∀ c c' t, s.current c = some t → s.current c' = some t → c = c' := by
    intro c c' t hc hc'
    have hone := (ho.seated hc).2.2
    refine Finset.card_le_one.mp (Nat.le_of_eq hone) c ?_ c' ?_
    · exact Finset.mem_filter.mpr ⟨Finset.mem_range.mpr (ho.cpu_lt hc), hc⟩
    · exact Finset.mem_filter.mpr ⟨Finset.mem_range.mpr (ho.cpu_lt hc'), hc'⟩
  refine ⟨huniq, fun t ht => ?_⟩
  have hgood := ho.good t
  rw [ht] at hgood
  obtain ⟨c, hc⟩ := Finset.card_pos.mp (show 0 < s.cpus t by rw [hgood.2]; exact Nat.one_pos)
  have hcur := (Finset.mem_filter.mp hc).2
  exact ⟨c, hcur, fun c' hc' => huniq c' c t hc' hcur⟩

/-- Task 1 runs on CPU 1. Task 2 is killed while it waits there, and its slot gets
a new task, which waits in turn. -/
def replaced : List Op :=
  [.createUserTask 0 1 1 1, .createPush .user 1 1 1 1, .schedule 4 1 1 1, .createUserTask 0 2 2 2,
    .createPush .user 2 1 1 2, .kill 0 2, .killFinish 2, .createUserTask 0 3 3 3,
    .createPush .user 2 2 1 3]

theorem replaced_run : Run CarefulStep init replaced (replaced.foldl exec init) := by
  refine .cons ⟨trivial, rfl⟩ (.cons ⟨trivial, rfl⟩ (.cons ⟨trivial, rfl⟩ (.cons ⟨trivial, rfl⟩
    (.cons ⟨trivial, rfl⟩ (.cons ⟨fun _ _ _ _ _ => ?_, rfl⟩ (.cons ⟨trivial, rfl⟩
    (.cons ⟨trivial, rfl⟩ (.cons ⟨trivial, rfl⟩ (.nil _)))))))))
  exact ⟨1, by decide, by decide⟩

theorem no_task_on_two_cpus_replaced : (replaced.foldl exec init).current 1 = some 1 ∧
    ∃! c, (replaced.foldl exec init).current c = some 1 :=
  ⟨by decide, (no_task_on_two_cpus replaced_run).2 1 (by decide)⟩

/-- Under the same condition a task is at most once in all run queues together,
and the incarnation on a CPU is one that its maker has pushed. -/
theorem run_queue_single_membership {ops : List Op} {s : State} (h : Run CarefulStep init ops s) :
    (∀ t, ∑ c ∈ Finset.range 16, (s.queues c).count t ≤ 1) ∧
    ∀ c t, s.current c = some t → s.pushed t = s.gen t := by
  obtain ⟨ho, hb⟩ := CarefulRun.sound h
  refine ⟨fun t => ?_, fun c t hcur => ?_⟩
  · have hle : ∑ c ∈ range 16, (s.queues c).count t ≤ s.own t := by
      rw [State.own]
      omega
    by_cases hpos : 0 < s.own t
    · have hone := (ho.held_ready (t := t) (Nat.add_pos_left hpos _)).2.1
      rw [Nat.add_zero] at hone
      omega
    · omega
  · obtain ⟨hst, hown, -⟩ := ho.seated hcur
    have hlive : (s.tasks t).state ≠ .dead := by
      rcases hst with hst | hst | hst <;> rw [hst] <;> simp
    rcases hb.born t hlive with hpushed | ⟨k, hk, hm⟩
    · exact hpushed
    · have := own_pos_of_call hk (Call.task_of_making hm)
      omega

theorem run_queue_single_membership_replaced : (replaced.foldl exec init).queues 1 = [2] ∧
    ∑ c ∈ Finset.range 16, ((replaced.foldl exec init).queues c).count 2 ≤ 1 :=
  ⟨by decide, (run_queue_single_membership replaced_run).1 2⟩

/-- Nor does a run queue hold a task that cannot run, or a CPU one that has ended. -/
theorem queued_tasks_ready {ops : List Op} {s : State} (h : Run CarefulStep init ops s) :
    (∀ c < 16, ∀ t ∈ s.queues c, (s.tasks t).state = .ready ∧ ∀ c', s.current c' ≠ some t) ∧
    ∀ c t, s.current c = some t → (s.tasks t).state ≠ .dead ∧ (s.tasks t).state ≠ .zombie := by
  obtain ⟨ho, -⟩ := CarefulRun.sound h
  refine ⟨fun c hc t ht => ?_, fun c t hcur => ?_⟩
  · have hsum : 0 < ∑ c ∈ range 16, (s.queues c).count t :=
      sum_pos_iff.mpr ⟨c, Finset.mem_range.mpr hc, count_pos_iff.mpr ht⟩
    have hpos : 0 < s.own t := Nat.add_pos_left hsum _
    refine ⟨(ho.held_ready (Nat.add_pos_left hpos _)).1, fun c' hcur => ?_⟩
    have := (ho.seated hcur).2.1
    omega
  · rcases (ho.seated hcur).1 with hst | hst | hst <;> rw [hst] <;> simp

theorem queued_tasks_ready_replaced : ((replaced.foldl exec init).tasks 2).state = .ready :=
  ((queued_tasks_ready replaced_run).1 1 (by decide) 2 (by decide)).1

/-- Task 1 runs on CPU 1 and kills the task that task 0 is making in slot 2,
makes another one in that slot, and task 0 pushes the slot. -/
def latePush : List Op :=
  [.createUserTask 0 1 1 1, .createPush .user 1 1 1 1, .schedule 4 1 1 1, .createUserTask 0 2 2 2,
    .kill 1 2, .killFinish 2, .createUserTask 1 3 3 3, .createPush .user 2 1 2 2]

/-- CPU 2 selects the task of a late push, its maker gives the slot up, and the
next occupant runs on CPU 3. -/
def twoCpus : List Op :=
  latePush ++ [.schedule 4 2 1 3, .createFail .user 2 2, .createUserTask 1 4 4 4,
    .createPush .user 2 3 3 4, .schedule 4 3 1 5]

theorem task_on_two_cpus :
    ∃ s, Run SchedStep init twoCpus s ∧ s.current 2 = some 2 ∧ s.current 3 = some 2 :=
  ⟨twoCpus.foldl exec init, Run.foldl (by intro _ _ _; rfl) init, by decide, by decide⟩

def pushedTwice : List Op := latePush ++ [.createPush .user 2 2 3 3]

def selectedEarly : List Op := latePush ++ [.schedule 4 2 1 3]

theorem task_in_two_queues :
    (∃ s, Run SchedStep init pushedTwice s ∧ s.queues 2 = [2] ∧ s.queues 3 = [2]) ∧
    ∃ s, Run SchedStep init selectedEarly s ∧ s.current 2 = some 2 ∧ s.pushed 2 = 1 ∧ s.gen 2 = 2 :=
  ⟨⟨pushedTwice.foldl exec init, Run.foldl (by intro _ _ _; rfl) init, by decide, by decide⟩,
    ⟨selectedEarly.foldl exec init, Run.foldl (by intro _ _ _; rfl) init, by decide, by decide,
      by decide⟩⟩

end Kyuzen.Sched
