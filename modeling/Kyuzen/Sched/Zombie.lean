import Kyuzen.Sched.Single

/-!
Parents and zombies. The parent of a task is alive or it is task 0 or nobody, so
a zombie can be reaped when its parent is neither of these two. The exit of a
parent hands all of its children to task 0, those that are zombies already
too, and task 0 does not wait.
-/

namespace Kyuzen.Sched

open List Quiet State

variable {s : State}

/-- A parent other than task 0 is alive and not under construction. -/
structure Kin (s : State) : Prop where
  parent : ∀ i p : Nat, (s.tasks i).state ≠ .dead → (s.tasks i).parentId = p → 0 < p →
    (s.tasks p).state.life = .live ∧ ∀ k ∈ s.calls, ∀ g, k.making ≠ some (p, g)
  cap : s.taskCount ≤ 16

def Reapable (s : State) : Prop := ∀ i, (s.tasks i).state = .zombie → 0 < (s.tasks i).parentId

theorem reparent_parentId (id : Nat) {i : Nat} (hi : i < min 16 s.taskCount)
    (hlive : (s.tasks i).state ≠ .dead) (hpos : 0 < ((s.reparent id).tasks i).parentId) :
    ((s.reparent id).tasks i).parentId = (s.tasks i).parentId ∧ (s.tasks i).parentId ≠ id := by
  by_cases hchild : (s.tasks i).parentId = id
  · have heq : ((s.reparent id).tasks i).parentId = if id ≠ 0 then 0 else procNoParent := by
      simp only [reparent]
      rw [if_pos ⟨hi, hlive, hchild⟩]
    rw [heq] at hpos
    split at hpos <;> simp [procNoParent] at hpos
  · refine ⟨?_, hchild⟩
    simp only [reparent]
    rw [if_neg fun h => hchild h.2.2]

namespace Kin

variable {s s' : State} {h : Nat → Nat} {t g : Nat} {k : Call}

theorem mono (hs : Kin s) (hlife : ∀ t, (s'.tasks t).state.life = (s.tasks t).state.life)
    (hparent : ∀ t, (s'.tasks t).parentId = (s.tasks t).parentId)
    (hmaking : ∀ k ∈ s'.calls, ∀ t g, k.making = some (t, g) →
      ∃ k' ∈ s.calls, ∃ g', k'.making = some (t, g'))
    (hcount : s'.taskCount = s.taskCount) : Kin s' := by
  refine ⟨fun i p hi hp hpos => ?_, hcount ▸ hs.cap⟩
  have hi' : (s.tasks i).state ≠ .dead := fun hdead => hi (life_eq_dead.mp (by
    rw [hlife, hdead]
    rfl))
  obtain ⟨hlive, hfree⟩ := hs.parent i p hi' ((hparent i).symm.trans hp) hpos
  refine ⟨(hlife p).trans hlive, fun k hk g hm => ?_⟩
  obtain ⟨k', hk', g', hm'⟩ := hmaking k hk p g hm
  exact hfree k' hk' g' hm'

theorem quiet (hs : Kin s) (hq : Quiet s s') : Kin s' :=
  hs.mono hq.life hq.parent
    (fun k hk t g hm => ⟨k, (hq.calls k (by rw [hm]; simp)).mp hk, g, hm⟩) hq.count

theorem seated (ho : Owned s h) {cpu p : Nat} (hcur : s.current cpu = some p) :
    (s.tasks p).state.life = .live ∧ ∀ k ∈ s.calls, ∀ g, k.making ≠ some (p, g) := by
  obtain ⟨hst, hown, -⟩ := ho.seated hcur
  refine ⟨by rcases hst with hst | hst | hst <;> rw [hst] <;> rfl, fun k hk g hm => ?_⟩
  have := own_pos_of_call hk (Call.task_of_making hm)
  omega

section
variable (hs : Kin s)
include hs

theorem occupy {slot : Nat} (hdead : (s.tasks slot).state = .dead) {x : Task}
    (hx : ∀ p : Nat, x.parentId = p → 0 < p →
      (s.tasks p).state.life = .live ∧ ∀ k ∈ s.calls, ∀ g, k.making ≠ some (p, g))
    {c : Nat → Call} (hc : ∀ g, (c g).making = some (slot, g)) : Kin (s.occupy slot x c) := by
  have htask : ∀ u ≠ slot, (s.occupy slot x c).tasks u = s.tasks u := fun u hne =>
    setTask_of_ne s hne fun _ => x
  have hself : (s.occupy slot x c).tasks slot = x := setTask_self s slot fun _ => x
  refine ⟨fun i p hi hp hpos => ?_, hs.cap⟩
  have hold : (s.tasks p).state.life = .live ∧ ∀ k ∈ s.calls, ∀ g, k.making ≠ some (p, g) := by
    by_cases hne : i = slot
    · subst hne
      rw [hself] at hp
      exact hx p hp hpos
    · rw [htask i hne] at hi hp
      exact hs.parent i p hi hp hpos
  have hp' : p ≠ slot := by
    rintro rfl
    rw [hdead] at hold
    cases hold.1
  rw [htask p hp']
  refine ⟨hold.1, fun k hk g hm => ?_⟩
  rcases mem_cons.mp hk with rfl | hk
  · rw [hc] at hm
    exact hp' (Prod.mk.inj (Option.some.inj hm)).1.symm
  · exact hold.2 k hk g hm

theorem allocSlot (ho : Owned s h) {slot : Nat} (halloc : s.allocSlot = some (slot, s')) :
    Kin s' ∧ (s'.tasks slot).state = .dead ∧ s'.tasks = s.tasks ∧ s'.current = s.current := by
  obtain ⟨hdead, -, -, rfl | rfl⟩ := allocSlot_spec ho halloc
  · exact ⟨hs, hdead, rfl, rfl⟩
  refine ⟨⟨hs.parent, ?_⟩, hdead, rfl, rfl⟩
  unfold allocSlot at halloc
  split at halloc
  · have hcount := congrArg (fun r => r.2.taskCount) (Option.some.inj halloc)
    simp only at hcount
    omega
  · split at halloc
    · assumption
    · cases halloc

theorem abandon {maker : Maker} (hk : k ∈ s.calls) (hm : k.making = some (t, g)) :
    Kin ((s.leave k).abandon maker t) := by
  refine ⟨fun i p hi hp hpos => ?_, hs.cap⟩
  have hne : i ≠ t := by
    rintro rfl
    exact hi (by rw [State.abandon, setTask_self])
  rw [State.abandon, setTask_of_ne _ hne] at hi hp
  obtain ⟨hlive, hfree⟩ := hs.parent i p hi hp hpos
  have hp' : p ≠ t := by
    rintro rfl
    exact hfree k hk g hm
  rw [State.abandon, setTask_of_ne _ hp']
  exact ⟨hlive, fun c hc g' => hfree c (mem_of_mem_erase hc) g'⟩

theorem made {op : Op} (ho : Owned s h) (hm : Made s op s') : Kin s' := by
  cases hm with
  | nothing => exact hs
  | counted slot s1 halloc => exact (hs.allocSlot ho halloc).1
  | occupied slot s1 x c halloc hx _ hparent hc =>
    obtain ⟨hs1, hdead, -, -⟩ := hs.allocSlot ho halloc
    refine hs1.occupy hdead (fun p hp hpos => ?_) hc
    rcases hparent with hnone | ⟨cpu, q, hcur, hq⟩
    · rw [hnone, procNoParent] at hp
      omega
    · rw [← Int.natCast_inj.mp (hq.symm.trans hp)]
      exact seated (ho.allocSlot halloc) hcur
  | undone slot s1 x halloc hx =>
    -- the slot stays dead, and nobody has a dead parent
    obtain ⟨hs1, hdead, -, -⟩ := hs.allocSlot ho halloc
    refine ⟨fun i p hi hp hpos => ?_, hs1.cap⟩
    have hne : i ≠ slot := by
      rintro rfl
      exact hi (by rw [setTask_self, hx])
    rw [setTask_of_ne s1 hne] at hi hp
    obtain ⟨hlive, hfree⟩ := hs1.parent i p hi hp hpos
    have hp' : p ≠ slot := by
      rintro rfl
      rw [hdead] at hlive
      cases hlive
    rw [setTask_of_ne s1 hp']
    exact ⟨hlive, hfree⟩
  | forged t gen rsp hcall =>
    have hq := Quiet.saveFrame (s.leave (.forge t gen)) t rsp
    refine hs.mono hq.life hq.parent (fun k hk u g hm => ?_) rfl
    rcases mem_cons.mp hk with rfl | hk
    · exact ⟨_, hcall, g, hm⟩
    · exact ⟨k, mem_of_mem_erase hk, g, hm⟩
  | pushed maker t gen target now s1 hcall htarget hpush =>
    have hq := Quiet.runqPush hpush
    refine hs.mono hq.life hq.parent (fun k hk u g hm => ?_) hq.count
    have hk' := (hq.calls k (by rw [hm]; simp)).mp hk
    exact ⟨k, mem_of_mem_erase hk', g, hm⟩
  | unpushed maker t gen hcall =>
    refine hs.mono (fun _ => rfl) (fun _ => rfl) (fun k hk u g hm => ?_) rfl
    rcases mem_cons.mp hk with rfl | hk
    · exact ⟨_, hcall, g, hm⟩
    · exact ⟨k, mem_of_mem_erase hk, g, hm⟩
  | abandoned k maker t gen hk hop hm => exact hs.abandon hk hm

theorem procTransition (ho : Owned s h) {id : Nat} {code : Int} {reason : Nat}
    (htrans : s.procTransition id code reason = some s') : Kin s' := by
  obtain ⟨hlt, -, hlive, f, rfl, hf⟩ := procTransition_eq htrans
  have hcap := hs.cap
  -- a positive parent after the section was the parent before and is not `id`
  have hback : ∀ i p : Nat, (s.tasks i).state ≠ .dead →
      ((s.reparent id).tasks i).parentId = p → 0 < p →
      (s.tasks i).parentId = p ∧ p ≠ id := by
    intro i p hi hp hpos
    have hilt := ho.lt_of_not_dead hi
    obtain ⟨heq, hne⟩ := reparent_parentId id (by omega) hi
      (by rw [hp]; exact Int.natCast_pos.mpr hpos)
    rw [hp] at heq
    refine ⟨heq.symm, fun hpid => hne ?_⟩
    rw [← heq, hpid]
  refine ⟨fun i p hi hp hpos => ?_, hs.cap⟩
  have hparent : (s.tasks i).state ≠ .dead ∧ ((s.reparent id).tasks i).parentId = p := by
    by_cases hne : i = id
    · subst hne
      rw [setTask_self] at hi hp
      rcases hf ((s.reparent i).tasks i) with hdead | ⟨-, hkeep, -⟩
      · exact absurd hdead hi
      · exact ⟨hlive, hkeep.symm.trans hp⟩
    · rw [setTask_of_ne _ hne] at hi hp
      rw [reparent_state] at hi
      exact ⟨hi, hp⟩
  obtain ⟨hp', hne⟩ := hback i p hparent.1 hparent.2 hpos
  rw [setTask_of_ne _ hne, reparent_state]
  exact hs.parent i p hparent.1 hp' hpos

theorem finished (ho : Owned s h) {op : Op} {s' : State} (hf : Finished s op s') : Kin s' := by
  cases hf with
  | nothing => exact hs
  | exited cpu t code reason s1 hop hcur htrans =>
    exact (hs.procTransition ho htrans).quiet (setCurrent s1 cpu none)
  | gone pid hcall => exact hs.quiet (leave s rfl)
  | flagged pid hcall =>
    exact hs.quiet (((leave s rfl).trans (setTask _ rfl rfl)).trans (enter _ rfl))
  | killed pid hcall hop htrans =>
    have hs1 := hs.quiet (leave s (k := .purge pid) rfl)
    exact hs1.procTransition (ho.leave hcall rfl) htrans

theorem procWaitpid (cpu : Nat) (pid : Option Nat) : Kin (s.procWaitpid cpu pid).2 := by
  rcases procWaitpid_cases s cpu pid with ⟨t, hzombie, heq⟩ | ⟨heq, -⟩
  · rw [heq]
    refine ⟨fun i p hi hp hpos => ?_, hs.cap⟩
    have hne : i ≠ t := by
      rintro rfl
      exact hi (reap_self s i)
    rw [reap_of_ne s hne] at hi hp
    obtain ⟨hlive, hfree⟩ := hs.parent i p hi hp hpos
    have hp' : p ≠ t := by
      rintro rfl
      rw [hzombie] at hlive
      cases hlive
    rw [reap_of_ne s hp']
    exact ⟨hlive, hfree⟩
  · rw [heq]
    exact hs

theorem exec (ho : Owned s h) (op : Op) : Kin (exec s op) := by
  rcases exec_kinds s op with h | h | h | ⟨cpu, pid, rfl⟩
  · exact hs.quiet h
  · exact hs.made ho h
  · exact hs.finished ho h
  · exact hs.procWaitpid cpu pid

end

end Kin

/-! ### Zombies -/

/-- No task ends that has a zombie among its children. -/
def Op.LeavesNoZombie (s : State) (op : Op) : Prop :=
  ∀ id, op.ends s = some id → ∀ i, (s.tasks i).state = .zombie → (s.tasks i).parentId ≠ id

def ZombiesKept (s s' : State) : Prop :=
  ∀ i, (s'.tasks i).state = .zombie →
    (s.tasks i).state = .zombie ∧ (s'.tasks i).parentId = (s.tasks i).parentId

namespace ZombiesKept

variable {s s' : State} {t : Nat}

theorem refl (s : State) : ZombiesKept s s := fun _ hz => ⟨hz, rfl⟩

theorem of_life (hlife : ∀ t, (s'.tasks t).state.life = (s.tasks t).state.life)
    (hparent : ∀ t, (s'.tasks t).parentId = (s.tasks t).parentId) : ZombiesKept s s' := by
  intro i hz
  refine ⟨life_eq_zombie.mp ?_, hparent i⟩
  rw [← hlife, hz]
  rfl

theorem quiet (h : Quiet s s') : ZombiesKept s s' := of_life h.life h.parent

theorem setTask (htasks : s'.tasks = s.tasks) {f : Task → Task}
    (hf : (f (s'.tasks t)).state ≠ .zombie) : ZombiesKept s (s'.setTask t f) := by
  intro i hz
  have hne : i ≠ t := by
    rintro rfl
    rw [setTask_self] at hz
    exact hf hz
  rw [setTask_of_ne s' hne, htasks] at hz ⊢
  exact ⟨hz, rfl⟩

theorem made {op : Op} (hm : Made s op s') : ZombiesKept s s' := by
  cases hm with
  | nothing => exact refl s
  | counted slot s1 halloc =>
    have htasks := (allocSlot_frame halloc).2.1
    exact of_life (fun t => by rw [htasks]) fun t => by rw [htasks]
  | occupied slot s1 x c halloc hx =>
    exact setTask (allocSlot_frame halloc).2.1 (f := fun _ => x) (by rw [hx]; simp)
  | undone slot s1 x halloc hx => exact setTask (allocSlot_frame halloc).2.1 (by rw [hx]; simp)
  | forged t gen rsp hcall =>
    have hq := Quiet.saveFrame (s.leave (.forge t gen)) t rsp
    exact of_life hq.life hq.parent
  | pushed maker t gen target now s1 hcall htarget hpush =>
    have hq := Quiet.runqPush hpush
    exact of_life hq.life hq.parent
  | unpushed => exact refl s
  | abandoned k maker t =>
    have htasks : (s.leave k).tasks = s.tasks := rfl
    exact setTask htasks (by simp)

theorem procWaitpid (s : State) (cpu : Nat) (pid : Option Nat) :
    ZombiesKept s (s.procWaitpid cpu pid).2 := by
  rcases procWaitpid_cases s cpu pid with ⟨t, -, heq⟩ | ⟨heq, -⟩
  · rw [heq]
    dsimp only [reap]
    exact setTask rfl (by simp)
  · rw [heq]
    exact refl s

end ZombiesKept

namespace Reapable

variable {s s' : State} {h : Nat → Nat}

section
variable (hs : Reapable s)
include hs

theorem kept (hk : ZombiesKept s s') : Reapable s' := by
  intro i hz
  obtain ⟨hz', hparent⟩ := hk i hz
  rw [hparent]
  exact hs i hz'

theorem procTransition {id : Nat}
    {code : Int} {reason : Nat} (htrans : s.procTransition id code reason = some s')
    (hnone : ∀ i, (s.tasks i).state = .zombie → (s.tasks i).parentId ≠ id) : Reapable s' := by
  obtain ⟨-, -, -, f, rfl, hf⟩ := procTransition_eq htrans
  intro i hz
  by_cases hne : i = id
  · subst hne
    rw [setTask_self] at hz ⊢
    rcases hf ((s.reparent i).tasks i) with hdead | ⟨-, hkeep, hwait⟩
    · exact nomatch hdead.symm.trans hz
    · rw [hkeep]
      simp only [waitingParent, Bool.and_eq_true, decide_eq_true_eq] at hwait
      exact hwait.1.1.1
  · rw [setTask_of_ne _ hne] at hz ⊢
    rw [reparent_state] at hz
    simp only [reparent]
    rw [if_neg fun hchild => hnone i hz hchild.2.2]
    exact hs i hz

theorem finished {op : Op} {s' : State} (hnone : op.LeavesNoZombie s)
    (hf : Finished s op s') : Reapable s' := by
  cases hf with
  | nothing => exact hs
  | exited cpu t code reason s1 hop hcur htrans =>
    exact (hs.procTransition htrans (hnone t hop)).kept (.quiet (.setCurrent s1 cpu none))
  | gone pid hcall => exact hs
  | flagged pid hcall =>
    refine kept (s := s.leave (.purge pid)) hs (ZombiesKept.quiet ?_)
    exact (setTask _ rfl rfl).trans (enter _ rfl)
  | killed pid hcall hop htrans =>
    exact procTransition (s := s.leave (.purge pid)) hs htrans (hnone pid hop)

theorem exec {op : Op} (hop : op.LeavesNoZombie s) : Reapable (exec s op) := by
  rcases exec_kinds s op with h | h | h | ⟨cpu, pid, rfl⟩
  · exact hs.kept (.quiet h)
  · exact hs.kept (.made h)
  · exact hs.finished hop h
  · exact hs.kept (.procWaitpid s cpu pid)

end

end Reapable

/-! ### Status is returned once -/

/-- The child whose status a section returns. -/
def Op.reaps (s : State) : Op → Option Nat
  | .waitpid cpu pid =>
    match (s.procWaitpid cpu pid).1 with
    | .reaped t _ => some t
    | _ => none
  | _ => none

def reapCount (t g : Nat) : State → List Op → Nat
  | _, [] => 0
  | s, op :: ops =>
    (if op.reaps s = some t ∧ s.gen t = g then 1 else 0) + reapCount t g (exec s op) ops

theorem reaps_zombie {op : Op} {t : Nat} (h : op.reaps s = some t) :
    (s.tasks t).state = .zombie ∧ ((exec s op).tasks t).state = .dead := by
  cases op with
  | waitpid cpu pid =>
    simp only [Op.reaps] at h
    rcases procWaitpid_cases s cpu pid with ⟨u, hzombie, heq⟩ | ⟨-, hno⟩
    · rw [heq] at h
      obtain rfl := Option.some.inj h
      simp only [exec, heq]
      exact ⟨hzombie, reap_self s u⟩
    · split at h
      next u code hreaped => exact absurd hreaped (hno u code)
      · cases h
  | _ => cases h

/-- A section leaves the incarnation of a slot alone, and then the slot stays
dead if it is, or it starts the next one. -/
def Ages (s s' : State) (t : Nat) : Prop :=
  s'.gen t = s.gen t ∧ ((s.tasks t).state = .dead → (s'.tasks t).state = .dead) ∨
    s'.gen t = s.gen t + 1

namespace Ages

variable {s s' : State} {t : Nat}

theorem refl (s : State) (t : Nat) : Ages s s t := .inl ⟨rfl, fun h => h⟩

theorem steady (h : Steady s s') (t : Nat) : Ages s s' t := .inl ⟨congrFun h.gen t, h.dead t⟩

theorem of_tasks (hgen : s'.gen = s.gen) (htasks : s'.tasks = s.tasks) (t : Nat) : Ages s s' t :=
  .inl ⟨congrFun hgen t, fun h => by rw [htasks]; exact h⟩

theorem occupy (hgen : s'.gen = s.gen) (htasks : s'.tasks = s.tasks) (slot : Nat) (x : Task)
    (c : Nat → Call) (t : Nat) : Ages s (s'.occupy slot x c) t := by
  by_cases hne : t = slot
  · subst hne
    refine .inr ?_
    rw [← hgen]
    exact Function.update_self _ _ _
  · refine .inl ⟨?_, fun h => ?_⟩
    · rw [← hgen]
      exact Function.update_of_ne hne _ _
    · have htask : (s'.occupy slot x c).tasks t = s'.tasks t := setTask_of_ne s' hne fun _ => x
      rw [htask, htasks]
      exact h

theorem abandon (k : Call) (maker : Maker) (u t : Nat) : Ages s ((s.leave k).abandon maker u) t := by
  refine .inl ⟨rfl, fun h => ?_⟩
  by_cases hne : t = u
  · subst hne
    rw [State.abandon, setTask_self]
  · rw [State.abandon, setTask_of_ne _ hne]
    exact h

theorem made {op : Op} (hm : Made s op s') (t : Nat) : Ages s s' t := by
  cases hm with
  | nothing => exact refl s t
  | counted slot s1 halloc =>
    obtain ⟨hgen, htasks, -⟩ := allocSlot_frame halloc
    exact of_tasks hgen htasks t
  | occupied slot s1 x c halloc =>
    obtain ⟨hgen, htasks, -⟩ := allocSlot_frame halloc
    exact occupy hgen htasks _ _ _ t
  | undone slot s1 x halloc hx =>
    obtain ⟨hgen, htasks, -⟩ := allocSlot_frame halloc
    refine .inl ⟨congrFun hgen t, fun h => ?_⟩
    by_cases hne : t = slot
    · subst hne
      rw [setTask_self, hx]
    · rw [setTask_of_ne _ hne, htasks]
      exact h
  | forged u gen rsp =>
    have hq := Quiet.saveFrame (s.leave (.forge u gen)) u rsp
    exact .inl ⟨rfl, hq.steady.dead t⟩
  | pushed maker u gen target now s1 hcall htarget hpush =>
    have hq := (Quiet.runqPush hpush).steady
    exact .inl ⟨congrFun hq.gen t, hq.dead t⟩
  | unpushed => exact refl s t
  | abandoned k maker u => exact abandon k maker u t

theorem exec (s : State) (op : Op) (t : Nat) : Ages s (exec s op) t := by
  rcases exec_kinds s op with h | h | h | ⟨cpu, pid, rfl⟩
  · exact steady h.steady t
  · exact made h t
  · exact steady (.finished h) t
  · exact steady (Steady.procWaitpid s cpu pid) t

end Ages

/-- From any state, an incarnation that is over or is not the slot's any more
is not reaped, and any other one at most once. -/
theorem reapCount_le (t g : Nat) (s : State) (ops : List Op) : reapCount t g s ops ≤
      if s.gen t < g ∨ s.gen t = g ∧ (s.tasks t).state ≠ .dead then 1 else 0 := by
  induction ops generalizing s with
  | nil => exact Nat.zero_le _
  | cons op ops ih =>
    have hrest := ih (exec s op)
    have hage := Ages.exec s op t
    simp only [reapCount]
    by_cases hreap : op.reaps s = some t ∧ s.gen t = g
    · obtain ⟨hzombie, hdead⟩ := reaps_zombie hreap.1
      have hzero : reapCount t g (exec s op) ops = 0 := by
        have hnot : ¬ ((exec s op).gen t < g ∨ (exec s op).gen t = g ∧
            ((exec s op).tasks t).state ≠ .dead) := by
          rcases hage with ⟨hgen, -⟩ | hgen
          · rintro (hlt | ⟨-, hlive⟩)
            · omega
            · exact hlive hdead
          · omega
        rw [if_neg hnot] at hrest
        omega
      rw [if_pos hreap, hzero, if_pos (.inr ⟨hreap.2, by rw [hzombie]; simp⟩)]
    · rw [if_neg hreap, Nat.zero_add]
      refine hrest.trans ?_
      split
      next hafter =>
        rw [if_pos]
        rcases hage with ⟨hgen, hkeep⟩ | hgen
        · rw [hgen] at hafter
          exact hafter.imp_right fun hsame => ⟨hsame.1, fun hdead => hsame.2 (hkeep hdead)⟩
        · omega
      · exact Nat.zero_le _

/-! ### Runs -/

def ReapStep (s : State) (op : Op) (s' : State) : Prop :=
  op.PurgesQueued s ∧ op.LeavesNoZombie s ∧ s' = exec s op

theorem init_kin : Kin init ∧ Reapable init := by
  have hparent : ∀ i, (init.tasks i).parentId = procNoParent := by
    intro i
    simp only [init]
    split <;> rfl
  refine ⟨⟨fun i p _ hp _ => ?_, by decide⟩, fun i hz => ?_⟩
  · rw [hparent, procNoParent] at hp
    omega
  · simp only [init] at hz
    split at hz <;> cases hz

/-- When no task ends that has a zombie among its children, and every kill of a
ready task finds it in a run queue, each zombie has a parent other than task 0
that is alive. Each status is returned at most once. -/
theorem zombies_reapable {ops : List Op} {s : State} (h : Run ReapStep init ops s) :
    (∀ i, (s.tasks i).state = .zombie → ∃ p : Nat, 0 < p ∧ (s.tasks i).parentId = p ∧
      (s.tasks p).state ≠ .dead ∧ (s.tasks p).state ≠ .zombie) ∧
    ∀ t g, reapCount t g init ops ≤ 1 := by
  have hinv : (Owned s fun _ => 0) ∧ Kin s ∧ Reapable s := by
    refine h.invariant (I := fun s => (Owned s fun _ => 0) ∧ Kin s ∧ Reapable s)
      (fun s op s' hs hstep => ?_) ⟨init_sound.1, init_kin⟩
    obtain ⟨hpurge, hleave, rfl⟩ := hstep
    exact ⟨hs.1.exec hpurge, hs.2.1.exec hs.1 op, hs.2.2.exec hleave⟩
  refine ⟨fun i hz => ?_, fun t g => ?_⟩
  · have hpos := hinv.2.2 i hz
    have hp : (s.tasks i).parentId = ((s.tasks i).parentId.toNat : Int) := by omega
    have hlive := (hinv.2.1.parent i _ (by rw [hz]; simp) hp (by omega)).1
    exact ⟨_, by omega, hp, life_eq_live.mp hlive⟩
  · refine (reapCount_le t g init ops).trans ?_
    split <;> omega

def childRuns : List Op :=
  [.createUserTask 0 1 1 1, .createPush .user 1 1 1 1, .schedule 4 1 1 1, .createUserTask 1 2 2 2,
    .createPush .user 2 1 2 2, .schedule 4 2 1 2]

theorem childRuns_no_zombie (i : Nat) : ((childRuns.foldl exec init).tasks i).state ≠ .zombie := by
  have hrun : Run CarefulStep init childRuns (childRuns.foldl exec init) :=
    .cons ⟨trivial, rfl⟩ (.cons ⟨trivial, rfl⟩ (.cons ⟨trivial, rfl⟩ (.cons ⟨trivial, rfl⟩
      (.cons ⟨trivial, rfl⟩ (.cons ⟨trivial, rfl⟩ (.nil _))))))
  have hsmall : ∀ i < 3, ((childRuns.foldl exec init).tasks i).state ≠ .zombie := by decide
  have hcount : (childRuns.foldl exec init).taskCount = 3 := by decide
  by_cases hi : i < 3
  · exact hsmall i hi
  · rw [(CarefulRun.sound hrun).1.fresh i (by omega)]
    simp

def childReaped : List Op := childRuns ++ [.exit 2 7 0, .waitpid 1 none]

theorem zombies_reapable_childReaped : reapCount 2 1 init childReaped ≤ 1 := by
  have hquiet : ∀ {op : Op} {s : State}, op.ends s = none → op.LeavesNoZombie s := by
    intro op s hnone id hid
    cases hnone.symm.trans hid
  have hrun : Run ReapStep init childReaped (childReaped.foldl exec init) :=
    .cons ⟨trivial, hquiet rfl, rfl⟩ (.cons ⟨trivial, hquiet rfl, rfl⟩
      (.cons ⟨trivial, hquiet rfl, rfl⟩ (.cons ⟨trivial, hquiet rfl, rfl⟩
      (.cons ⟨trivial, hquiet rfl, rfl⟩ (.cons ⟨trivial, hquiet rfl, rfl⟩
      (.cons ⟨trivial, fun _ _ i hz => absurd hz (childRuns_no_zombie i), rfl⟩
      (.cons ⟨trivial, hquiet rfl, rfl⟩ (.nil _))))))))
  exact (zombies_reapable hrun).2 2 1

def orphanZombie : List Op :=
  [.createUserTask 0 1 1 1, .createPush .user 1 1 1 1, .schedule 4 1 1 1, .createUserTask 1 2 2 2,
    .createPush .user 2 1 2 2, .schedule 4 2 1 2, .createUserTask 2 3 3 3, .createPush .user 3 1 3 3,
    .schedule 4 3 1 3, .exit 3 7 0, .exit 2 0 0]

theorem zombie_of_task_zero : ∃ s, Run SchedStep init orphanZombie s ∧
    (s.tasks 3).state = .zombie ∧ (s.tasks 3).parentId = 0 :=
  ⟨orphanZombie.foldl exec init, Run.foldl (by intro _ _ _; rfl) init, by decide, by decide⟩

end Kyuzen.Sched
