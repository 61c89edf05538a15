import Kyuzen.Sched.Core

/-!
Aging of `runqueue.c`: how long a task can wait in a run queue that is popped
regularly.
-/

namespace Kyuzen.Sched

open List Option

def prioMax : Nat := 3

namespace State

variable {s s' : State} {cpu t u now e last clock : Nat}

/-! ### The choice of `runq_pop` -/

/-- The scan prefers `t` to `b`. -/
def Ahead (s : State) (now t b : Nat) : Prop :=
  s.effectivePrio t now > s.effectivePrio b now ∨
    s.effectivePrio t now = s.effectivePrio b now ∧
      (s.tasks t).enqueueMs < (s.tasks b).enqueueMs

instance (s : State) (now t b : Nat) : Decidable (s.Ahead now t b) := by
  unfold Ahead
  infer_instance

theorem scan_best (s : State) (now : Nat) (f : Nat → Nat) (l : List Nat) (best : Nat) :
    let i := l.foldl (fun best i => if s.Ahead now (f i) (f best) then i else best) best
    i ∈ best :: l ∧ ∀ j ∈ best :: l, ¬ s.Ahead now (f j) (f i) := by
  induction l generalizing best with
  | nil =>
    refine ⟨mem_singleton.mpr rfl, fun j hj => ?_⟩
    rw [mem_singleton.mp hj, Ahead]
    exact fun h => h.elim (lt_irrefl _) fun h => lt_irrefl _ h.2
  | cons x l ih =>
    obtain ⟨hmem, hbest⟩ := ih (if s.Ahead now (f x) (f best) then x else best)
    rw [foldl_cons]
    -- the loser of the first comparison is behind its winner, so behind the result
    constructor
    · rcases mem_cons.mp hmem with h | h
      · rw [h]
        split <;> simp
      · exact .tail _ (.tail _ h)
    · have hwin := hbest _ (.head _)
      intro j hj
      by_cases hjl : j ∈ l
      · exact hbest j (.tail _ hjl)
      have hj : j = best ∨ j = x := by simpa [hjl] using hj
      split_ifs at hwin ⊢ with hx
      · rcases hj with rfl | rfl
        · unfold Ahead at *
          omega
        · exact hwin
      · rcases hj with rfl | rfl
        · exact hwin
        · unfold Ahead at *
          omega

/-- What a pop takes is preferred to everything else in the queue. -/
theorem runqPop_spec (h : s.runqPop cpu now = some (u, s')) :
    s'.tasks = s.tasks ∧ (u :: s'.queues cpu).Perm (s.queues cpu) ∧
      ∀ x ∈ s.queues cpu, ¬ s.Ahead now x u := by
  unfold runqPop at h
  dsimp only at h
  split at h
  · cases h
  rename_i t ht
  obtain ⟨rfl, rfl⟩ := Prod.mk.inj (some.inj h)
  refine ⟨rfl, ?_, fun x hx => ?_⟩
  · refine perm_iff_count.mpr fun b => ?_
    rw [count_cons, ← count_swapRemove ht b]
    simp [setQueue]
  · obtain ⟨i, hi, rfl⟩ := mem_iff_getElem.mp hx
    have hbest := (scan_best s now ((s.queues cpu).getD · 0)
      (range' 1 ((s.queues cpu).length - 1)) 0).2 i
      (by rw [mem_cons, mem_range'_1]; omega)
    have hget : (s.queues cpu).getD (s.bestIndex now (s.queues cpu)) 0 = t := by
      rw [getD_eq_getElem?_getD, ht, getD_some]
    rw [getD_eq_getElem?_getD, getElem?_eq_getElem hi, getD_some] at hbest
    rw [← hget]
    exact hbest

theorem runqPop_ne_none (now : Nat) (hu : u ∈ s.queues cpu) : s.runqPop cpu now ≠ none := by
  have hlt : s.bestIndex now (s.queues cpu) < (s.queues cpu).length := by
    have hmem := (scan_best s now ((s.queues cpu).getD · 0)
      (range' 1 ((s.queues cpu).length - 1)) 0).1
    have hpos := length_pos_of_mem hu
    rw [mem_cons, mem_range'_1] at hmem
    change s.bestIndex now (s.queues cpu) = 0 ∨ 1 ≤ s.bestIndex now (s.queues cpu) ∧
      s.bestIndex now (s.queues cpu) < _ at hmem
    omega
  unfold runqPop
  dsimp only
  rw [getElem?_eq_getElem hlt]
  exact some_ne_none _

theorem runqPush_spec (h : s.runqPush cpu u now = some s') :
    s'.queues cpu = s.queues cpu ++ [u] ∧ (s'.queues cpu).length ≤ maxTasks ∧
      (∀ x, (s'.tasks x).priority = (s.tasks x).priority) ∧
      ∀ x, (s'.tasks x).enqueueMs = if x = u then now else (s.tasks x).enqueueMs := by
  unfold runqPush at h
  split at h
  · cases h
  rename_i hroom
  obtain rfl := some.inj h
  refine ⟨by simp [setQueue], ?_, fun x => ?_, fun x => ?_⟩
  · simp only [setQueue, Function.update_self, length_append, length_singleton, maxTasks]
    omega
  all_goals
    by_cases hx : x = u
    · simp [setQueue, setTask, hx]
    · simp [setQueue, setTask, hx]

/-! ### A schedule of one queue -/

inductive QueueOp where
  | push (t : Nat)
  | pop
  deriving DecidableEq, Repr

/-- A push or pop at time `now`; a full or empty queue stays as it is. -/
def queueStep (s : State) (cpu now : Nat) : QueueOp → State
  | .push t => (s.runqPush cpu t now).getD s
  | .pop => (s.runqPop cpu now).elim s Prod.snd

def pops (cpu : Nat) : State → List (Nat × QueueOp) → List (Nat × Nat)
  | _, [] => []
  | s, (now, .push t) :: ops => pops cpu (s.queueStep cpu now (.push t)) ops
  | s, (now, .pop) :: ops =>
    ((s.runqPop cpu now).map fun r => (now, r.1)).toList ++ pops cpu (s.queueStep cpu now .pop) ops

/-- The clock does not go back, the last pop is never more than 20 ms ago, and a
task is only pushed while it is not queued. -/
def Timely (cpu : Nat) : State → (last clock : Nat) → List (Nat × QueueOp) → Prop
  | _, _, _, [] => True
  | s, last, clock, (now, op) :: ops => clock ≤ now ∧ now ≤ last + 20 ∧
    (∀ t, op = .push t → t ∉ s.queues cpu) ∧
    Timely cpu (s.queueStep cpu now op) (if op = .pop then now else last) now ops

/-! ### The wait -/

/-- The entries that were queued before the waiting task had its full bonus. -/
def older (s : State) (cpu e : Nat) : Nat :=
  (s.queues cpu).countP fun u => (s.tasks u).enqueueMs < e + 800

/-- Task `t` waits since `e`. From `e + 800` on only older entries are preferred
to it, and each pop takes one of these. -/
structure Waits (s : State) (cpu t e last clock : Nat) : Prop where
  prio : ∀ u, (s.tasks u).priority ≤ prioMax
  mem : t ∈ s.queues cpu
  stamp : (s.tasks t).enqueueMs = e
  room : (s.queues cpu).length ≤ maxTasks
  order : last ≤ clock ∧ e ≤ clock
  left : last + 20 * s.older cpu e ≤ e + 1120

theorem Waits.last_le (h : s.Waits cpu t e last clock) : last ≤ e + 1100 := by
  have hpos : 0 < s.older cpu e := countP_pos_iff.mpr ⟨t, h.mem, by simp [h.stamp]⟩
  have := h.left
  omega

theorem effectivePrio_le (s : State) (u now : Nat) : s.effectivePrio u now ≤
    (s.tasks u).priority + (now - (s.tasks u).enqueueMs) / 100 := by
  unfold effectivePrio
  dsimp only
  split <;> split <;> omega

theorem older_le (s : State) (cpu e : Nat) : s.older cpu e ≤ (s.queues cpu).length :=
  countP_le_length

theorem older_runqPush (h : s.runqPush cpu u now = some s') (hlate : e + 800 ≤ now) :
    s'.older cpu e ≤ s.older cpu e := by
  obtain ⟨hqueue, -, -, hstamp⟩ := runqPush_spec h
  unfold older
  have hnew : [u].countP (fun x => decide ((s'.tasks x).enqueueMs < e + 800)) = 0 := by
    simp [hstamp, hlate]
  rw [hqueue, countP_append, hnew]
  refine countP_mono_left fun x _ hx => ?_
  rw [decide_eq_true_eq, hstamp] at hx
  split at hx
  · omega
  · exact decide_eq_true hx

section
variable (h : s.Waits cpu t e last clock) (hclock : clock ≤ now)
include h hclock

theorem Waits.push
    (hu : u ∉ s.queues cpu) : (s.queueStep cpu now (.push u)).Waits cpu t e last now := by
  have hsame : s.Waits cpu t e last now :=
    {h with order := ⟨h.order.1.trans hclock, h.order.2.trans hclock⟩}
  rw [queueStep]
  cases hpush : s.runqPush cpu u now with
  | none => exact hsame
  | some s' =>
    rw [getD_some]
    obtain ⟨hqueue, hroom, hprio, hstamp⟩ := runqPush_spec hpush
    refine ⟨fun x => hprio x ▸ h.prio x, ?_, ?_, hroom, hsame.order, ?_⟩
    · exact hqueue ▸ mem_append_left _ h.mem
    · rw [hstamp, if_neg fun (heq : t = u) => hu (heq ▸ h.mem), h.stamp]
    by_cases hlate : e + 800 ≤ now
    · have := older_runqPush hpush hlate
      have := h.left
      omega
    · have := older_le s' cpu e
      have := h.order
      unfold maxTasks at hroom
      omega

theorem Waits.pop (hgap : now ≤ last + 20)
    (hpop : s.runqPop cpu now = some (u, s')) (hu : u ≠ t) : s'.Waits cpu t e now now := by
  obtain ⟨htasks, hperm, hbest⟩ := runqPop_spec hpop
  have hlast := h.last_le
  have hlen := hperm.length_eq
  have hroom := h.room
  rw [length_cons] at hlen
  have hcount : s.older cpu e = s'.older cpu e +
      if (s.tasks u).enqueueMs < e + 800 then 1 else 0 := by
    unfold older
    rw [← hperm.countP_eq, countP_cons, htasks]
    simp
  refine ⟨htasks ▸ h.prio, ?_, by rw [htasks, h.stamp], by omega,
    ⟨le_rfl, h.order.2.trans hclock⟩, ?_⟩
  · exact (mem_cons.mp (hperm.mem_iff.mpr h.mem)).resolve_left (Ne.symm hu)
  by_cases hold : (s.tasks u).enqueueMs < e + 800
  · rw [if_pos hold] at hcount
    have := h.left
    omega
  by_cases hlate : e + 800 ≤ now
  · -- with its full bonus the task is ahead of every entry that came later
    exfalso
    apply hbest t h.mem
    have hle := effectivePrio_le s u now
    have hprio := h.prio u
    have hfull : 8 ≤ s.effectivePrio t now := by
      have hbonus : (now - e) / 100 % 2 ^ 32 = (now - e) / 100 := Nat.mod_eq_of_lt (by omega)
      have hlater : now > e := by omega
      simp only [effectivePrio, h.stamp, if_pos hlater, hbonus]
      split <;> omega
    have hstamp := h.stamp
    unfold prioMax at hprio
    unfold Ahead
    omega
  · have := older_le s' cpu e
    unfold maxTasks at hroom
    omega

end

theorem Waits.start (hprio : ∀ u, (s.tasks u).priority ≤ prioMax)
    (hpush : s.runqPush cpu t e = some s') (hlast : last ≤ e) : s'.Waits cpu t e last e := by
  obtain ⟨hqueue, hroom, hprio', hstamp⟩ := runqPush_spec hpush
  refine ⟨fun x => hprio' x ▸ hprio x, by simp [hqueue], by simp [hstamp], hroom,
    ⟨hlast, le_rfl⟩, ?_⟩
  have := older_le s' cpu e
  unfold maxTasks at hroom
  omega

/-- While the task waits no step comes later than 1120 ms after its push. -/
theorem Waits.popped (h : s.Waits cpu t e last clock) {ops : List (Nat × QueueOp)}
    (htimely : Timely cpu s last clock ops) (hlong : ∃ step ∈ ops, e + 1120 < step.1) :
    ∃ now ≤ e + 1120, (now, t) ∈ pops cpu s ops := by
  induction ops generalizing s last clock with
  | nil => exact absurd hlong (by simp)
  | cons step ops ih =>
    obtain ⟨now, op⟩ := step
    obtain ⟨hclock, hgap, hnew, hrest⟩ := htimely
    have hlast := h.last_le
    have hlong' : ∃ step ∈ ops, e + 1120 < step.1 := by
      obtain ⟨step, hstep, hlate⟩ := hlong
      rcases mem_cons.mp hstep with rfl | hstep
      · dsimp only at hlate
        omega
      · exact ⟨step, hstep, hlate⟩
    cases op with
    | push u => exact ih (h.push hclock (hnew u rfl)) hrest hlong'
    | pop =>
      obtain ⟨⟨u, s'⟩, hpop⟩ := ne_none_iff_exists'.mp (runqPop_ne_none now h.mem)
      have hstep : s.queueStep cpu now .pop = s' := by simp [queueStep, hpop]
      simp only [pops, hpop, hstep, map_some, toList_some, singleton_append, mem_cons]
      by_cases hu : u = t
      · exact ⟨now, by omega, .inl (by rw [hu])⟩
      · rw [hstep] at hrest
        obtain ⟨n, hn, hmem⟩ := ih (h.pop hclock hgap hpop hu) hrest hlong'
        exact ⟨n, hn, .inr hmem⟩

/-- A task that was pushed at `e` is popped within 1120 ms, however the other
tasks come and go, in every schedule that goes on for so long. -/
theorem aging_bounds_wait (s s₁ : State) (cpu t e last : Nat)
    (hprio : ∀ u, (s.tasks u).priority ≤ prioMax) (hlast : last ≤ e)
    (hpush : s.runqPush cpu t e = some s₁) (ops : List (Nat × QueueOp))
    (htimely : Timely cpu s₁ last e ops) (hlong : ∃ step ∈ ops, e + 1120 < step.1) :
    ∃ now ≤ e + 1120, (now, t) ∈ pops cpu s₁ ops :=
  (Waits.start hprio hpush hlast).popped htimely hlong

/-- A pop every 20 ms, and task `u` is pushed again whenever it has been popped. -/
def rounds (cpu u : Nat) : Nat → State → Nat → List (Nat × QueueOp)
  | 0, _, _ => []
  | n + 1, s, now =>
    let s' := s.queueStep cpu (now + 20) .pop
    (now + 20, .pop) :: if u ∈ s'.queues cpu then rounds cpu u n s' (now + 20)
      else (now + 20, .push u) :: rounds cpu u n (s'.queueStep cpu (now + 20) (.push u)) (now + 20)

theorem timely_rounds (u n : Nat) : Timely cpu s now now (rounds cpu u n s now) := by
  induction n generalizing s now with
  | zero => trivial
  | succ n ih =>
    refine ⟨Nat.le_add_right _ _, le_rfl, fun _ h => (by cases h), ?_⟩
    rw [if_pos rfl]
    split
    · exact ih
    next hout =>
      refine ⟨le_rfl, Nat.le_add_right _ _, fun t h => ?_, ?_⟩
      · cases h
        exact hout
      · rw [if_neg (by rintro ⟨⟩)]
        exact ih

theorem pop_mem_rounds (u n : Nat) : (now + 20 * (n + 1), .pop) ∈ rounds cpu u (n + 1) s now := by
  induction n generalizing s now with
  | zero => exact .head _
  | succ n ih =>
    rw [rounds, show now + 20 * (n + 1 + 1) = now + 20 + 20 * (n + 1) by ring]
    refine .tail _ ?_
    split
    · exact ih
    · exact .tail _ ih

/-- Task 2 was there before and comes back after each pop. -/
theorem aging_bounds_wait_rounds : ∃ s s₁, init.runqPush 0 2 0 = some s ∧
    s.runqPush 0 1 0 = some s₁ ∧ ∃ now ≤ 1120, (now, 1) ∈ pops 0 s₁ (rounds 0 2 57 s₁ 0) := by
  obtain ⟨s, hs, s₁, hpush, hprio⟩ : ∃ s, init.runqPush 0 2 0 = some s ∧
      ∃ s₁, s.runqPush 0 1 0 = some s₁ ∧ ∀ u, (s.tasks u).priority ≤ prioMax := by
    refine ⟨_, rfl, _, rfl, fun u => ?_⟩
    simp only [setQueue, setTask, init, Function.update_apply]
    split_ifs <;> decide
  exact ⟨s, s₁, hs, hpush, aging_bounds_wait s s₁ 0 1 0 0 hprio le_rfl hpush _
    (timely_rounds 2 57) ⟨(1140, .pop), pop_mem_rounds 2 56, by decide⟩⟩

end State

end Kyuzen.Sched
