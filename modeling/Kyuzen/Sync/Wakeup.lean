import Kyuzen.Sync.Monitor

/-!
Whether a wakeup can be lost. The wakeup of a release goes to one waiter. As long
as that waiter comes back to check, at least as many tasks are on their way as
there is to be had. A waiter that is killed takes the wakeup with it.
-/

namespace Kyuzen.Sync

open List Finset

open Kyuzen.Sched (TaskState)

variable {σ : Type} {r : Resource σ} {m m' : Monitor σ} {t : Nat}

/-- A task that has left the queue and will check the object again. -/
def Monitor.Woken (m : Monitor σ) (t : Nat) : Prop :=
  ((m.task t).state = .running ∨ (m.task t).state = .ready) ∧ (m.task t).waiting = true ∧
    (m.task t).killPending = false ∧ t ∉ m.wq

instance (m : Monitor σ) (t : Nat) : Decidable (m.Woken t) :=
  inferInstanceAs (Decidable (_ ∧ _ ∧ _ ∧ _))

def Monitor.woken (m : Monitor σ) : Finset Nat := (Finset.range 16).filter m.Woken

structure Queue (m : Monitor σ) : Prop where
  nodup : m.wq.Nodup
  waiting : ∀ t ∈ m.wq, (m.task t).waiting = true ∧
    ((m.task t).killPending = false → (m.task t).state = .blocked)
  inside : ∀ t, (m.task t).waiting = true → t < 16 ∧ (m.task t).state ≠ .dead

/-- No more can be had than there are tasks on their way to it. -/
structure Served (r : Resource σ) (m : Monitor σ) : Prop extends Queue m where
  served : m.wq ≠ [] → r.avail m.res ≤ m.woken.card

@[simp] theorem setTask_self (w : Waiter) : (m.setTask t w).task t = w := Function.update_self _ _ _

theorem setTask_of_ne {u : Nat} (hne : u ≠ t) (w : Waiter) : (m.setTask t w).task u = m.task u :=
  Function.update_of_ne hne _ _

open Monitor

theorem mem_woken : t ∈ m.woken ↔ t < 16 ∧ m.Woken t := by
  rw [woken, Finset.mem_filter, Finset.mem_range]

/-- Whether a task is on its way depends on it alone. -/
theorem woken_congr {u : Nat} (htask : m'.task u = m.task u) (hmem : u ∈ m'.wq ↔ u ∈ m.wq) :
    m'.Woken u ↔ m.Woken u := by
  unfold Monitor.Woken
  rw [htask, hmem]

namespace Queue

theorem setTask (hq : Queue m) (ht : t ∉ m.wq) {w : Waiter}
    (hw : w.waiting = true → t < 16 ∧ w.state ≠ .dead) : Queue (m.setTask t w) := by
  refine ⟨hq.nodup, fun u hu => ?_, fun u hu => ?_⟩
  · have hne : u ≠ t := fun heq => ht (heq ▸ hu)
    rw [setTask_of_ne hne]
    exact hq.waiting u hu
  by_cases hne : u = t
  · subst hne
    rw [setTask_self] at hu ⊢
    exact hw hu
  · rw [setTask_of_ne hne] at hu ⊢
    exact hq.inside u hu

theorem setTask_mem (hq : Queue m) {w : Waiter} (hwait : w.waiting = (m.task t).waiting)
    (hdead : (m.task t).state ≠ .dead → w.state ≠ .dead)
    (hblocked : t ∈ m.wq → w.killPending = false → w.state = .blocked) :
    Queue (m.setTask t w) := by
  refine ⟨hq.nodup, fun u hu => ?_, fun u hu => ?_⟩ <;> by_cases hne : u = t
  · subst hne
    rw [setTask_self]
    exact ⟨hwait.trans (hq.waiting u hu).1, hblocked hu⟩
  · rw [setTask_of_ne hne]
    exact hq.waiting u hu
  · subst hne
    rw [setTask_self] at hu ⊢
    exact (hq.inside u (hwait.symm.trans hu)).imp_right hdead
  · rw [setTask_of_ne hne] at hu ⊢
    exact hq.inside u hu

theorem erase (hq : Queue m) (t : Nat) : Queue {m with wq := m.wq.erase t} :=
  ⟨hq.nodup.erase t, fun u hu => hq.waiting u (mem_of_mem_erase hu), hq.inside⟩

theorem not_mem (hq : Queue m) (hst : (m.task t).state ≠ .blocked)
    (hkill : (m.task t).killPending = false) : t ∉ m.wq := fun hmem =>
  hst ((hq.waiting t hmem).2 hkill)

end Queue

namespace Served

theorem mono (hs : Served r m) (hq : Queue m') (hres : r.avail m'.res ≤ r.avail m.res)
    (hwq : m'.wq ≠ [] → m.wq ≠ []) (hwoken : ∀ u, m.Woken u → m'.Woken u) : Served r m' := by
  refine ⟨hq, fun hne => ?_⟩
  have hsub : m.woken ⊆ m'.woken := fun u hu => by
    rw [mem_woken] at hu ⊢
    exact ⟨hu.1, hwoken u hu.2⟩
  have hcard : (m.woken.card : Int) ≤ m'.woken.card := by exact_mod_cast card_le_card hsub
  exact (hres.trans (hs.served (hwq hne))).trans hcard

theorem busy (hq : Queue m) (hres : r.avail m.res ≤ 0) : Served r m :=
  ⟨hq, fun _ => hres.trans (Int.natCast_nonneg _)⟩

section
variable (hs : Served r m)
include hs

theorem setTask {w : Waiter} (hq : Queue (m.setTask t w)) (ht : ¬ m.Woken t) :
    Served r (m.setTask t w) := by
  refine hs.mono hq (Int.le_refl _) (fun h => h) fun u hu => ?_
  have hne : u ≠ t := fun heq => ht (heq ▸ hu)
  exact (woken_congr (setTask_of_ne hne w) Iff.rfl).mpr hu

theorem waitBlock (hbusy : r.avail m.res ≤ 0) (ht : t < 16) (hmem : t ∉ m.wq) :
    Served r (m.waitBlock t) := by
  unfold Monitor.waitBlock
  split
  · exact hs
  split
  · exact busy (hs.toQueue.setTask hmem nofun) hbusy
  refine busy ⟨?_, fun u hu => ?_, fun u hu => ?_⟩ hbusy
  · exact nodup_append.mpr ⟨hs.nodup, nodup_singleton t, fun a ha b hb => by
      rw [List.mem_singleton.mp hb]
      exact fun heq => hmem (heq ▸ ha)⟩
  · by_cases hne : u = t
    · subst hne
      rw [setTask_self]
      exact ⟨rfl, fun _ => rfl⟩
    · rw [setTask_of_ne hne]
      rcases mem_append.mp hu with hu | hu
      · exact hs.waiting u hu
      · exact absurd (List.mem_singleton.mp hu) hne
  · by_cases hne : u = t
    · subst hne
      rw [setTask_self]
      exact ⟨ht, by simp⟩
    · rw [setTask_of_ne hne] at hu ⊢
      exact hs.inside u hu

theorem take (havail : 0 < r.avail m.res) (t : Nat) : Served r {m with res := r.take t m.res} := by
  have hless := r.avail_take t m.res havail
  exact hs.mono {hs with} (by dsimp only; omega) (fun h => h)
    fun u hu => hu

theorem lock (t : Nat) : Served r (m.lock r t) := by
  unfold Monitor.lock
  split
  next hargs =>
    split
    next havail => exact hs.take havail t
    next hbusy =>
      refine hs.waitBlock (by omega) hargs.1 fun hmem => ?_
      have hwait := (hs.waiting t hmem).1
      exact nomatch hargs.2.2.symm.trans hwait
  · exact hs

theorem tryLock (t : Nat) : Served r (m.tryLock r t) := by
  unfold Monitor.tryLock
  split
  next hargs => exact hs.take hargs.2.2 t
  · exact hs

theorem relock (t : Nat) : Served r (m.relock r t) := by
  unfold Monitor.relock
  split
  next hargs =>
    have ht := (hs.inside t hargs.2).1
    split
    next hkill =>
      have hmem : t ∉ m.wq.erase t := hs.nodup.not_mem_erase
      have hq : Queue ({m with wq := m.wq.erase t}.terminate t) :=
        (hs.toQueue.erase t).setTask hmem nofun
      refine hs.mono hq (Int.le_refl _) (fun hne hnil => ?_) fun u hu => ?_
      · apply hne
        rw [hnil]
        rfl
      · have hne : u ≠ t := by
          rintro rfl
          exact nomatch hu.2.2.1.symm.trans hkill
        have htask : ({m with wq := m.wq.erase t}.terminate t).task u = m.task u :=
          setTask_of_ne hne _
        exact (woken_congr htask (mem_erase_of_ne hne)).mpr hu
    next hkill =>
      have hkill' := Bool.eq_false_of_not_eq_true hkill
      have hmem := hs.toQueue.not_mem (by rw [hargs.1]; simp) hkill'
      split
      next havail =>
        have hq := hs.toQueue.setTask (w := {m.task t with waiting := false}) hmem
          nofun
        refine ⟨{hq with}, fun hne => ?_⟩
        -- the task that takes is one of those that were on their way
        have hwoken : t ∈ m.woken := mem_woken.mpr ⟨ht, .inl hargs.1, hargs.2, hkill', hmem⟩
        have hsub : m.woken.erase t ⊆ Monitor.woken ({m with res := r.take t m.res}.setTask t
            {m.task t with waiting := false}) := by
          intro u hu
          obtain ⟨hut, hu⟩ := mem_erase.mp hu
          rw [mem_woken] at hu ⊢
          exact ⟨hu.1, (woken_congr (m := m) (setTask_of_ne hut _) Iff.rfl).mpr hu.2⟩
        have hcard := card_le_card hsub
        rw [card_erase_of_mem hwoken] at hcard
        have hless := r.avail_take t m.res havail
        have hserved := hs.served hne
        change r.avail (r.take t m.res) ≤ _
        omega
      · exact hs.waitBlock (by omega) ht hmem
  · exact hs

theorem release (hhead : ∀ id, m.wq.head? = some id →
    (m.task id).killPending = false) : Served r (m.release r) := by
  unfold Monitor.release
  split
  next hnil => exact ⟨{hs with}, absurd hnil⟩
  rename_i id rest hwq
  have hmem : id ∈ m.wq := by rw [hwq]; exact mem_cons_self
  have hnodup := hs.nodup
  rw [hwq, nodup_cons] at hnodup
  have hkill := hhead id (by rw [hwq]; rfl)
  obtain ⟨hwait, hblocked⟩ := hs.waiting id hmem
  have hstate := hblocked hkill
  have hsub : ∀ u ∈ rest, u ∈ m.wq := fun u hu => by
    rw [hwq]
    exact mem_cons_of_mem id hu
  have hq : Queue {m with res := r.release m.res, wq := rest} :=
    ⟨hnodup.2, fun u hu => hs.waiting u (hsub u hu), hs.inside⟩
  -- the waiter that leaves the queue is on its way, next to those that were
  have hone : ∀ w : Waiter, (w.state = .running ∨ w.state = .ready) → w.waiting = true →
      w.killPending = false → Served r ({m with res := r.release m.res, wq := rest}.setTask id w) := by
    intro w hw hwwait hwkill
    have hlive : w.state ≠ .dead := by rcases hw with h | h <;> simp [h]
    refine ⟨hq.setTask hnodup.1 fun _ => ⟨(hs.inside id hwait).1, hlive⟩, fun _ => ?_⟩
    have hnew : insert id m.woken ⊆
        Monitor.woken ({m with res := r.release m.res, wq := rest}.setTask id w) := by
      intro u hu
      rw [mem_woken]
      rcases mem_insert.mp hu with rfl | hu
      · refine ⟨(hs.inside u hwait).1, ?_⟩
        unfold Monitor.Woken
        rw [setTask_self]
        exact ⟨hw, hwwait, hwkill, hnodup.1⟩
      · obtain ⟨hlt, hu⟩ := mem_woken.mp hu
        have hne : u ≠ id := fun heq => hu.2.2.2 (heq ▸ hmem)
        have htask : ({m with res := r.release m.res, wq := rest}.setTask id w).task u =
            m.task u := setTask_of_ne hne w
        have hout : u ∈ rest ↔ u ∈ m.wq := iff_of_false (fun h => hu.2.2.2 (hsub u h)) hu.2.2.2
        exact ⟨hlt, (woken_congr htask hout).mpr hu⟩
    have hnot : id ∉ m.woken := fun h => (mem_woken.mp h).2.2.2.2 hmem
    have hcard := card_le_card hnew
    rw [card_insert_of_notMem hnot] at hcard
    have hserved := hs.served (ne_nil_of_mem hmem)
    have hless := r.avail_release m.res
    change r.avail (r.release m.res) ≤ _
    omega
  unfold Monitor.unblock
  rw [if_pos (by exact hstate)]
  refine hone _ ?_ hwait hkill
  split
  · exact .inl rfl
  · exact .inr rfl

theorem kill (ht : ¬ m.Woken t) : Served r (m.kill t) := by
  unfold Monitor.kill
  split
  · exact hs
  rename_i halive
  have hkill : (m.task t).killPending = false := by
    cases h : (m.task t).killPending with
    | false => rfl
    | true => exact absurd (.inr (.inr h)) halive
  split
  next hready =>
    have hmem := hs.toQueue.not_mem (by rw [hready]; simp) hkill
    exact hs.setTask (hs.toQueue.setTask hmem nofun) ht
  · exact hs.setTask (hs.toQueue.setTask_mem rfl (fun h => h) fun _ h => by cases h) ht

/-- A kill that is pending wakes a waiter that stays in the queue until it has run. -/
theorem unblock (ht : (m.task t).state = .blocked → (m.task t).killPending = true) :
    Served r (m.unblock t) := by
  unfold Monitor.unblock
  split
  next hblocked =>
    have hkill := ht hblocked
    refine hs.setTask (hs.toQueue.setTask_mem rfl (fun _ => ?_) fun _ h => ?_) fun h => ?_
    · dsimp only
      split <;> simp
    · cases hkill.symm.trans h
    · cases h.2.2.1.symm.trans hkill
  · exact hs

theorem reschedule {w : Waiter} (hwait : w.waiting = (m.task t).waiting)
    (hkill : w.killPending = (m.task t).killPending)
    (hstate : w.state = (m.task t).state ∨ (m.task t).state ≠ .blocked ∧
      (w.state = .running ∨ w.state = .ready)) : Served r (m.setTask t w) := by
  have hq : Queue (m.setTask t w) := by
    refine hs.toQueue.setTask_mem hwait (fun hlive => ?_) fun hmem hw => ?_
    · rcases hstate with heq | ⟨-, hnew | hnew⟩ <;> simp_all
    have hblocked := (hs.waiting t hmem).2 (hkill.symm.trans hw)
    rcases hstate with heq | ⟨hne, -⟩
    · rw [heq, hblocked]
    · exact absurd hblocked hne
  refine hs.mono hq (Int.le_refl _) (fun h => h) fun u hu => ?_
  by_cases hne : u = t
  · subst hne
    unfold Monitor.Woken at hu ⊢
    rw [setTask_self, hwait, hkill]
    refine ⟨?_, hu.2⟩
    rcases hstate with heq | ⟨-, hnew⟩
    · rw [heq]
      exact hu.1
    · exact hnew
  · exact (woken_congr (setTask_of_ne hne w) Iff.rfl).mpr hu

theorem deschedule (t : Nat) : Served r (m.deschedule t) := by
  unfold Monitor.deschedule
  split
  next hrunning => exact hs.reschedule rfl rfl (.inr ⟨by rw [hrunning]; simp, .inr rfl⟩)
  · exact hs.reschedule rfl rfl (.inl rfl)
  · exact hs

theorem dispatch (t : Nat) : Served r (m.dispatch t) := by
  unfold Monitor.dispatch
  split
  next hready => exact hs.reschedule rfl rfl (.inr ⟨by rw [hready]; simp, .inl rfl⟩)
  · exact hs

theorem exit (t : Nat) : Served r (m.exit t) := by
  unfold Monitor.exit
  split
  next hargs =>
    have hnot : ∀ {p : Prop}, (m.task t).waiting = true → p := fun h => by
      exact nomatch hargs.2.symm.trans h
    have hmem : t ∉ m.wq := fun h => hnot (hs.waiting t h).1
    exact hs.setTask (hs.toQueue.setTask hmem nofun) fun h => hnot h.2.1
  · exact hs

theorem spawn (t : Nat) : Served r (m.spawn t) := by
  unfold Monitor.spawn
  split
  next hdead =>
    have hmem : t ∉ m.wq := fun h => (hs.inside t (hs.waiting t h).1).2 hdead
    refine hs.setTask (hs.toQueue.setTask hmem (by simp)) fun h => ?_
    rcases h.1 with h | h <;> cases hdead.symm.trans h
  · exact hs

end

end Served

/-! ### Runs -/

def MonitorStep (r : Resource σ) (m : Monitor σ) (op : MonitorOp) (m' : Monitor σ) : Prop :=
  m' = m.exec r op

/-- No wakeup goes to a task with a kill pending, no task is killed between its wakeup and its
check, and no other `unblock_task` hits a waiter that is not killed. -/
def MonitorOp.SparesWoken (m : Monitor σ) : MonitorOp → Prop
  | .release => ∀ id, m.wq.head? = some id → (m.task id).killPending = false
  | .kill t => ¬ m.Woken t
  | .unblock t => (m.task t).state = .blocked → (m.task t).killPending = true
  | _ => True

def SparingStep (r : Resource σ) (m : Monitor σ) (op : MonitorOp) (m' : Monitor σ) : Prop :=
  op.SparesWoken m ∧ m' = m.exec r op

theorem SparingStep.served {op : MonitorOp} (hs : Served r m) (h : SparingStep r m op m') :
    Served r m' := by
  obtain ⟨hop, rfl⟩ := h
  cases op with
  | lock t => exact hs.lock t
  | tryLock t => exact hs.tryLock t
  | relock t => exact hs.relock t
  | release => exact hs.release hop
  | kill t => exact hs.kill hop
  | unblock t => exact hs.unblock hop
  | deschedule t => exact hs.deschedule t
  | dispatch t => exact hs.dispatch t
  | exit t => exact hs.exit t
  | spawn t => exact hs.spawn t

theorem Monitor.start_served (res : σ) : Served r (start res) :=
  ⟨⟨nodup_nil, nofun, nofun⟩,
    absurd rfl⟩

theorem exists_woken {res : σ} {ops : List MonitorOp}
    (h : Run (SparingStep r) (start res) ops m) (havail : 0 < r.avail m.res)
    (hwq : m.wq ≠ []) : ∃ t < 16, m.Woken t := by
  have hs : Served r m := h.invariant (I := Served r)
    (fun _ _ _ hs hstep => hstep.served hs) (start_served res)
  have hserved := hs.served hwq
  have hpos : 0 < m.woken.card := by omega
  obtain ⟨t, ht⟩ := card_pos.mp hpos
  exact ⟨t, mem_woken.mp ht⟩

/-- When the wakeup of a release never meets a kill, a free mutex or a positive
semaphore that tasks wait for has a woken task on its way to it. -/
theorem no_lost_wakeup (ops : List MonitorOp) :
    (∀ m : Monitor Mutex, Run (SparingStep mutex) (Monitor.start ⟨false, -1⟩) ops m →
      m.res.locked = false → m.wq ≠ [] → ∃ t < 16, m.Woken t) ∧
    ∀ (initial : Int) (m : Monitor Int), Run (SparingStep semaphore) (Monitor.start initial) ops m →
      0 < m.res → m.wq ≠ [] → ∃ t < 16, m.Woken t := by
  refine ⟨fun m hrun hfree hwq => exists_woken hrun ?_ hwq, fun initial m hrun hpos hwq =>
    exists_woken hrun hpos hwq⟩
  simp [mutex, hfree]

def contended : List MonitorOp :=
  [.dispatch 1, .dispatch 2, .dispatch 3, .lock 1, .lock 2, .lock 3]

/-- The last waiter is killed, and its slot is used again before the release. -/
def handedOver : List MonitorOp :=
  contended ++ [.kill 3, .unblock 3, .relock 3, .spawn 3, .dispatch 3, .lock 3, .release]

def killedWaiter : List MonitorOp := contended ++ [.kill 2, .release, .relock 2]

theorem no_lost_wakeup_handedOver :
    ∃ t < 16, (handedOver.foldl (Monitor.exec mutex) (Monitor.start ⟨false, -1⟩)).Woken t := by
  refine (no_lost_wakeup handedOver).1 _ ?_ (by decide) (by decide)
  refine .cons ⟨trivial, rfl⟩ (.cons ⟨trivial, rfl⟩ (.cons ⟨trivial, rfl⟩ (.cons ⟨trivial, rfl⟩
    (.cons ⟨trivial, rfl⟩ (.cons ⟨trivial, rfl⟩ (.cons ⟨?_, rfl⟩ (.cons ⟨fun _ => rfl, rfl⟩
    (.cons ⟨trivial, rfl⟩ (.cons ⟨trivial, rfl⟩ (.cons ⟨trivial, rfl⟩ (.cons ⟨trivial, rfl⟩
    (.cons ⟨fun id hid => ?_, rfl⟩ (.nil _)))))))))))))
  · exact fun h => absurd h.1 (by decide)
  · obtain rfl : 2 = id := Option.some.inj hid
    rfl

theorem wakeup_lost : (∃ m, Run (MonitorStep mutex) (Monitor.start ⟨false, -1⟩) killedWaiter m ∧
      m.res.locked = false ∧ m.wq = [3] ∧ (m.task 3).state = .blocked ∧ ∀ t < 16, ¬ m.Woken t) ∧
    ∃ m, Run (MonitorStep semaphore) (Monitor.start 1) killedWaiter m ∧
      m.res = 1 ∧ m.wq = [3] ∧ (m.task 3).state = .blocked ∧ ∀ t < 16, ¬ m.Woken t :=
  ⟨⟨killedWaiter.foldl (exec mutex) _, Run.foldl (by intro _ _ _; rfl) _, by decide, by decide,
      by decide, by decide⟩,
    ⟨killedWaiter.foldl (exec semaphore) _, Run.foldl (by intro _ _ _; rfl) _, by decide,
      by decide, by decide, by decide⟩⟩

end Kyuzen.Sync
