import Kyuzen.Sched.Single

/-!
What the sections leave alone of a task: its stack and its address space, and a
kill that is between its two sections. A section that neither makes a task nor
ends one gives no dead task its life back.
-/

namespace Kyuzen.Sched

open List

/-- A section as seen by tasks that it does not make: none comes to life, an
empty stack or address space stays empty, kills in flight stay in flight, and no
further task is being made. `made` are the tasks it makes. -/
structure Stays (made : Nat → Prop) (s s' : State) : Prop where
  stack : ∀ t, ¬ made t → (s.tasks t).stackBase = 0 → (s'.tasks t).stackBase = 0
  space : ∀ t, ¬ made t → (s.tasks t).pml4Phys = 0 → (s'.tasks t).pml4Phys = 0
  life : ∀ t, ¬ made t → (s'.tasks t).state.life = .live → (s.tasks t).state.life = .live
  purges : ∀ t, Call.purge t ∈ s.calls → Call.purge t ∈ s'.calls
  making : ∀ k ∈ s'.calls, ∀ t g, k.making = some (t, g) →
    made t ∨ ∃ k' ∈ s.calls, ∃ g', k'.making = some (t, g')

variable {s s' : State} {made : Nat → Prop}

theorem Kept.stays (h : Kept s s')
    (hlife : ∀ t, (s'.tasks t).state.life = .live → (s.tasks t).state.life = .live)
    (hmaking : ∀ k ∈ s'.calls, ∀ t g, k.making = some (t, g) →
      ∃ k' ∈ s.calls, ∃ g', k'.making = some (t, g')) : Stays made s s' :=
  ⟨fun t _ h0 => (h.stack t).trans h0, fun t _ h0 => (h.space t).trans h0, fun t _ => hlife t,
    h.purges, fun k hk t g hm => .inr (hmaking k hk t g hm)⟩

theorem Quiet.stays (hq : Quiet s s') (hk : Kept s s') : Stays made s s' :=
  hk.stays (fun t h => (hq.life t).symm.trans h)
    fun k hmem _ g hm => ⟨k, (hq.calls k (by rw [hm]; simp)).mp hmem, g, hm⟩

theorem Stays.abandon {k : Call} {t : Nat} (maker : Maker) (hk : ∀ u, k ≠ .purge u) :
    Stays made s ((s.leave k).abandon maker t) := by
  have hleave := Kept.leave s hk
  refine ⟨fun u _ h0 => ?_, fun u _ h0 => ?_, fun u _ hlive => ?_, hleave.purges,
    fun k' hk' u g hm => .inr ⟨k', mem_of_mem_erase hk', g, hm⟩⟩
  · by_cases hne : u = t
    · subst hne
      rw [State.abandon, setTask_self]
      split
      · exact h0
      · rfl
    · rw [State.abandon, setTask_of_ne _ hne]
      exact h0
  · by_cases hne : u = t
    · subst hne
      rw [State.abandon, setTask_self]
      exact h0
    · rw [State.abandon, setTask_of_ne _ hne]
      exact h0
  · by_cases hne : u = t
    · subst hne
      rw [State.abandon, setTask_self] at hlive
      cases hlive
    · rw [State.abandon, setTask_of_ne _ hne] at hlive
      exact hlive

/-- A section that touches the tasks it makes only. -/
theorem Stays.of_tasks (htask : ∀ u, ¬ made u → s'.tasks u = s.tasks u)
    (hpurges : ∀ u, Call.purge u ∈ s.calls → Call.purge u ∈ s'.calls)
    (hmaking : ∀ k ∈ s'.calls, ∀ u g, k.making = some (u, g) →
      made u ∨ ∃ k' ∈ s.calls, ∃ g', k'.making = some (u, g')) : Stays made s s' := by
  refine ⟨fun u hu h0 => ?_, fun u hu h0 => ?_, fun u hu hlive => ?_, hpurges, hmaking⟩
  · rw [htask u hu]
    exact h0
  · rw [htask u hu]
    exact h0
  · rw [htask u hu] at hlive
    exact hlive

theorem Stays.occupy {slot : Nat} (hmade : made slot) (x : Task) {c : Nat → Call}
    (hc : ∀ g, (c g).making = some (slot, g)) : Stays made s (s.occupy slot x c) := by
  refine .of_tasks (fun u hu => setTask_of_ne s (fun heq : u = slot => hu (heq ▸ hmade)) fun _ => x)
    (fun u hu => mem_cons_of_mem _ hu) fun k hk u g hm => ?_
  rcases mem_cons.mp hk with rfl | hk
  · rw [hc] at hm
    exact .inl ((Prod.mk.inj (Option.some.inj hm)).1 ▸ hmade)
  · exact .inr ⟨k, hk, g, hm⟩

theorem Stays.trans {s'' : State} (h : Stays made s s') (h' : Stays made s' s'') :
    Stays made s s'' := by
  refine ⟨fun t ht h0 => h'.stack t ht (h.stack t ht h0),
    fun t ht h0 => h'.space t ht (h.space t ht h0), fun t ht hl => h.life t ht (h'.life t ht hl),
    fun t ht => h'.purges t (h.purges t ht), fun k hk t g hm => ?_⟩
  rcases h'.making k hk t g hm with hmade | ⟨k', hk', g', hm'⟩
  · exact .inl hmade
  · exact h.making k' hk' t g' hm'

theorem Stays.replace {slot : Nat} (hmade : made slot) (x : Task) :
    Stays made s (s.setTask slot fun _ => x) :=
  .of_tasks (fun u hu => setTask_of_ne s (fun heq : u = slot => hu (heq ▸ hmade)) _) (fun _ hu => hu)
    fun k hk _ g hm => .inr ⟨k, hk, g, hm⟩

theorem forkForge_stays (s : State) (t gen rsp : Nat) : Stays made s (s.forkForge t gen rsp) := by
  refine (Kept.forkForge s t gen rsp).stays (fun u hlive => ?_) fun k hk u g hm => ?_
  all_goals unfold State.forkForge at *
  · split at hlive
    · exact ((Quiet.saveFrame (s.leave (.forge t gen)) t rsp).life u).symm.trans hlive
    · exact hlive
  · split at hk
    next hcall =>
      rcases mem_cons.mp hk with rfl | hk
      · exact ⟨_, hcall, g, hm⟩
      · exact ⟨k, mem_of_mem_erase hk, g, hm⟩
    · exact ⟨k, hk, g, hm⟩

theorem createPush_stays (s : State) (maker : Maker) (t gen target now : Nat) :
    Stays made s (s.createPush maker t gen target now) := by
  refine (Kept.createPush s maker t gen target now).stays (fun u hlive => ?_) fun k hk u g hm => ?_
  all_goals unfold State.createPush at *
  · split at hlive
    · split at hlive
      next s1 hpush => exact ((Quiet.runqPush hpush).life u).symm.trans hlive
      · exact hlive
    · exact hlive
  · split at hk
    next hcall =>
      split at hk
      next s1 hpush =>
        have hk' := ((Quiet.runqPush hpush).calls k (by rw [hm]; simp)).mp hk
        exact ⟨k, mem_of_mem_erase hk', g, hm⟩
      · rcases mem_cons.mp hk with rfl | hk
        · exact ⟨_, hcall.1, g, hm⟩
        · exact ⟨k, mem_of_mem_erase hk, g, hm⟩
    · exact ⟨k, hk, g, hm⟩

theorem procWaitpid_stays (s : State) (cpu : Nat) (pid : Option Nat) :
    Stays made s (s.procWaitpid cpu pid).2 := by
  refine (Kept.procWaitpid s cpu pid).stays (fun u hlive => ?_) fun k hk u g hm => ?_
  all_goals rcases procWaitpid_cases s cpu pid with ⟨t, -, heq⟩ | ⟨heq, -⟩
  · rw [heq] at hlive
    by_cases hne : u = t
    · subst hne
      rw [reap_self] at hlive
      cases hlive
    · rw [reap_of_ne s hne] at hlive
      exact hlive
  · rw [heq] at hlive
    exact hlive
  · rw [heq] at hk
    exact ⟨k, hk, g, hm⟩
  · rw [heq] at hk
    exact ⟨k, hk, g, hm⟩

end Kyuzen.Sched
