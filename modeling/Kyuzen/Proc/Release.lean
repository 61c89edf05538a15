import Kyuzen.Proc.Resources
import Kyuzen.Sched.Kept
import Kyuzen.Vfs.Rows

/-!
What is left of a task that has ended. The termination paths take the tables of
the subsystems one by one; nothing is given to the task in between as long as it
is in one pair of hands. `proc_kill` on a ready task never comes to the shared
surfaces, and an event that is routed late stays in the queue.
-/

namespace Kyuzen.Proc

open Function List World

open Sched Mm

variable {s : State} {t : Nat} {k : Call}

/-! ### What a step gives away -/

/-- A step that gives something to task `t` only. -/
structure Frame (t : Nat) (w w' : World) : Prop where
  owns : ∀ u, u ≠ t → ∀ c, w'.Owns u c → w.Owns u c
  regions : ∀ u, u ≠ t → w'.regions u = w.regions u
  maps : w.shm.MapsOnce → w'.shm.MapsOnce
  sched : w'.sched = w.sched
  exits : w'.exits = w.exits
  kills : w'.kills = w.kills
  ended : w'.ended = w.ended

namespace Frame

variable {w : World} {t : Nat}

theorem vfs (w : World) {tbl : Vfs.Table} (h : Vfs.RowOf t w.vfs tbl) :
    Frame t w {w with vfs := tbl} := by
  refine ⟨fun u hne c hu => ?_, fun _ _ => rfl, fun h => h, rfl, rfl, rfl, rfl⟩
  cases c with
  | closeAll =>
    obtain ⟨i, hi, hrow, hused⟩ := hu
    refine ⟨i, hi, hrow, ?_⟩
    rw [← h i (hrow ▸ hne)]
    exact hused
  | _ => exact hu

theorem shm (w : World) {s : Shm} (h : Shm.By t w.shm s) : Frame t w {w with shm := s} := by
  refine ⟨fun u hne c hu => ?_, fun _ _ => rfl, h.maps, rfl, rfl, rfl, rfl⟩
  cases c with
  | shm => exact h.traces u hne hu
  | _ => exact hu

theorem refl (t : Nat) (w : World) : Frame t w w :=
  ⟨fun _ _ _ hu => hu, fun _ _ => rfl, fun h => h, rfl, rfl, rfl, rfl⟩

section
variable (w)

theorem socks {tbl : Net.Socks}
    (h : ∀ pid i, tbl.OwnedBy pid i → pid = t ∨ w.socks.OwnedBy pid i) :
    Frame t w {w with socks := tbl} := by
  refine ⟨fun u hne c hu => ?_, fun _ _ => rfl, fun h => h, rfl, rfl, rfl, rfl⟩
  cases c with
  | sockets =>
    obtain ⟨i, hi⟩ := hu
    exact ⟨i, (h u i hi).resolve_left fun heq => hne (Int.natCast_inj.mp heq)⟩
  | _ => exact hu

theorem windows {kwm : Gfx.Kwm} (h : ∀ v, kwm.isActive v → (kwm.wins v).ownerTask = t ∨
      w.windows.isActive v ∧ (kwm.wins v).ownerTask = (w.windows.wins v).ownerTask) :
    Frame t w {w with windows := kwm} := by
  refine ⟨fun u hne c hu => ?_, fun _ _ => rfl, fun h => h, rfl, rfl, rfl, rfl⟩
  cases c with
  | windows =>
    obtain ⟨i, hactive, howner⟩ := hu
    rcases h i hactive with htask | ⟨hactive, hsame⟩
    · exact absurd (Int.natCast_inj.mp (howner.symm.trans htask)) hne
    · exact ⟨i, hactive, hsame.symm.trans howner⟩
  | _ => exact hu

theorem window (j : Gfx.Slot) {x : Gfx.Win} {kwm : Gfx.Kwm} (hx : x.active = false ∨ x.ownerTask = t)
    (hkwm : ∀ v, ∃ z, kwm.wins v = {(w.windows.setWin j x).wins v with zIndex := z}) :
    Frame t w {w with windows := kwm} := by
  refine windows w fun v hv => ?_
  obtain ⟨z, hz⟩ := hkwm v
  rw [Gfx.Kwm.isActive, hz] at hv
  rw [hz]
  by_cases hvj : v = j
  · subst hvj
    rw [Gfx.Kwm.wins_setWin_self] at hv ⊢
    exact .inl (hx.resolve_left fun hoff => Bool.false_ne_true (hoff.symm.trans hv))
  · rw [Gfx.Kwm.wins_setWin_ne hvj] at hv ⊢
    exact .inr ⟨hv, rfl⟩

theorem events (q : EventQueue) : Frame t w {w with events := update w.events t q} := by
  refine ⟨fun u hne c hu => ?_, fun _ _ => rfl, fun h => h, rfl, rfl, rfl, rfl⟩
  cases c with
  | events =>
    simp only [World.Owns, update_of_ne hne] at hu
    exact hu
  | _ => exact hu

theorem heap (l : List Nat) : Frame t w {w with regions := update w.regions t l} :=
  ⟨fun _ _ _ hu => hu, fun _ hne => update_of_ne hne _ _, fun h => h, rfl, rfl, rfl, rfl⟩

theorem act (t : Nat) (a : Act) : Frame t w (w.act t a) := by
  cases a with
  | vfsOpen kind flags kmalloc => exact vfs w (.vfsOpen _ t kind flags kmalloc)
  | vfsPipe kmalloc => exact vfs w (.vfsPipe _ t kmalloc)
  | vfsDup old => exact vfs w (.vfsDup _ t old)
  | vfsDup2 old new => exact vfs w (.vfsDup2 _ t old new)
  | vfsClose fd => exact vfs w (.vfsClose _ t fd)
  | ksockSocket cookie pcb => exact socks w fun _ _ => Net.Socks.ownedBy_ksockSocket
  | ksockClose h cookie =>
    refine socks w fun pid i hown => .inr ?_
    revert hown
    fun_cases Net.Socks.ksockClose w.socks h t cookie
    · exact id
    · exact fun hown => (Net.Socks.ownedBy_closeLocked hown).2
  | kwmCreateWindow x y width height canvas =>
    change Frame t w {w with windows := (w.windows.kwmCreateWindow t x y width height canvas).1}
    fun_cases Gfx.Kwm.kwmCreateWindow w.windows t x y width height canvas
    · exact refl t w
    · exact refl t w
    next j _ _ _ =>
      exact window w j (.inr rfl) fun v => ⟨_, Gfx.Kwm.wins_kwmBringToFront _ j v⟩
  | kwmCreateDesktop mode canvas =>
    change Frame t w {w with windows := (w.windows.kwmCreateDesktop t mode canvas).1}
    fun_cases Gfx.Kwm.kwmCreateDesktop w.windows t mode canvas
    · exact refl t w
    · exact refl t w
    · exact refl t w
    next j _ => exact window w j (.inr rfl) fun v => ⟨_, rfl⟩
  | kwmDestroyWindow id =>
    change Frame t w {w with windows := (w.windows.kwmDestroyWindow id).1}
    fun_cases Gfx.Kwm.kwmDestroyWindow w.windows id
    · exact refl t w
    · exact refl t w
    next j _ _ _ _ _ _ _ => exact window w j (.inl rfl) fun v => ⟨_, rfl⟩
    next j _ _ _ _ _ _ => exact window w j (.inl rfl) fun v => ⟨_, rfl⟩
  | popEvent => exact events w _
  | shmCreateBegin valid => exact shm w (Shm.createBegin_by _ t valid)
  | shmCreateEnd i width height ok => exact shm w (Shm.createEnd_by _ t i width height ok)
  | shmMap h write => exact shm w (Shm.map_by _ t h write)
  | shmMapFail i => exact shm w (Shm.mapFail_by _ t i)
  | shmUnmap i => exact shm w (Shm.unmap_by _ t i)
  | shmPublish h x y wd hh => exact shm w (Shm.publish_by _ t h x y wd hh)
  | shmDestroy h => exact shm w (Shm.destroy_by _ t h)
  | shmAcquire h => exact shm w (Shm.acquire_by _ t h)
  | shmRelease h => exact shm w (Shm.release_by _ t h)
  | uheapAlloc base => exact heap w _
  | uheapFree base => exact heap w _

theorem equip (t : Nat) (e : Equip) : Frame t w (w.equip t e) := by
  cases e with
  | taskInit kmalloc => exact vfs w (.vfsTaskInit _ t kmalloc)
  | stdio parent spec => exact vfs w (.vfsInheritStdio _ t parent spec)
  | fork parent => exact vfs w (.vfsForkInherit _ t parent)

end

end Frame

/-- A cleanup takes its own table from the task and gives nobody anything. -/
structure Cleans (t : Nat) (c : Cleanup) (w w' : World) : Prop where
  gone : w.shm.MapsOnce → ¬ w'.Owns t c
  owns : ∀ u c', w'.Owns u c' → w.Owns u c'
  maps : w.shm.MapsOnce → w'.shm.MapsOnce
  regions : w'.regions = w.regions
  sched : w'.sched = w.sched
  exits : w'.exits = w.exits
  kills : w'.kills = w.kills
  ended : w'.ended = w.ended

theorem Cleans.socks {w : World} {tbl : Net.Socks}
    (h : ∀ pid i, tbl.OwnedBy pid i → pid ≠ t ∧ w.socks.OwnedBy pid i) :
    Cleans t .sockets w {w with socks := tbl} := by
  refine ⟨fun _ => ?_, fun u c hu => ?_, fun h => h, rfl, rfl, rfl, rfl, rfl⟩
  · rintro ⟨i, hi⟩
    exact (h t i hi).1 rfl
  cases c with
  | sockets =>
    obtain ⟨i, hi⟩ := hu
    exact ⟨i, (h u i hi).2⟩
  | _ => exact hu

theorem Cleans.windows {w : World} {kwm : Gfx.Kwm}
    (h : ∀ v, kwm.isActive v → (kwm.wins v).ownerTask ≠ t ∧ w.windows.isActive v ∧
      (kwm.wins v).ownerTask = (w.windows.wins v).ownerTask) :
    Cleans t .windows w {w with windows := kwm} := by
  refine ⟨fun _ => ?_, fun u c hu => ?_, fun h => h, rfl, rfl, rfl, rfl, rfl⟩
  · rintro ⟨v, hactive, howner⟩
    exact (h v hactive).1 howner
  cases c with
  | windows =>
    obtain ⟨v, hactive, howner⟩ := hu
    obtain ⟨-, hwas, hsame⟩ := h v hactive
    exact ⟨v, hwas, hsame.symm.trans howner⟩
  | _ => exact hu

theorem Cleans.cleanup (w : World) (t : Nat) (c : Cleanup) : Cleans t c w (w.cleanup t c) := by
  cases c with
  | closeAll =>
    refine ⟨fun _ => ?_, fun u c' hu => ?_, fun h => h, rfl, rfl, rfl, rfl, rfl⟩
    · rintro ⟨i, hi, hrow, hused⟩
      exact (Vfs.vfsCloseAll_used w.vfs t i hi hused).2 hrow
    · cases c' with
      | closeAll =>
        obtain ⟨i, hi, hrow, hused⟩ := hu
        exact ⟨i, hi, hrow, (Vfs.vfsCloseAll_used w.vfs t i hi hused).1⟩
      | _ => exact hu
  | sockets =>
    exact .socks fun _ _ => Net.Socks.ownedBy_netProcessCleanup (Int.natCast_nonneg t)
  | events =>
    refine ⟨fun _ hu => ?_, fun u c' hu => ?_, fun h => h, rfl, rfl, rfl, rfl, rfl⟩
    · simp [World.cleanup, World.Owns] at hu
    cases c' with
    | events =>
      by_cases hne : u = t
      · subst hne
        simp [World.cleanup, World.Owns] at hu
      · simp only [World.cleanup, World.Owns, update_of_ne hne] at hu
        exact hu
    | _ => exact hu
  | windows =>
    refine .windows fun v hv => ?_
    rw [Gfx.Kwm.isActive, Gfx.Kwm.wins_kwmDestroyWindowsOf] at hv
    rw [Gfx.Kwm.wins_kwmDestroyWindowsOf]
    rcases (Gfx.Kwm.destroyed_destroyWins w.windows _).wins v with ⟨heq, hstay⟩ | hgone
    · rw [heq] at hv ⊢
      exact ⟨of_decide_eq_false (hstay (mem_finRange v) hv), hv, rfl⟩
    · exact absurd hv hgone.2.2.2.1
  | shm =>
    refine ⟨fun hmaps => Shm.not_traces_taskExit hmaps t, fun u c' hu => ?_,
      fun h => h.taskExit t, rfl, rfl, rfl, rfl, rfl⟩
    cases c' with
    | shm => exact Shm.traces_taskExit hu
    | _ => exact hu

/-! ### The scheduler -/

/-- The sections that are no part of a termination path. -/
def Plain : Op → Prop
  | .exit _ _ _ | .kill _ _ | .killFinish _ => False
  | _ => True

theorem allocSlot_stays {s' : State} {slot : Nat} {made : Nat → Prop} (ho : Owned s fun _ => 0)
    (h : s.allocSlot = some (slot, s')) : Stays made s s' := by
  obtain ⟨-, -, -, rfl | rfl⟩ := allocSlot_spec ho h
  · exact (Quiet.refl _).stays (.refl _)
  · exact Kept.stays ⟨fun _ => rfl, fun _ => rfl, fun _ h => h⟩ (fun _ h => h)
      fun k hk t g hm => ⟨k, hk, g, hm⟩

theorem stays_exec (ho : Owned s fun _ => 0) {op : Op} (hop : Plain op) :
    Stays (fun t => replaces s op t = true) s (Sched.exec s op) := by
  cases op with
  | schedule | blockPrepare | setWakeAt | unblock | unblockPush | unblockRepark
  | sleepqCheckWakeups | unblockPending =>
    exact (exec_quiet s rfl).stays (exec_quiet_kept s rfl).2
  | createTaskPrio cpu priority rsp stack =>
    change Stays _ s (s.createTaskPrio cpu priority rsp stack)
    fun_cases State.createTaskPrio s cpu priority rsp stack
    · exact (Quiet.refl s).stays (.refl s)
    next slot s1 halloc _ =>
      refine (allocSlot_stays ho halloc).trans (Stays.occupy ?_ _ fun _ => rfl)
      simp [replaces, halloc]
  | createUserTask cpu rsp stack pml4 =>
    change Stays _ s (s.createUserTask cpu rsp stack pml4)
    fun_cases State.createUserTask s cpu rsp stack pml4
    · exact (Quiet.refl s).stays (.refl s)
    next halloc _ => exact allocSlot_stays ho halloc
    next slot s1 halloc p hcreator _ =>
      refine (allocSlot_stays ho halloc).trans (Stays.occupy ?_ _ fun _ => rfl)
      simp [replaces, halloc, hcreator]
  | taskFork cpu stack childAs uheapOk =>
    change Stays _ s (s.taskFork cpu stack childAs uheapOk)
    fun_cases State.taskFork s cpu stack childAs uheapOk
    all_goals try exact (Quiet.refl s).stays (.refl s)
    all_goals
      have hmade : replaces s (.taskFork cpu stack childAs uheapOk) ‹Nat› = true := by
        simp_all [replaces]
    · exact (allocSlot_stays ho ‹_›).trans (Stays.occupy hmade _ fun _ => rfl)
    · exact (allocSlot_stays ho ‹_›).trans (Stays.replace hmade _)
  | forkForge t gen rsp => exact forkForge_stays s t gen rsp
  | createPush maker t gen target now => exact createPush_stays s maker t gen target now
  | createFail maker t gen =>
    change Stays _ s (s.createFail maker t gen)
    unfold State.createFail
    split
    · exact Stays.abandon maker (by simp)
    · exact (Quiet.refl s).stays (.refl s)
  | createReclaim maker t gen =>
    change Stays _ s (s.createReclaim maker t gen)
    unfold State.createReclaim
    split
    · exact Stays.abandon maker (by simp)
    · exact (Quiet.refl s).stays (.refl s)
  | exit | kill | killFinish => exact hop.elim
  | waitpid cpu pid => exact procWaitpid_stays s cpu pid

theorem transition_spec {s' : State} {id : Nat} {code : Int} {reason : Nat}
    (h : s.procTransition id code reason = some s') :
    (∀ u ≠ id, (s'.tasks u).stackBase = (s.tasks u).stackBase ∧
      (s'.tasks u).pml4Phys = (s.tasks u).pml4Phys ∧ (s'.tasks u).state = (s.tasks u).state) ∧
    (s'.tasks id).stackBase = 0 ∧ (s'.tasks id).pml4Phys = 0 ∧
    (s'.tasks id).state.life ≠ .live ∧ s'.calls = s.calls := by
  unfold State.procTransition at h
  split at h
  · cases h
  split at h
  · cases h
  obtain rfl := Option.some.inj h
  refine ⟨fun u hne => ?_, ?_, ?_, ?_, rfl⟩
  · rw [setTask_of_ne _ hne]
    simp only [State.reparent]
    split <;> exact ⟨rfl, rfl, rfl⟩
  · rw [setTask_self]
  · rw [setTask_self]
  · rw [setTask_self]
    split <;> simp [TaskState.life]

section
variable (ho : Owned s fun _ => 0)
include ho

theorem own_le_one (t : Nat) : s.own t ≤ 1 := by
  have hgood := ho.good t
  cases hst : (s.tasks t).state <;> rw [hst] at hgood <;> simp only [Good] at hgood <;> omega

theorem call_unique {k' : Call} (hk : k ∈ s.calls) (hk' : k' ∈ s.calls)
    (ht : k.task = some t) (ht' : k'.task = some t) :
    k = k' := by
  by_contra hne
  have hleave := own_leave hk t
  rw [if_pos ht] at hleave
  have hmem : k' ∈ (s.leave k).calls := (mem_erase_of_ne (Ne.symm hne)).mpr hk'
  have := own_pos_of_call hmem ht'
  have := own_le_one ho t
  omega

theorem call_live (hk : k ∈ s.calls) (ht : k.task = some t) :
    (s.tasks t).state = .ready ∧ t < s.taskCount := by
  have hready := (ho.held_ready (t := t) (by have := own_pos_of_call hk ht; omega)).1
  exact ⟨hready, ho.lt_of_not_dead (by rw [hready]; simp)⟩

theorem seated_no_call {cpu : Nat} (hcur : s.current cpu = some t)
    (hk : k ∈ s.calls) : k.task ≠ some t := by
  intro ht
  have := (ho.seated hcur).2.1
  have := own_pos_of_call hk ht
  omega

theorem seated_live {cpu : Nat} (hcur : s.current cpu = some t) :
    (s.tasks t).state.life = .live := by
  rcases (ho.seated hcur).1 with hst | hst | hst <;> rw [hst] <;> rfl

end

/-! ### The invariant -/

structure Inv (w : World) : Prop where
  owned : Owned w.sched fun _ => 0
  maps : w.shm.MapsOnce
  purged : ∀ k ∈ w.kills, Call.purge k.pid ∈ w.sched.calls
  single : (w.kills.map Kill.pid).Nodup
  killed : ∀ k ∈ w.kills, ∀ c, c ∉ k.ahead → ¬ w.Owns k.pid c
  making : ∀ k ∈ w.sched.calls, ∀ t g, k.making = some (t, g) → w.exits t = none
  exiting : ∀ t l, w.exits t = some l → ∀ c, c ∉ l → ¬ w.Owns t c
  ended : ∀ t, w.ended t = true → (w.sched.tasks t).state.life ≠ .live ∧ w.Released t

namespace Inv

variable {cpu t : Nat} {c : Cleanup} {op : Op} {w w' : World}

section
variable (hw : Inv w)
include hw

/-- The step leaves the scheduler and the paths alone, and gives nothing to a task
that is on a path or has ended. -/
theorem keep (hsched : w'.sched = w.sched) (hexits : w'.exits = w.exits)
    (hkills : w'.kills = w.kills) (hended : w'.ended = w.ended) (hmaps : w'.shm.MapsOnce)
    (howns : ∀ u, w.exits u ≠ none ∨ (∃ k ∈ w.kills, k.pid = u) ∨ w.ended u = true →
      ∀ c, w'.Owns u c → w.Owns u c)
    (hregions : ∀ u, w.ended u = true → w'.regions u = w.regions u) : Inv w' := by
  refine ⟨hsched ▸ hw.owned, hmaps, ?_, hkills ▸ hw.single, ?_, ?_, ?_, ?_⟩
  all_goals simp only [hsched, hexits, hkills, hended]
  · exact hw.purged
  · exact fun k hk c hc hown => hw.killed k hk c hc (howns _ (.inr (.inl ⟨k, hk, rfl⟩)) c hown)
  · exact hw.making
  · exact fun u l hu c hc hown => hw.exiting u l hu c hc (howns u (.inl (by simp [hu])) c hown)
  · intro u hu
    obtain ⟨hlife, hrel⟩ := hw.ended u hu
    exact ⟨hlife, fun c hown => hrel.tables c (howns u (.inr (.inr hu)) c hown),
      (hregions u hu).trans hrel.regions, hsched ▸ hrel.stack, hsched ▸ hrel.space⟩

/-- Something is given to a task that is on no termination path. -/
theorem give (h : Frame t w w') (hexit : w.exits t = none)
    (hkill : ∀ k ∈ w.kills, k.pid ≠ t) (hend : w.ended t = false) : Inv w' := by
  refine hw.keep h.sched h.exits h.kills h.ended (h.maps hw.maps) (fun u hu => h.owns u ?_)
    fun u hu => h.regions u ?_
  · rintro rfl
    rcases hu with hu | ⟨k, hk, hpid⟩ | hu
    · exact hu hexit
    · exact hkill k hk hpid
    · simp [hend] at hu
  · rintro rfl
    simp [hend] at hu

theorem not_ended (hlive : (w.sched.tasks t).state.life = .live) : w.ended t = false := by
  cases hend : w.ended t with
  | false => rfl
  | true => exact absurd hlive (hw.ended t hend).1

theorem act (hcur : w.sched.current cpu = some t) (hexit : w.exits t = none) (a : Act) :
    Inv (w.act t a) :=
  hw.give (.act w t a) hexit
    (fun k hk heq => seated_no_call hw.owned hcur (hw.purged k hk) (congrArg some heq))
    (hw.not_ended (seated_live hw.owned hcur))

theorem equip {k : Call} {gen : Nat} (hk : k ∈ w.sched.calls)
    (hm : k.making = some (t, gen)) (e : Equip) : Inv (w.equip t e) := by
  have htask := Call.task_of_making hm
  refine hw.give (.equip w t e) (hw.making k hk t gen hm) (fun k' hk' heq => ?_)
    (hw.not_ended (by rw [(call_live hw.owned hk htask).1]; rfl))
  have hsame := call_unique hw.owned hk (hw.purged k' hk') htask (congrArg some heq)
  rw [hsame] at hm
  cases hm

theorem cleanup (t : Nat) (c : Cleanup) : Inv (w.cleanup t c) := by
  have h := Cleans.cleanup w t c
  exact hw.keep h.sched h.exits h.kills h.ended (h.maps hw.maps) (fun u _ => h.owns u)
    fun u _ => congrFun h.regions u

theorem exitBegin (hcur : w.sched.current cpu = some t) :
    Inv {w with exits := update w.exits t (some exitCleanups)} := by
  refine {hw with
      making := fun k hk u g hm => ?_, exiting := fun u l hu c hc hown => ?_,
      ended := fun u hu => ?_}
  · have hne : u ≠ t := by
      rintro rfl
      exact seated_no_call hw.owned hcur hk (Call.task_of_making hm)
    dsimp only
    rw [update_of_ne hne]
    exact hw.making k hk u g hm
  · by_cases hne : u = t
    · subst hne
      simp only [update_self, Option.some.injEq] at hu
      subst hu
      cases c <;> simp [exitCleanups] at hc
    · simp only [update_of_ne hne] at hu
      exact hw.exiting u l hu c hc hown
  · obtain ⟨hlife, hrel⟩ := hw.ended u hu
    exact ⟨hlife, {hrel with}⟩

theorem exitCleanup {rest : List Cleanup} (hexit : w.exits t = some (c :: rest)) :
    Inv {w.cleanup t c with exits := update w.exits t (some rest)} := by
  have h := Cleans.cleanup w t c
  have hclean := hw.cleanup t c
  refine {hclean with
      making := fun k hk u g hm => ?_, exiting := fun u l hu c' hc hown => ?_,
      ended := fun u hu => ?_}
  · have hnone := hclean.making k hk u g hm
    rw [h.exits] at hnone
    have hne : u ≠ t := by
      rintro rfl
      exact nomatch hexit.symm.trans hnone
    dsimp only
    rw [update_of_ne hne]
    exact hnone
  · by_cases hne : u = t
    · subst hne
      simp only [update_self, Option.some.injEq] at hu
      subst hu
      by_cases heq : c' = c
      · subst heq
        exact h.gone hw.maps hown
      · exact hw.exiting u _ hexit c' (by simp [heq, hc]) (h.owns u c' hown)
    · simp only [update_of_ne hne] at hu
      exact hw.exiting u l hu c' hc (h.owns u c' hown)
  · obtain ⟨hlife, hrel⟩ := hclean.ended u hu
    exact ⟨hlife, {hrel with}⟩

theorem killCleanup {k : Kill} (hk : k ∈ w.kills) {rest : List Cleanup}
    (hahead : k.ahead = c :: rest) :
    Inv {w.cleanup k.pid c with kills := ⟨k.pid, rest⟩ :: w.kills.erase k} := by
  have h := Cleans.cleanup w k.pid c
  have hclean := hw.cleanup k.pid c
  have hperm : (w.kills.map Kill.pid).Perm ((⟨k.pid, rest⟩ :: w.kills.erase k).map Kill.pid) :=
    (perm_cons_erase hk).map Kill.pid
  refine {hclean with
      purged := fun k' hk' => ?_, single := hperm.nodup_iff.mp hw.single,
      killed := fun k' hk' c' hc hown => ?_, ended := fun u hu => ?_}
  · rw [h.sched]
    rcases mem_cons.mp hk' with rfl | hk'
    · exact hw.purged k hk
    · exact hw.purged k' (mem_of_mem_erase hk')
  · rcases mem_cons.mp hk' with rfl | hk'
    · by_cases heq : c' = c
      · subst heq
        exact h.gone hw.maps hown
      · exact hw.killed k hk c' (by rw [hahead]; simp [heq, hc]) (h.owns _ c' hown)
    · exact hw.killed k' (mem_of_mem_erase hk') c' hc (h.owns _ c' hown)
  · obtain ⟨hlife, hrel⟩ := hclean.ended u hu
    exact ⟨hlife, {hrel with}⟩

/-- The last section of a termination path, from a state in which every cleanup
has been done. -/
theorem finish (t : Nat) (s s'' : State) (kills : List Kill) {s' : State} {code : Int}
    {reason : Nat} (hgone : ∀ c, ¬ w.Owns t c) (hlive : (w.sched.tasks t).state.life = .live)
    (htasks : s.tasks = w.sched.tasks) (htrans : s.procTransition t code reason = some s')
    (htasks' : s''.tasks = s'.tasks) (hcalls : s''.calls = s.calls)
    (howned : Owned s'' fun _ => 0) (hsub : ∀ k ∈ s.calls, k ∈ w.sched.calls)
    (hkills : ∀ k ∈ kills, k ∈ w.kills ∧ Call.purge k.pid ∈ s.calls)
    (hnodup : (kills.map Kill.pid).Nodup) :
    World.ends w.sched s'' t = true ∧
      Inv ({w with sched := s'', kills := kills}.onEnds t) := by
  obtain ⟨hother, hstack, hspace, hdead, -⟩ := transition_spec htrans
  rw [← htasks'] at hother hstack hspace hdead
  rw [htasks] at hother
  refine ⟨?_, howned, hw.maps, fun k hk => ?_, hnodup, fun k hk => hw.killed k (hkills k hk).1,
    fun k hk u g hm => ?_, fun u l hu c hc hown => ?_, fun u hu => ?_⟩
  · simp only [World.ends, hlive, decide_true, Bool.true_and, decide_eq_true_eq]
    exact hdead
  · change Call.purge k.pid ∈ s''.calls
    rw [hcalls]
    exact (hkills k hk).2
  · change k ∈ s''.calls at hk
    rw [hcalls] at hk
    have hnone := hw.making k (hsub k hk) u g hm
    change update w.exits t none u = none
    by_cases hne : u = t
    · subst hne
      exact update_self _ _ _
    · rw [update_of_ne hne]
      exact hnone
  · change update w.exits t none u = some l at hu
    by_cases hne : u = t
    · subst hne
      rw [update_self] at hu
      cases hu
    · rw [update_of_ne hne] at hu
      exact hw.exiting u l hu c hc hown
  · change update w.ended t true u = true at hu
    change (s''.tasks u).state.life ≠ .live ∧ _
    by_cases hne : u = t
    · subst hne
      exact ⟨hdead, hgone, update_self _ _ _, hstack, hspace⟩
    rw [update_of_ne hne] at hu
    obtain ⟨hlife, hrel⟩ := hw.ended u hu
    obtain ⟨hs, hp, hst⟩ := hother u hne
    refine ⟨by rw [hst]; exact hlife, hrel.tables, ?_, hs.trans hrel.stack, hp.trans hrel.space⟩
    change update w.regions t [] u = []
    rw [update_of_ne hne]
    exact hrel.regions

/-- The section changes the scheduler and makes or ends no task. -/
theorem stay {s : State} (ho : Owned s fun _ => 0)
    (h : Stays (fun _ => False) w.sched s) : Inv {w with sched := s} := by
  refine {hw with
      owned := ho, purged := fun k hk => h.purges _ (hw.purged k hk),
      making := fun k hk u g hm => ?_, ended := fun u hu => ?_}
  · rcases h.making k hk u g hm with hmade | ⟨k', hk', g', hm'⟩
    · exact hmade.elim
    · exact hw.making k' hk' u g' hm'
  · obtain ⟨hlife, hrel⟩ := hw.ended u hu
    exact ⟨fun hlive => hlife (h.life u id hlive), hrel.tables, hrel.regions,
      h.stack u id hrel.stack, h.space u id hrel.space⟩

theorem exit (hcur : w.sched.current cpu = some t) (hexit : w.exits t = some [])
    (code : Int) (reason : Nat) :
    Inv (w.exec (.exit cpu code reason)) := by
  have hgone : ∀ c, ¬ w.Owns t c := fun c => hw.exiting t [] hexit c not_mem_nil
  have howned : Owned (w.sched.procDoExit cpu code reason) fun _ => 0 :=
    hw.owned.finished (exec_finished _ (rfl : (Op.exit cpu code reason).finishes = true))
  simp only [World.exec, hcur, hexit, if_true]
  cases htrans : w.sched.procTransition t code reason with
  | none =>
    have heq : w.sched.procDoExit cpu code reason = w.sched := by
      simp [State.procDoExit, hcur, htrans]
    have hends : World.ends w.sched w.sched t = false := by
      simp only [World.ends, Bool.and_eq_false_iff, decide_eq_false_iff_not, not_not]
      tauto
    rw [heq, hends]
    exact hw
  | some s1 =>
    have heq : w.sched.procDoExit cpu code reason = s1.setCurrent cpu none := by
      simp [State.procDoExit, hcur, htrans]
    rw [heq] at howned ⊢
    obtain ⟨hends, hinv⟩ := hw.finish t w.sched (s1.setCurrent cpu none) w.kills hgone
      (seated_live hw.owned hcur) rfl htrans rfl (transition_spec htrans).2.2.2.2 howned
      (fun _ h => h) (fun k hk => ⟨hk, hw.purged k hk⟩) hw.single
    rw [if_pos hends]
    exact hinv

theorem kill {pid : Nat} (hqueued : Op.PurgesQueued w.sched (.kill cpu pid))
    (hshm : killsReady w.sched cpu pid → ¬ w.Owns pid .shm) :
    Inv (w.exec (.kill cpu pid)) := by
  have howned := hw.owned.procKill cpu hqueued
  have hstay := hw.stay howned ((Quiet.procKill w.sched cpu pid).stays (.procKill w.sched cpu pid))
  by_cases hready : killsReady w.sched cpu pid
  · obtain ⟨hlt, hmay, hcur, hpending, hst⟩ := hready
    have hcalls : Call.purge pid ∈ (w.sched.procKill cpu pid).calls := by
      unfold State.procKill
      rw [if_neg (by simp [hmay]; omega), if_neg hcur, if_neg (by simp [hpending]), if_pos hst]
      exact mem_cons_self
    -- a task in a run queue is in no call
    have hnew : pid ∉ w.kills.map Kill.pid := by
      intro hmem
      obtain ⟨k, hk, hpid⟩ := mem_map.mp hmem
      have hpurge := hw.purged k hk
      rw [hpid] at hpurge
      obtain ⟨c, hc, hmem⟩ := hqueued hst hcur hpending hmay hlt
      have hpos := count_pos_iff.mpr hmem
      have hsum : (w.sched.queues c).count pid ≤
          ∑ c ∈ Finset.range 16, (w.sched.queues c).count pid :=
        Finset.single_le_sum (f := fun c => (w.sched.queues c).count pid)
          (fun _ _ => Nat.zero_le _) (Finset.mem_range.mpr hc)
      have hcall := own_leave hpurge pid
      rw [if_pos (show (Call.purge pid).task = some pid from rfl)] at hcall
      have hleave : (w.sched.leave (.purge pid)).own pid =
        (∑ c ∈ Finset.range 16, (w.sched.queues c).count pid) + _ := rfl
      have := own_le_one hw.owned pid
      omega
    have heq : w.exec (.kill cpu pid) =
        {w with sched := w.sched.procKill cpu pid, kills := ⟨pid, killCleanups⟩ :: w.kills} := by
      simp only [World.exec]
      rw [if_pos ⟨hlt, hmay, hcur, hpending, hst⟩]
    rw [heq]
    refine ⟨howned, hstay.maps, fun k hk => ?_, nodup_cons.mpr ⟨hnew, hw.single⟩,
      fun k hk c hc hown => ?_, hstay.making, hstay.exiting, fun u hu => ?_⟩
    · rcases mem_cons.mp hk with rfl | hk
      · exact hcalls
      · exact hstay.purged k hk
    · rcases mem_cons.mp hk with rfl | hk
      · cases c with
        | shm => exact hshm ⟨hlt, hmay, hcur, hpending, hst⟩ hown
        | _ => simp [killCleanups] at hc
      · exact hw.killed k hk c hc hown
    · obtain ⟨hlife, hrel⟩ := hstay.ended u hu
      exact ⟨hlife, {hrel with}⟩
  · have heq : w.exec (.kill cpu pid) = {w with sched := w.sched.procKill cpu pid} := by
      simp only [World.exec]
      rw [if_neg hready]
    rw [heq]
    exact hstay

theorem killFinish {pid : Nat} (hk : ⟨pid, []⟩ ∈ w.kills) : Inv (w.exec (.killFinish pid)) := by
  have hcall : Call.purge pid ∈ w.sched.calls := hw.purged _ hk
  obtain ⟨hready, hlt⟩ := call_live hw.owned hcall rfl
  have howned : Owned (w.sched.procKillFinish pid) fun _ => 0 :=
    hw.owned.finished (exec_finished _ (rfl : (Op.killFinish pid).finishes = true))
  have hfinish : ∃ s', (w.sched.leave (.purge pid)).procTransition pid procKillExitCode
      procExitKilled = some s' ∧ w.sched.procKillFinish pid = s' := by
    cases htrans : (w.sched.leave (.purge pid)).procTransition pid procKillExitCode
        procExitKilled with
    | none =>
      have hst : ((w.sched.leave (.purge pid)).tasks pid).state = .ready := hready
      have hcount : ¬ pid ≥ (w.sched.leave (.purge pid)).taskCount := Nat.not_le_of_lt hlt
      simp [State.procTransition, hst, hcount] at htrans
    | some s' =>
      refine ⟨s', rfl, ?_⟩
      have hst : ((w.sched.leave (.purge pid)).tasks pid).state = .ready := hready
      have hcount : ¬ pid ≥ (w.sched.leave (.purge pid)).taskCount := Nat.not_le_of_lt hlt
      unfold State.procKillFinish
      rw [if_pos hcall]
      rw [if_neg (by rw [hst]; simp; omega), if_neg (by rw [hst]; simp), htrans]
      rfl
  obtain ⟨s', htrans, hs'⟩ := hfinish
  rw [hs'] at howned
  have hnodup := (perm_cons_erase hk).map Kill.pid |>.nodup_iff.mp hw.single
  rw [map_cons, nodup_cons] at hnodup
  -- the other kills in flight have other targets
  have hother : ∀ k ∈ w.kills.erase ⟨pid, []⟩,
      k ∈ w.kills ∧ Call.purge k.pid ∈ (w.sched.leave (.purge pid)).calls := by
    intro k hmem
    have hold := mem_of_mem_erase hmem
    refine ⟨hold, (mem_erase_of_ne fun heq => ?_).mpr (hw.purged k hold)⟩
    exact hnodup.1 (mem_map.mpr ⟨k, hmem, Call.purge.inj heq⟩)
  obtain ⟨hends, hinv⟩ := hw.finish pid (w.sched.leave (.purge pid)) s' (w.kills.erase ⟨pid, []⟩)
    (fun c => hw.killed _ hk c not_mem_nil) (by rw [hready]; rfl) rfl htrans rfl
    (transition_spec htrans).2.2.2.2 howned (fun k hmem => mem_of_mem_erase hmem) hother
    hnodup.2
  simp only [World.exec]
  rw [if_pos hk, hs', if_pos hends]
  exact hinv

end

/-- A new task starts with none of the events of its slot; the other tables are
as before. -/
theorem owns_section {u : Nat} (h : (w.section_ op).Owns u c) : w.Owns u c := by
  cases c with
  | events =>
    simp only [World.section_, World.Owns] at h
    split at h
    · exact absurd rfl h
    · exact h
  | _ => exact h

section
variable (hw : Inv w) (hop : Plain op) (hqueued : op.PurgesQueued w.sched)
include hw hop hqueued

theorem section_ : Inv (w.section_ op) := by
  have h := stays_exec hw.owned hop
  have hexits : ∀ u l, (w.section_ op).exits u = some l →
      ¬ replaces w.sched op u = true ∧ w.exits u = some l := by
    intro u l hu
    simp only [World.section_] at hu
    split at hu
    · cases hu
    · exact ⟨‹_›, hu⟩
  refine ⟨hw.owned.exec hqueued, hw.maps, fun k hk => h.purges _ (hw.purged k hk), hw.single,
    fun k hk c hc hown => hw.killed k hk c hc (owns_section hown), fun k hk u g hm => ?_,
    fun u l hu c hc hown => hw.exiting u l (hexits u l hu).2 c hc (owns_section hown),
    fun u hu => ?_⟩
  · simp only [World.section_]
    split
    · rfl
    next hmade =>
      rcases h.making k hk u g hm with hmade' | ⟨k', hk', g', hm'⟩
      · exact absurd hmade' hmade
      · exact hw.making k' hk' u g' hm'
  · simp only [World.section_] at hu
    split at hu
    · cases hu
    rename_i hmade
    obtain ⟨hlife, hrel⟩ := hw.ended u hu
    refine ⟨fun hlive => hlife (h.life u hmade hlive),
      fun c hown => hrel.tables c (owns_section hown), ?_, h.stack u hmade hrel.stack,
      h.space u hmade hrel.space⟩
    simp only [World.section_]
    rw [if_neg hmade]
    exact hrel.regions

theorem schedStep : Inv (w.schedStep op) := by
  have hsection := hw.section_ hop hqueued
  unfold World.schedStep
  split
  · split
    · exact hsection.cleanup _ _
    · exact hsection
  · exact hsection

end

end Inv

/-! ### Runs -/

/-- A kill of a ready task finds it in a run queue and in no slot of the shared
surfaces, and an event is routed to a task that is alive and on no termination
path. -/
def WorldOp.Careful (w : World) : WorldOp → Prop
  | .kill cpu pid => Op.PurgesQueued w.sched (.kill cpu pid) ∧
      (killsReady w.sched cpu pid → ¬ w.shm.Traces pid)
  | .pushEvent t => (w.sched.tasks t).state.life = .live ∧ w.exits t = none ∧
      ∀ k ∈ w.kills, k.pid ≠ t
  | _ => True

def CarefulWorldStep (w : World) (op : WorldOp) (w' : World) : Prop :=
  op.Careful w ∧ w' = w.exec op

theorem Inv.step {w : World} (hw : Inv w) {op : WorldOp} (hop : op.Careful w) :
    Inv (w.exec op) := by
  cases op with
  | exit cpu code reason =>
    cases hcur : w.sched.current cpu with
    | none =>
      simp only [World.exec, hcur]
      exact hw
    | some t =>
      by_cases hexit : w.exits t = some []
      · exact hw.exit hcur hexit code reason
      · simp only [World.exec, hcur, hexit, if_false]
        exact hw
  | kill cpu pid => exact hw.kill hop.1 hop.2
  | killFinish pid =>
    by_cases hk : ⟨pid, []⟩ ∈ w.kills
    · exact hw.killFinish hk
    · simp only [World.exec, hk, if_false]
      exact hw
  | sched op =>
    simp only [World.exec]
    cases op with
    | exit | kill | killFinish => exact hw
    | _ => exact hw.schedStep trivial trivial
  | act | equip | pushEvent | exitBegin | exitCleanup | killCleanup =>
    -- the guards of the section hold, or nothing happens
    simp only [World.exec]
    repeat' split
    all_goals try exact hw
    first
      | exact hw.act ‹_› (‹_ ∧ _›).2 _
      | exact hw.equip (‹_ ∧ _›).1 (‹_ ∧ _›).2 _
      | exact hw.give (.events w _) hop.2.1 hop.2.2 (hw.not_ended hop.1)
      | exact hw.exitBegin ‹_›
      | exact hw.exitCleanup ‹_›
      | exact hw.killCleanup ‹_› ‹_›

theorem Inv.init : Inv World.init := by
  refine ⟨init_sound.1, fun i t => ?_, fun k hk => ?_, nodup_nil, fun k hk => ?_,
    fun k hk => ?_, fun t l hl => ?_, fun t ht => ?_⟩
  · exact Nat.zero_le 1
  all_goals first | cases hk | cases hl | cases ht

/-- Whichever way a task ends, nothing of it is left, in every run in which each
kill of a ready task finds it queued and without shared surfaces and no event is
routed to a task on its way out. -/
theorem termination_releases {ops : List WorldOp} {w : World}
    (h : Run CarefulWorldStep World.init ops w) (t : Nat) (ht : w.ended t = true) :
    w.Released t := by
  have hinv := h.invariant (I := Inv) (fun w _ _ hw hstep => by
    obtain ⟨hop, rfl⟩ := hstep
    exact Inv.step hw hop) Inv.init
  exact (hinv.ended t ht).2

/-- The steps that every run may take. -/
def WorldOp.harmless : WorldOp → Bool
  | .kill _ _ | .pushEvent _ => false
  | _ => true

theorem WorldOp.harmless.careful {op : WorldOp} (h : op.harmless = true) (w : World) :
    CarefulWorldStep w op (w.exec op) := by
  refine ⟨?_, rfl⟩
  cases op with
  | kill | pushEvent => cases h
  | _ => trivial

def sharing : List WorldOp :=
  [.sched (.createUserTask 0 0x10 0x100 0x200), .sched (.createPush .user 1 1 1 0),
    .sched (.schedule 2 1 0x11 0), .act 1 (.shmCreateBegin true), .act 1 (.shmCreateEnd 0 8 8 true)]

def exiting : List WorldOp :=
  [.exitBegin 1, .exitCleanup 1, .exitCleanup 1, .exitCleanup 1, .exitCleanup 1, .exitCleanup 1,
    .exit 1 0 0]

theorem termination_releases_sharing :
    ((sharing ++ exiting).foldl World.exec World.init).ended 1 = true ∧
      ((sharing ++ exiting).foldl World.exec World.init).Released 1 := by
  have hended : ((sharing ++ exiting).foldl World.exec World.init).ended 1 = true := by
    decide +kernel
  have hrun : Run CarefulWorldStep World.init (sharing ++ exiting)
      ((sharing ++ exiting).foldl World.exec World.init) :=
    Run.foldl (fun op hop w => WorldOp.harmless.careful
      (List.all_eq_true.mp (by decide : (sharing ++ exiting).all WorldOp.harmless = true) op hop) w) _
  exact ⟨hended, termination_releases hrun 1 hended⟩

def killing : List WorldOp :=
  [.sched (.createUserTask 0 0x12 0x300 0x400), .sched (.createPush .user 2 1 1 0),
    .sched (.schedule 2 1 0x13 1), .kill 0 1, .killCleanup ⟨1, killCleanups⟩,
    .killCleanup ⟨1, [.sockets, .events, .windows]⟩, .killCleanup ⟨1, [.events, .windows]⟩,
    .killCleanup ⟨1, [.windows]⟩, .killFinish 1]

def lateKey : List WorldOp :=
  [.exitBegin 1, .exitCleanup 1, .exitCleanup 1, .exitCleanup 1, .pushEvent 1, .exitCleanup 1,
    .exitCleanup 1, .exit 1 0 0]

/-- A kill of a ready task leaves its surface behind, with the dead task as owner
and mapper, and an exit may leave an event. -/
theorem resources_left :
    (∃ w, Run WorldStep World.init (sharing ++ killing) w ∧ w.ended 1 = true ∧ w.Owns 1 .shm) ∧
    ∃ w, Run WorldStep World.init (sharing ++ lateKey) w ∧ w.ended 1 = true ∧
      w.Owns 1 .events := by
  refine ⟨⟨(sharing ++ killing).foldl exec init, Run.foldl (by intro _ _ _; rfl) _, ?_, 0,
      by decide, ?_⟩,
    ⟨(sharing ++ lateKey).foldl exec init, Run.foldl (by intro _ _ _; rfl) _, ?_, ?_⟩⟩
  · decide +kernel
  · refine ⟨?_, .inl ⟨?_, ?_⟩⟩
    · decide +kernel
    · decide +kernel
    · decide +kernel
  · decide +kernel
  · simp only [World.Owns]
    decide +kernel

end Kyuzen.Proc
