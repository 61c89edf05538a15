import Kyuzen.Mm.SurfaceTables

/-!
Frames that are given back while a task still maps them. `kz_shm_unmap` and
`kz_shm_task_exit` drop the record before the entries, so the section that drops
the last record gives the pages back under the entries of its own task, and a
section of another task may do so in between. In all other runs every mapped frame
is one that the allocator has handed out.
-/

namespace Kyuzen.Mm

open List

/-- Task `t` is the last one that keeps the resource of slot `i`, and the step lets
go of it. -/
def SurfOp.Retires (σ : Surf) (t i : Nat) (op : SurfOp) : Prop :=
  (∀ u, u ∈ (σ.shm.slots i).maps ∨ u ∈ (σ.shm.slots i).refs → u = t) ∧
    match op with
    | .unmapBegin j => j = i ∧ (σ.shm.slots i).destroyed = true
    | .release h => h.idx = i ∧ (σ.shm.slots i).destroyed = true
    | .mapUndo => (σ.shm.slots i).destroyed = true
    | .destroy h => h.idx = i ∧ (σ.shm.slots i).owner = t
    | .taskExit => (σ.shm.slots i).destroyed = true ∨ (σ.shm.slots i).owner = t
    | _ => False

/-- The step does not drop the last record together with its own mapping, nor while
another task has dropped its record and not yet its entries. -/
structure SurfOp.Calm (σ : Surf) (t : Nat) (op : SurfOp) : Prop where
  unmaps : ∀ i, op.Retires σ t i → ∀ u n k, σ.calls u ≠ some (.unmap i n k)
  exits : ∀ i, op.Retires σ t i → ∀ u slots, σ.calls u = some (.exited slots) → i ∉ slots
  unmap : ∀ i, op.Retires σ t i → op = .unmapBegin i → t ∉ (σ.shm.slots i).maps
  exit : ∀ i, op.Retires σ t i → op = .taskExit → t ∉ (σ.shm.slots i).maps

namespace ShmSlot

variable {x : ShmSlot} {t : Nat}

theorem maybeFree_unused (hused : x.used = true) (h : x.maybeFree.used = false) :
    x.destroyed = true ∧ x.maps = [] ∧ x.refs = [] := by
  unfold maybeFree at h
  split at h
  next hcond => exact ⟨hcond.1, hcond.2.1, hcond.2.2.1⟩
  · exact nomatch hused.symm.trans h

theorem eq_of_delMap_nil (h : (x.delMap t).maps = []) : ∀ u ∈ x.maps, u = t := by
  intro u hu
  by_contra hne
  unfold delMap at h
  split at h
  next hmem =>
    have := mem_delEntry_of_ne hmem hne hu
    rw [show delEntry t x.maps = [] from h] at this
    cases this
  · rw [h] at hu
    cases hu

theorem mem_delRef_of_ne {u : Nat} (hne : u ≠ t) (hu : u ∈ x.refs) : u ∈ (x.delRef t).refs := by
  unfold delRef
  split
  next hmem => exact mem_delEntry_of_ne hmem hne hu
  · exact hu

theorem mem_delRefs_of_ne {u : Nat} (rounds : Nat) (hne : u ≠ t) (hu : u ∈ x.refs) :
    u ∈ (x.delRefs t rounds).refs := by
  induction rounds generalizing x with
  | zero => exact hu
  | succ rounds ih => exact ih (mem_delRef_of_ne hne hu)

theorem delMap_same (x : ShmSlot) (t : Nat) : (x.delMap t).used = x.used ∧
    (x.delMap t).destroyed = x.destroyed ∧ (x.delMap t).refs = x.refs ∧
    (x.delMap t).owner = x.owner := by
  unfold delMap
  split <;> exact ⟨rfl, rfl, rfl, rfl⟩

theorem delRef_same (x : ShmSlot) (t : Nat) : (x.delRef t).used = x.used ∧
    (x.delRef t).destroyed = x.destroyed ∧ (x.delRef t).maps = x.maps ∧
    (x.delRef t).owner = x.owner := by
  unfold delRef
  split <;> exact ⟨rfl, rfl, rfl, rfl⟩

theorem delRefs_same (t rounds : Nat) (x : ShmSlot) : (x.delRefs t rounds).used = x.used ∧
    (x.delRefs t rounds).destroyed = x.destroyed ∧ (x.delRefs t rounds).maps = x.maps ∧
    (x.delRefs t rounds).owner = x.owner := by
  induction rounds generalizing x with
  | zero => exact ⟨rfl, rfl, rfl, rfl⟩
  | succ rounds ih =>
    obtain ⟨h₁, h₂, h₃, h₄⟩ := ih (x.delRef t)
    obtain ⟨k₁, k₂, k₃, k₄⟩ := x.delRef_same t
    exact ⟨h₁.trans k₁, h₂.trans k₂, h₃.trans k₃, h₄.trans k₄⟩

theorem taskExit_unused (hused : x.used = true) (h : (x.taskExit t).used = false) :
    (∀ u, u ∈ x.maps ∨ u ∈ x.refs → u = t) ∧ (x.destroyed = true ∨ x.owner = t) := by
  unfold taskExit at h
  rw [if_neg (by simp [hused])] at h
  dsimp only at h
  obtain ⟨m₁, m₂, m₃, m₄⟩ := x.delMap_same t
  obtain ⟨r₁, r₂, r₃, r₄⟩ := delRefs_same t x.refs.length (x.delMap t)
  have hall : ((x.delMap t).delRefs t x.refs.length).maps = [] →
      ((x.delMap t).delRefs t x.refs.length).refs = [] →
      ∀ u, u ∈ x.maps ∨ u ∈ x.refs → u = t := by
    intro hmaps hrefs u hu
    rcases hu with hu | hu
    · exact eq_of_delMap_nil (r₃.symm.trans hmaps) u hu
    · by_contra hne
      have := mem_delRefs_of_ne (x := x.delMap t) x.refs.length hne (m₃ ▸ hu)
      rw [hrefs] at this
      cases this
  split at h
  next hown =>
    obtain ⟨-, hmaps, hrefs⟩ := maybeFree_unused (by exact r₁.trans (m₁.trans hused)) h
    exact ⟨hall hmaps hrefs, .inr (m₄.symm.trans (r₄.symm.trans hown.1))⟩
  · obtain ⟨hdes, hmaps, hrefs⟩ := maybeFree_unused (r₁.trans (m₁.trans hused)) h
    exact ⟨hall hmaps hrefs, .inl (m₂.symm.trans (r₂.symm.trans hdes))⟩

end ShmSlot

namespace Surf

variable {f j k u : Nat} {σ : Surf} {t i : Nat} {op : SurfOp}

/-- A live slot survives a section, or nobody keeps it behind it. -/
theorem live_sect {s : Shm} (c : Option SurfCall) (hs : ∀ i, (σ.shm.slots i).Sect t (s.slots i))
    (hl : (σ.shm.slots i).Live) (hused : (s.slots i).used = true) :
    (((σ.sect s).setCall t c).shm.slots i).Live ∧
      ((σ.sect s).setCall t c).pages i = σ.pages i := by
  constructor
  · exact ((hs i).kept hl hused).1
  · change (if σ.gaveUp s i = true then [] else σ.pages i) = σ.pages i
    rw [if_neg]
    exact fun hgave => nomatch (gaveUp_iff.mp hgave).2.symm.trans hused

theorem used_set {s : Shm} {x : ShmSlot} (hused : (s.slots i).used = true)
    (hgone : ((s.set j x).slots i).used = false) : i = j ∧ x.used = false := by
  by_cases hij : i = j
  · rw [hij, Shm.set_slots_self] at hgone
    exact ⟨hij, hgone⟩
  · rw [Shm.set_slots_other hij, hused] at hgone
    cases hgone

section
variable (hl : (σ.shm.slots i).Live)
include hl

theorem unmap_retires
    (hgone : ((σ.shm.set j ((σ.shm.slots j).delMap t).maybeFree).slots i).used = false) :
    i = j ∧ (∀ u, u ∈ (σ.shm.slots i).maps ∨ u ∈ (σ.shm.slots i).refs → u = t) ∧
      (σ.shm.slots i).destroyed = true := by
  obtain ⟨rfl, hfree⟩ := used_set hl.used hgone
  obtain ⟨m₁, m₂, m₃, -⟩ := (σ.shm.slots i).delMap_same t
  obtain ⟨hdes, hmaps, hrefs⟩ := ShmSlot.maybeFree_unused (m₁.trans hl.used) hfree
  refine ⟨rfl, fun u hu => ?_, m₂.symm.trans hdes⟩
  rcases hu with hu | hu
  · exact ShmSlot.eq_of_delMap_nil hmaps u hu
  · rw [← m₃, hrefs] at hu
    cases hu

theorem destroy_retires {h : ShmHandle}
    (hgone : ((σ.shm.destroy t h).2.slots i).used = false) : (SurfOp.destroy h).Retires σ t i := by
  unfold Shm.destroy at hgone
  split at hgone
  · exact nomatch hl.used.symm.trans hgone
  rename_i j hlook
  obtain ⟨hj, -⟩ := Shm.lookupUnmap_ok (Shm.lookup_ok hlook).1
  split at hgone
  · exact nomatch hl.used.symm.trans hgone
  rename_i hown
  obtain ⟨rfl, hfree⟩ := used_set hl.used hgone
  obtain ⟨-, hmaps, hrefs⟩ := ShmSlot.maybeFree_unused (by exact hl.used) hfree
  refine ⟨fun u hu => ?_, hj.symm, Eq.symm (not_not.mp hown)⟩
  rcases hu with hu | hu
  · rw [show (σ.shm.slots i).maps = [] from hmaps] at hu
    cases hu
  · rw [show (σ.shm.slots i).refs = [] from hrefs] at hu
    cases hu

theorem release_retires {h : ShmHandle}
    (hgone : ((σ.shm.release t h).2.slots i).used = false) : (SurfOp.release h).Retires σ t i := by
  unfold Shm.release at hgone
  split at hgone
  · exact nomatch hl.used.symm.trans hgone
  rename_i j hlook
  obtain ⟨hj, -⟩ := Shm.lookupUnmap_ok hlook
  split at hgone
  · exact nomatch hl.used.symm.trans hgone
  obtain ⟨rfl, hfree⟩ := used_set hl.used hgone
  obtain ⟨r₁, r₂, r₃, -⟩ := (σ.shm.slots i).delRef_same t
  obtain ⟨hdes, hmaps, hrefs⟩ := ShmSlot.maybeFree_unused (r₁.trans hl.used) hfree
  refine ⟨fun u hu => ?_, hj.symm, r₂.symm.trans hdes⟩
  rcases hu with hu | hu
  · rw [← r₃, hmaps] at hu
    cases hu
  · by_contra hne
    have := ShmSlot.mem_delRef_of_ne hne hu
    rw [hrefs] at this
    cases this

end

theorem map_used (s : Shm) (t : Nat) (h : ShmHandle) (write : Bool) (i : Nat) :
    ((s.map t h write).2.slots i).used = (s.slots i).used := by
  unfold Shm.map
  split
  · rfl
  dsimp only
  repeat' split
  all_goals first | rfl | skip
  exact Shm.set_field ShmSlot.used rfl

theorem exec_live (t : Nat) (op : SurfOp) (hσ : σ.Inv) (hl : (σ.shm.slots i).Live) :
    (((σ.exec t op).shm.slots i).Live ∧ (σ.exec t op).pages i = σ.pages i) ∨ op.Retires σ t i := by
  unfold exec
  split
  · exact .inl ⟨hl, rfl⟩
  rename_i hgo
  have hidle := not_and_not_right.mp hgo
  -- A section either retires the slot or keeps it used.
  have hsect : ∀ (s : Shm) (c : Option SurfCall), (∀ i, (σ.shm.slots i).Sect t (s.slots i)) →
      ((s.slots i).used = false → op.Retires σ t i) →
      ((((σ.sect s).setCall t c).shm.slots i).Live ∧
        ((σ.sect s).setCall t c).pages i = σ.pages i) ∨ op.Retires σ t i := by
    intro s c hs hret
    cases hused : (s.slots i).used with
    | true => exact .inl (live_sect c hs hl hused)
    | false => exact .inr (hret hused)
  have hstay : ∀ s : Shm, (s.slots i).used = (σ.shm.slots i).used → (s.slots i).used = false →
      op.Retires σ t i := fun s heq hfree => by
    rw [heq, hl.used] at hfree
    cases hfree
  have hkeep : ((σ.shm.slots i).Live ∧ σ.pages i = σ.pages i) ∨ op.Retires σ t i := .inl ⟨hl, rfl⟩
  cases op with
  | createBegin valid n width height =>
    dsimp only
    fun_cases createBegin
    · exact hkeep
    next hbegin => exact .inl ((createBegin_oneSlot hbegin _).live hl)
  | createEnd =>
    fun_cases createEnd
    all_goals try exact hkeep
    next hc _ =>
      exact .inl ((createEnd_oneSlot _ _ _ _ _ (fun j hj => Function.update_of_ne hj ..)
        (hσ.calls t _ hc).2.1).live hl)
    next hc =>
      exact .inl ((createEnd_oneSlot _ _ _ _ _ (fun _ _ => rfl) (hσ.calls t _ hc).2.1).live hl)
  | mapBegin h write =>
    have hs := sect_map (t := t) hσ h write
    have hused := map_used σ.shm t h write i
    dsimp only
    fun_cases mapBegin
    all_goals try exact hkeep
    next heq _ =>
      rw [heq] at hs hused
      exact hsect _ _ hs (hstay _ hused)
  | mapUndo =>
    fun_cases mapUndo
    all_goals try exact hkeep
    next hc _ =>
      refine hsect _ _ (sect_mapFail hσ hc) fun hgone => ?_
      obtain ⟨-, hall, hdes⟩ := unmap_retires hl hgone
      exact ⟨hall, hdes⟩
  | unmapBegin j =>
    dsimp only [unmapBegin]
    split
    next hrc =>
      have hs := sect_unmap (t := t) hσ j
      rw [(unmap_ok hσ hrc).2.2] at hs ⊢
      refine hsect _ _ hs fun hgone => ?_
      obtain ⟨hij, hall, hdes⟩ := unmap_retires hl hgone
      exact ⟨hall, hij.symm, hdes⟩
    · exact hkeep
  | publish h x y w hh =>
    exact hsect _ none (sect_publish hσ (hidle rfl) h x y w hh)
      (hstay _ (publish_field ShmSlot.used fun _ => rfl))
  | acquire h =>
    exact hsect _ none (sect_acquire hσ (hidle rfl) h)
      (hstay _ (acquire_field ShmSlot.used fun _ _ => rfl))
  | destroy h => exact hsect _ none (sect_destroy hσ (hidle rfl) h) (destroy_retires hl)
  | release h => exact hsect _ none (sect_release hσ h) (release_retires hl)
  | taskExit =>
    refine hsect _ _ (sect_taskExit hσ (hidle rfl)) fun hgone => ?_
    simp only [Shm.taskExit, hσ.bound i hl.used, if_true] at hgone
    exact ShmSlot.taskExit_unused hl.used hgone
  | createOom | createPage | createPte | createUndo | mapPte | unmapPte | newTask =>
    dsimp only [createOom, createPage, createPte, createUndo, mapPte, unmapPte, newTask]
    repeat' split
    all_goals exact hkeep
  | stat | replaceSpace => exact hkeep

/-! ### Entries without a record -/

/-- Entries that a task still has without a record are those of a live slot. -/
structure Pins (σ : Surf) : Prop where
  unmap : ∀ u i n m, σ.calls u = some (.unmap i n m) → ∀ k f, σ.frame u i k = some f →
    (σ.shm.slots i).Live ∧ f ∈ σ.pages i
  exited : ∀ u slots, σ.calls u = some (.exited slots) → ∀ i k f, σ.frame u i k = some f →
    i ∈ slots ∧ (σ.shm.slots i).Live ∧ f ∈ σ.pages i

/-- The step makes no such entries and sets none for others. -/
structure Fewer (σ : Surf) (t : Nat) (σ' : Surf) : Prop where
  calls : ∀ u, u ≠ t → σ'.calls u = σ.calls u
  frame : ∀ u, u ≠ t → σ'.frame u = σ.frame u
  unmap : ∀ i n m, σ'.calls t = some (.unmap i n m) → ∃ m', σ.calls t = some (.unmap i n m') ∧
    ∀ k f, σ'.frame t i k = some f → σ.frame t i k = some f
  exited : ∀ slots, σ'.calls t = some (.exited slots) → σ.calls t = some (.exited slots) ∧
    ∀ i k f, σ'.frame t i k = some f → σ.frame t i k = some f

theorem Fewer.refl (σ : Surf) (t : Nat) : Fewer σ t σ :=
  ⟨fun _ _ => rfl, fun _ _ => rfl, fun _ _ m h => ⟨m, h, fun _ _ hf => hf⟩,
    fun _ h => ⟨h, fun _ _ _ hf => hf⟩⟩

theorem exec_other (op : SurfOp) (hut : u ≠ t) :
    (σ.exec t op).calls u = σ.calls u ∧ (σ.exec t op).frame u = σ.frame u := by
  rw [funext_iff (f := frame _ u)]
  simp only [funext_iff, frame]
  unfold exec
  split
  · exact ⟨rfl, fun _ _ => rfl⟩
  cases op <;>
    dsimp only [createBegin, createOom, createPage, createPte, createUndo, createEnd, mapBegin,
      mapPte, mapUndo, unmapBegin, unmapPte, taskExit, newTask, replaceSpace, sect, setCall,
      setPte, giveBack]
  all_goals repeat' split
  all_goals first | exact ⟨rfl, fun _ _ => rfl⟩ | simp_all

/-- The task has dropped its record, and perhaps not yet its entries. -/
def dropped : SurfCall → Bool
  | .unmap .. | .exited _ => true
  | _ => false

theorem exec_dropped (hunmap : ∀ j, op ≠ .unmapBegin j) (hexit : op ≠ .taskExit)
    (hspace : ∀ window, op ≠ .replaceSpace window) (hpte : op ≠ .unmapPte) {c : SurfCall}
    (hc : (σ.exec t op).calls t = some c) (hdrop : dropped c = true) :
    σ.calls t = some c ∧ (σ.exec t op).pte = σ.pte := by
  revert hc
  unfold exec
  split
  · exact fun hc => ⟨hc, rfl⟩
  cases op with
  | unmapBegin j => exact absurd rfl (hunmap j)
  | taskExit => exact absurd rfl hexit
  | replaceSpace window => exact absurd rfl (hspace window)
  | unmapPte => exact absurd rfl hpte
  | publish | destroy | acquire | release | stat => exact fun hc => ⟨hc, rfl⟩
  | _ =>
    dsimp only [createBegin, createOom, createPage, createPte, createUndo, createEnd, mapBegin,
      mapPte, mapUndo, newTask]
    repeat' split
    all_goals
      intro hc
      first
      | exact ⟨hc, rfl⟩
      | rw [calls_setCall] at hc
        cases hc <;> cases hdrop

theorem unmapPte_fewer : Fewer σ t (σ.exec t .unmapPte) := by
  refine ⟨fun u hut => (exec_other _ hut).1, fun u hut => (exec_other _ hut).2, ?_, ?_⟩
  all_goals
    simp only [exec, SurfOp.continues, Bool.true_eq_false, false_and, if_false, unmapPte]
    split
  next j n m hc =>
    split
    · intro i n' m' h
      rw [calls_setCall] at h
      cases h
      refine ⟨m, hc, fun k f hf => ?_⟩
      by_cases hkm : k = m
      · subst hkm
        rw [frame_setPte_self] at hf
        cases hf
      · rwa [frame_setPte_other _ _ hkm] at hf
    · intro i n' m' h
      rw [calls_setCall] at h
      cases h
  · exact (Fewer.refl σ t).unmap
  · split
    all_goals
      intro slots h
      rw [calls_setCall] at h
      cases h
  · exact (Fewer.refl σ t).exited

theorem exec_fewer (hunmap : ∀ j, op ≠ .unmapBegin j) (hexit : op ≠ .taskExit)
    (hspace : ∀ window, op ≠ .replaceSpace window) : Fewer σ t (σ.exec t op) := by
  by_cases hpte : op = .unmapPte
  · rw [hpte]
    exact unmapPte_fewer
  have hkeeps : ∀ c, (σ.exec t op).calls t = some c → dropped c = true → σ.calls t = some c ∧
      ∀ i k f, (σ.exec t op).frame t i k = some f → σ.frame t i k = some f := by
    intro c hc hdrop
    obtain ⟨hc', hp⟩ := exec_dropped hunmap hexit hspace hpte hc hdrop
    refine ⟨hc', fun i k f hf => ?_⟩
    rwa [frame, hp] at hf
  refine ⟨fun u hut => (exec_other _ hut).1, fun u hut => (exec_other _ hut).2,
    fun i n m h => ⟨m, ?_⟩, fun slots h => hkeeps _ h rfl⟩
  obtain ⟨hc, hframe⟩ := hkeeps _ h rfl
  exact ⟨hc, hframe i⟩

section
variable (h : σ.Pins) (hσ : σ.Inv) (hcalm : op.Calm σ t)
include h hσ hcalm

theorem Pins.survives (hpin : (∃ n m, σ.calls u = some (.unmap i n m)) ∨
      ∃ slots, σ.calls u = some (.exited slots)) (hf : σ.frame u i k = some f) :
    ((σ.exec t op).shm.slots i).Live ∧ f ∈ (σ.exec t op).pages i := by
  rcases hpin with ⟨n, m, hc⟩ | ⟨slots, hc⟩
  · obtain ⟨hl, hmem⟩ := h.unmap u i n m hc k f hf
    rcases exec_live t op hσ hl with ⟨hl', hpages⟩ | hret
    · exact ⟨hl', hpages ▸ hmem⟩
    · exact absurd hc (hcalm.unmaps i hret u n m)
  · obtain ⟨hin, hl, hmem⟩ := h.exited u slots hc i k f hf
    rcases exec_live t op hσ hl with ⟨hl', hpages⟩ | hret
    · exact ⟨hl', hpages ▸ hmem⟩
    · exact absurd hin (hcalm.exits i hret u slots hc)

theorem Pins.others (hunmap : ∀ i n m, (σ.exec t op).calls t = some (.unmap i n m) → ∀ k f,
      (σ.exec t op).frame t i k = some f →
        ((σ.exec t op).shm.slots i).Live ∧ f ∈ (σ.exec t op).pages i)
    (hexited : ∀ slots, (σ.exec t op).calls t = some (.exited slots) → ∀ i k f,
      (σ.exec t op).frame t i k = some f →
        i ∈ slots ∧ ((σ.exec t op).shm.slots i).Live ∧ f ∈ (σ.exec t op).pages i) :
    (σ.exec t op).Pins := by
  constructor
  · intro u i n m hc k f hf
    by_cases hut : u = t
    · subst hut
      exact hunmap i n m hc k f hf
    · rw [(exec_other _ hut).1] at hc
      rw [(exec_other _ hut).2] at hf
      exact h.survives hσ hcalm (.inl ⟨n, m, hc⟩) hf
  · intro u slots hc i k f hf
    by_cases hut : u = t
    · subst hut
      exact hexited slots hc i k f hf
    · rw [(exec_other _ hut).1] at hc
      rw [(exec_other _ hut).2] at hf
      exact ⟨(h.exited u slots hc i k f hf).1, h.survives hσ hcalm (.inr ⟨slots, hc⟩) hf⟩

theorem Pins.fewer (hfew : Fewer σ t (σ.exec t op)) : (σ.exec t op).Pins := by
  refine h.others hσ hcalm (fun i n m hc k f hf => ?_) fun slots hc i k f hf => ?_
  · obtain ⟨m', hc', hframe⟩ := hfew.unmap i n m hc
    exact h.survives hσ hcalm (.inl ⟨n, m', hc'⟩) (hframe k f hf)
  · obtain ⟨hc', hframe⟩ := hfew.exited slots hc
    have hf' := hframe i k f hf
    exact ⟨(h.exited t slots hc' i k f hf').1, h.survives hσ hcalm (.inr ⟨slots, hc'⟩) hf'⟩

end

theorem InStep.mapped (h : σ.InStep) (hidle : σ.calls t = none) (hf : σ.frame t i k = some f) :
    σ.Maps t i ∧ f ∈ σ.pages i := by
  have hrec := (matches_idle hidle).mp (h.all t i)
  by_cases hm : σ.Maps t i
  · rw [hrec.mapped hm] at hf
    exact ⟨hm, mem_of_getElem? hf⟩
  · rw [hrec.clear hm] at hf
    cases hf

section
variable (h : σ.Pins) (hin : σ.InStep) (hidle : σ.calls t = none)
include h hin hidle

theorem Pins.unmapBegin
    (hcalm : (SurfOp.unmapBegin j).Calm σ t) : (σ.exec t (.unmapBegin j)).Pins := by
  have hexec : σ.exec t (.unmapBegin j) = σ.unmapBegin t j := by simp [exec, hidle]
  have hothers := h.others hin.inv hcalm
  have hlive := fun {i} (hl : (σ.shm.slots i).Live) =>
    exec_live t (.unmapBegin j) hin.inv hl
  rw [hexec] at hlive hothers ⊢
  revert hlive hothers
  unfold Surf.unmapBegin
  dsimp only
  split
  next hrc =>
    intro hothers hlive
    obtain ⟨-, hmem, -⟩ := unmap_ok hin.inv hrc
    refine hothers (fun i n m hc k f hf => ?_) fun slots hc => ?_
    all_goals
      rw [calls_setCall] at hc
      cases hc
    obtain ⟨hm, hfm⟩ := hin.mapped hidle hf
    rcases hlive hm.1 with ⟨hl', hpages⟩ | hret
    · exact ⟨hl', hpages ▸ hfm⟩
    · exact absurd hmem (hcalm.unmap _ hret rfl)
  · exact fun _ _ => h

theorem Pins.taskExit (hcalm : SurfOp.taskExit.Calm σ t) : (σ.exec t .taskExit).Pins := by
  have hexec : σ.exec t .taskExit = σ.taskExit t := by simp [exec, hidle]
  have hothers := h.others hin.inv hcalm
  have hlive := fun {i} (hl : (σ.shm.slots i).Live) =>
    exec_live t .taskExit hin.inv hl
  rw [hexec] at hlive hothers ⊢
  refine hothers (fun i n m hc => ?_) fun slots hc i k f hf => ?_
  all_goals
    rw [Surf.taskExit, calls_setCall] at hc
    cases hc
  obtain ⟨hm, hfm⟩ := hin.mapped hidle hf
  rcases hlive hm.1 with ⟨hl', hpages⟩ | hret
  · refine ⟨?_, hl', hpages ▸ hfm⟩
    rw [List.mem_filter, List.mem_range]
    exact ⟨hin.inv.bound i hm.1.used, by simpa using hm.2⟩
  · exact absurd hm.2 (hcalm.exit _ hret rfl)

end

theorem Pins.replaceSpace (h : σ.Pins) (hidle : σ.calls t = none)
    (window : Nat → Nat → Option (Nat × Bool)) : (σ.replaceSpace t window).Pins := by
  refine ⟨fun u i n m hc k f hf => ?_, fun u slots hc i k f hf => ?_⟩
  all_goals
    have hut : u ≠ t := by
      rintro rfl
      cases hidle.symm.trans hc
    have hf' : σ.frame u i k = some f := by simpa [frame, Surf.replaceSpace, hut] using hf
  · exact h.unmap u i n m hc k f hf'
  · exact h.exited u slots hc i k f hf'

theorem Pins.exec (h : σ.Pins) (hin : σ.InStep) (hcalm : op.Calm σ t) : (σ.exec t op).Pins := by
  by_cases hbusy : op.continues = false ∧ σ.calls t ≠ none
  · have hsame : σ.exec t op = σ := by
      unfold Surf.exec
      exact if_pos hbusy
    rw [hsame]
    exact h
  have hidle := not_and_not_right.mp hbusy
  cases op with
  | unmapBegin j => exact h.unmapBegin hin (hidle rfl) hcalm
  | taskExit => exact h.taskExit hin (hidle rfl) hcalm
  | replaceSpace window =>
    have hexec : σ.exec t (.replaceSpace window) = σ.replaceSpace t window := by
      simp [Surf.exec, hidle rfl]
    rw [hexec]
    exact h.replaceSpace (hidle rfl) window
  | _ => exact h.fewer hin.inv hcalm (exec_fewer (by simp) (by simp) (by simp))

/-! ### Mapped frames -/

theorem mapped_held (hin : σ.InStep) (hpins : σ.Pins) (hf : σ.frame u i k = some f) :
    ∃ x, f ∈ σ.held x := by
  have hrec : σ.Recorded u i → ∃ x, f ∈ σ.held x := by
    intro hrec
    by_cases hm : σ.Maps u i
    · rw [hrec.mapped hm] at hf
      exact ⟨.inl i, mem_of_getElem? hf⟩
    · rw [hrec.clear hm] at hf
      cases hf
  have hslot : ∀ {p : Prop} [Decidable p],
      (σ.frame u i k = if p then (σ.pages i)[k]? else none) → ∃ x, f ∈ σ.held x := by
    intro p _ heq
    rw [hf] at heq
    split at heq
    · exact ⟨.inl i, mem_of_getElem? heq.symm⟩
    · cases heq
  cases hc : σ.calls u with
  | none => exact hrec ((matches_idle hc).mp (hin.all u i))
  | some c =>
    have hmatch := (matches_call hc).mp (hin.all u i)
    have hown : ∀ {p : Prop} [Decidable p], (σ.frame u i k =
        if p then (SurfCall.frames (some c))[k]? else none) → ∃ x, f ∈ σ.held x := by
      intro p _ heq
      rw [hf] at heq
      split at heq
      · refine ⟨.inr u, ?_⟩
        change f ∈ SurfCall.frames (σ.calls u)
        rw [hc]
        exact mem_of_getElem? heq.symm
      · cases heq
    cases c with
    | alloc | fail => exact hrec hmatch
    | enter j | undo j =>
      by_cases hj : j = i
      · exact hown (hmatch.1 hj k)
      · exact hrec (hmatch.2 hj)
    | map j | unmapAll j =>
      by_cases hj : j = i
      · exact hslot (hmatch.1 hj k)
      · exact hrec (hmatch.2 hj)
    | unmap j n m =>
      by_cases hj : j = i
      · subst hj
        exact ⟨.inl j, (hpins.unmap u j n m hc k f hf).2⟩
      · exact hrec (hmatch.2 hj)
    | exited slots => exact ⟨.inl i, (hpins.exited u slots hc i k f hf).2.2⟩

end Surf

/-- A step of some task that leaves recorded tasks their address space and drops no
last record ahead of an entry. -/
def CalmStep (σ : Surf) (op : Nat × SurfOp) (σ' : Surf) : Prop :=
  σ' = σ.exec op.1 op.2 ∧ op.2.Keeps σ op.1 ∧ op.2.Calm σ op.1 ∧ σ'.creates < 2 ^ 32

/-- No step returns a frame that a task maps at a surface slot. -/
theorem no_mapped_frame_freed {ops : List (Nat × SurfOp)} {σ : Surf}
    (hrun : Run CalmStep Surf.init ops σ) {op : Nat × SurfOp} {σ' : Surf} (hstep : CalmStep σ op σ')
    (f : Nat) (hfree : σ.taken f = true ∧ σ'.taken f = false) (u i k : Nat) (w : Bool) :
    σ'.pte u i k ≠ some (f, w) := by
  have hone : ∀ σ₀ op σ₁, σ₀.InStep ∧ σ₀.Pins → CalmStep σ₀ op σ₁ → σ₁.InStep ∧ σ₁.Pins := by
    rintro σ₀ op σ₁ ⟨hin, hpins⟩ ⟨rfl, hkeeps, hcalm, hlt⟩
    exact ⟨hin.exec hkeeps hlt, hpins.exec hin hcalm⟩
  have hinit : Surf.init.InStep ∧ Surf.init.Pins :=
    ⟨Surf.init_inStep, fun u i n m hc => (by cases hc), fun u slots hc => by cases hc⟩
  obtain ⟨hin, hpins⟩ := hone σ op σ' (hrun.invariant hone hinit) hstep
  intro hpte
  obtain ⟨x, hx⟩ := Surf.mapped_held (i := i) (u := u) (k := k) (f := f) hin hpins
    (by rw [Surf.frame, hpte]; rfl)
  have htaken := hin.inv.frames.taken x f hx
  cases hfree.2.symm.trans htaken

def unmapFirst : List (Nat × SurfOp) :=
  createOne ++ [(0, .unmapBegin 0), (0, .unmapPte), (0, .unmapPte)]

theorem SurfOp.Calm.of_not {σ : Surf} {t : Nat} {op : SurfOp} (h : ∀ i, ¬ op.Retires σ t i) :
    op.Calm σ t :=
  ⟨fun i hi => absurd hi (h i), fun i hi => absurd hi (h i), fun i hi => absurd hi (h i),
    fun i hi => absurd hi (h i)⟩

theorem unmapFirst_run : Run CalmStep Surf.init unmapFirst
    (unmapFirst.foldl (fun σ op => σ.exec op.1 op.2) Surf.init) := by
  have hquiet : ∀ {σ : Surf} {op : SurfOp}, (∀ i, ¬ op.Retires σ 0 i) → op.Keeps σ 0 →
      (σ.exec 0 op).creates < 2 ^ 32 → CalmStep σ (0, op) (σ.exec 0 op) :=
    fun h hkeeps hlt => ⟨rfl, hkeeps, .of_not h, hlt⟩
  refine .cons (hquiet (fun i h => h.2) trivial (by decide +kernel)) <|
    .cons (hquiet (fun i h => h.2) trivial (by decide +kernel)) <|
    .cons (hquiet (fun i h => h.2) trivial (by decide +kernel)) <|
    .cons (hquiet (fun i h => h.2) trivial (by decide +kernel)) <|
    .cons (hquiet (fun i h => h.2) trivial (by decide +kernel)) <|
    .cons (hquiet (fun i h => ?_) trivial (by decide +kernel)) <|
    .cons (hquiet (fun i h => h.2) trivial (by decide +kernel)) <|
    .cons (hquiet (fun i h => h.2) trivial (by decide +kernel)) <| .nil _
  obtain ⟨-, rfl, hdes⟩ := h
  revert hdes
  decide +kernel

theorem no_mapped_frame_freed_unmapFirst :
    ((unmapFirst.foldl (fun σ op => σ.exec op.1 op.2) Surf.init).taken 5 = true ∧
      ((unmapFirst.foldl (fun σ op => σ.exec op.1 op.2) Surf.init).exec 0 (.destroy ⟨1, 0⟩)).taken 5 =
        false) ∧
      ∀ w, ((unmapFirst.foldl (fun σ op => σ.exec op.1 op.2) Surf.init).exec 0
        (.destroy ⟨1, 0⟩)).pte 0 0 0 ≠ some (5, w) := by
  have hfree : (unmapFirst.foldl (fun σ op => σ.exec op.1 op.2) Surf.init).taken 5 = true ∧
      ((unmapFirst.foldl (fun σ op => σ.exec op.1 op.2) Surf.init).exec 0 (.destroy ⟨1, 0⟩)).taken 5 =
        false := by
    decide +kernel
  have hidle : ∀ u, (unmapFirst.foldl (fun σ op => σ.exec op.1 op.2) Surf.init).calls u = none := by
    intro u
    by_cases hu : u = 0
    · subst hu
      decide +kernel
    · simp only [unmapFirst, createOne, cons_append, nil_append, foldl_cons,
        foldl_nil, (Surf.exec_other _ hu).1]
      rfl
  have hcalm : (SurfOp.destroy ⟨1, 0⟩).Calm
      (unmapFirst.foldl (fun σ op => σ.exec op.1 op.2) Surf.init) 0 := by
    refine ⟨fun i _ u n k h => ?_, fun i _ u slots h => ?_, fun i _ h => (nomatch h),
      fun i _ h => (nomatch h)⟩
    all_goals
      exact nomatch (hidle u).symm.trans h
  have hstep : CalmStep (unmapFirst.foldl (fun σ op => σ.exec op.1 op.2) Surf.init)
      (0, .destroy ⟨1, 0⟩) _ := ⟨rfl, trivial, hcalm, by decide +kernel⟩
  exact ⟨hfree, no_mapped_frame_freed unmapFirst_run hstep 5 hfree 0 0 0⟩

/-- The creator destroys its surface and unmaps it: the record of the unmap is the
last one, and the page goes back while its entry is still there. -/
theorem unmap_frees_mapped_frame :
    ∃ σ, Run SurfStep Surf.init (createOne ++ [(0, .destroy ⟨1, 0⟩)]) σ ∧ σ.taken 5 = true ∧
      (σ.exec 0 (.unmapBegin 0)).taken 5 = false ∧
      (σ.exec 0 (.unmapBegin 0)).pte 0 0 0 = some (5, true) := by
  refine ⟨_, Run.foldl (by intro _ _ _; rfl) _, ?_⟩
  decide +kernel

/-- The tasks outside of a call that map a frame of surface `i`, at whatever slot. -/
def Surf.viewers (σ : Surf) (i : Nat) : Set Nat :=
  {t | σ.calls t = none ∧ ∃ f ∈ σ.pages i, ∃ j k, σ.frame t j k = some f}

/-- Until a surface is published no task but its owner sees a frame of it. -/
theorem unpublished_viewers {ops : List (Nat × SurfOp)} {σ : Surf}
    (hrun : Run TableStep Surf.init ops σ) {i : Nat} (hpriv : (σ.shm.slots i).published = false) :
    σ.viewers i ⊆ {(σ.shm.slots i).owner} := by
  have hσ := Surf.inStep_run hrun
  rintro t ⟨ht, f, hf, j, k, htj⟩
  obtain ⟨⟨hlive, hmem⟩, hfj⟩ := hσ.mapped ht htj
  obtain rfl := Sum.inl.inj (hσ.inv.frames.apart (.inl i) (.inl j) f hf hfj)
  rcases (hσ.inv.kept i hlive).permitted t (.inl hmem) with hown | hpub
  · exact hown
  · exact absurd (hpriv.symm.trans hpub) Bool.false_ne_true

theorem unpublished_viewers_createOne :
    (createOne.foldl (fun σ op => σ.exec op.1 op.2) Surf.init).viewers 0 ⊆ {0} :=
  unpublished_viewers createOne_run (by decide +kernel)

end Kyuzen.Mm
