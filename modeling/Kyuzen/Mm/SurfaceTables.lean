import Kyuzen.Mm.SurfaceLife

/-!
Map records and page tables. A task that is in no call maps the pages of the
surfaces that record it, and nothing else at the surface slots; in a call the
entries are as far as the call has come. This is so as long as no task with a
record gets another address space, which takes the entries and leaves the records.
-/

namespace Kyuzen.Mm

open Function List Shm ShmSlot

def SurfCall.Sized : SurfCall → Prop
  | .alloc _ _ n _ _ pages => 0 < n ∧ pages.length ≤ n
  | .enter _ _ _ _ pages _ => pages ≠ []
  | _ => True

theorem Shm.set_slots_self (s : Shm) (i : Nat) (x : ShmSlot) : (s.set i x).slots i = x :=
  update_self ..

variable {x : ShmSlot} {i j : Nat}

theorem Shm.set_slots_other {s : Shm} (h : j ≠ i) : (s.set i x).slots j = s.slots j :=
  update_of_ne h ..

/-- A slot is replaced by one that agrees with it in a field. -/
theorem Shm.set_field {β : Type} (f : ShmSlot → β) {s : Shm}
    (h : f x = f (s.slots i)) : f ((s.set i x).slots j) = f (s.slots j) := by
  by_cases hji : j = i
  · rw [hji, set_slots_self, h]
  · rw [set_slots_other hji]

namespace Surf

variable {c : Option SurfCall} {j k : Nat} {s : Shm} {σ σ' : Surf} {t u i : Nat}

/-- The frame that the task's tables have for a page of a slot. -/
def frame (σ : Surf) (t i k : Nat) : Option Nat := (σ.pte t i k).map Prod.fst

def Maps (σ : Surf) (t i : Nat) : Prop := (σ.shm.slots i).Live ∧ t ∈ (σ.shm.slots i).maps

/-- The entries of a slot are those of its pages if the task is recorded, and
there are none otherwise. -/
structure Recorded (σ : Surf) (t i : Nat) : Prop where
  mapped : σ.Maps t i → ∀ k, σ.frame t i k = (σ.pages i)[k]?
  clear : ¬ σ.Maps t i → ∀ k, σ.frame t i k = none

/-- The entries of a slot as far as the call of the task has come. -/
def MatchesCall (σ : Surf) (t i : Nat) : SurfCall → Prop
  | .enter j _ _ _ pages m =>
    (j = i → ∀ k, σ.frame t i k = if k < m then pages[k]? else none) ∧ (j ≠ i → σ.Recorded t i)
  | .undo j pages m c =>
    (j = i → ∀ k, σ.frame t i k = if c ≤ k ∧ k < m then pages[k]? else none) ∧
      (j ≠ i → σ.Recorded t i)
  | .map j _ _ m =>
    (j = i → ∀ k, σ.frame t i k = if k < m then (σ.pages i)[k]? else none) ∧
      (j ≠ i → σ.Recorded t i)
  | .unmapAll j _ m c =>
    (j = i → ∀ k, σ.frame t i k = if c ≤ k ∧ k < m then (σ.pages i)[k]? else none) ∧
      (j ≠ i → σ.Recorded t i)
  | .unmap j n m =>
    (j = i → ¬ σ.Maps t i ∧ ∀ k, k < m ∨ n ≤ k → σ.frame t i k = none) ∧
      (j ≠ i → σ.Recorded t i)
  | .exited _ => ¬ σ.Maps t i
  | .alloc _ _ _ _ _ _ | .fail _ => σ.Recorded t i

def Matches (σ : Surf) (t i : Nat) : Prop :=
  match σ.calls t with
  | none => σ.Recorded t i
  | some c => σ.MatchesCall t i c

theorem matches_idle (h : σ.calls t = none) : σ.Matches t i ↔ σ.Recorded t i := by
  rw [Matches, h]

theorem matches_call {c : SurfCall} (h : σ.calls t = some c) :
    σ.Matches t i ↔ σ.MatchesCall t i c := by
  rw [Matches, h]

structure Sized (σ : Surf) : Prop where
  pages : ∀ i, (σ.shm.slots i).Live → σ.pages i ≠ []
  calls : ∀ t c, σ.calls t = some c → c.Sized

/-! ### What a step leaves alone -/

structure Alike (σ σ' : Surf) (t i : Nat) : Prop where
  maps : σ'.Maps t i ↔ σ.Maps t i
  pages : σ.Maps t i → σ'.pages i = σ.pages i
  frame : ∀ k, σ'.frame t i k = σ.frame t i k

theorem Recorded.alike (h : σ.Recorded t i) (hsame : Alike σ σ' t i) : σ'.Recorded t i := by
  refine ⟨fun hm k => ?_, fun hm k => ?_⟩
  · have hm' := hsame.maps.mp hm
    rw [hsame.frame, hsame.pages hm', h.mapped hm']
  · rw [hsame.frame, h.clear fun hm' => hm (hsame.maps.mpr hm')]

theorem MatchesCall.alike {c : SurfCall} (h : σ.MatchesCall t i c) (hok : c.Ok σ.shm.slots t)
    (hsame : Alike σ σ' t i) : σ'.MatchesCall t i c := by
  cases c with
  | alloc | fail => exact Recorded.alike h hsame
  | enter | undo =>
    exact ⟨fun hj k => (hsame.frame k).trans (h.1 hj k), fun hj => (h.2 hj).alike hsame⟩
  | map | unmapAll =>
    refine ⟨fun hj k => ?_, fun hj => (h.2 hj).alike hsame⟩
    subst hj
    rw [hsame.frame, hsame.pages ⟨hok.1, hok.2.1⟩]
    exact h.1 rfl k
  | unmap j n m =>
    refine ⟨fun hj => ⟨fun hm => (h.1 hj).1 (hsame.maps.mp hm), fun k hk => ?_⟩,
      fun hj => (h.2 hj).alike hsame⟩
    rw [hsame.frame]
    exact (h.1 hj).2 k hk
  | exited slots => exact fun hm => h (hsame.maps.mp hm)

/-- A task that does not move notices nothing. -/
theorem Matches.alike (hσ : σ.Inv) (h : σ.Matches t i) (hcalls : σ'.calls t = σ.calls t)
    (hsame : Alike σ σ' t i) : σ'.Matches t i := by
  cases hc : σ.calls t with
  | none =>
    rw [hc] at hcalls
    exact (matches_idle hcalls).mpr (((matches_idle hc).mp h).alike hsame)
  | some c =>
    rw [hc] at hcalls
    exact (matches_call hcalls).mpr (((matches_call hc).mp h).alike (hσ.calls t c hc) hsame)

theorem Alike.of_eq (hshm : σ'.shm = σ.shm) (hpages : σ'.pages = σ.pages)
    (hpte : ∀ k, σ'.pte t i k = σ.pte t i k) : Alike σ σ' t i := by
  refine ⟨?_, fun _ => by rw [hpages], fun k => ?_⟩
  · rw [Maps, Maps, hshm]
  · rw [Surf.frame, Surf.frame, hpte]

theorem frame_setPte_self (σ : Surf) (t i k : Nat) (e : Option (Nat × Bool)) (c : Option SurfCall) :
    ((σ.setPte t i k e).setCall t c).frame t i k = e.map Prod.fst := by
  simp [frame, setPte, setCall]

theorem frame_setPte_other {m : Nat} (e : Option (Nat × Bool)) (c : Option SurfCall) (hne : m ≠ k) :
    ((σ.setPte t i k e).setCall t c).frame t i m = σ.frame t i m := by
  simp [frame, setPte, setCall, hne]

theorem Alike.setPte {e : Option (Nat × Bool)} (hne : ¬ (u = t ∧ i = j)) :
    Alike σ ((σ.setPte t j k e).setCall t c) u i := by
  refine .of_eq rfl rfl fun m => ?_
  exact if_neg fun h => hne ⟨h.1, h.2.1⟩

section
variable (hs : ∀ i, (σ.shm.slots i).Sect t (s.slots i))
include hs

/-- Sections keep the records and pages of others. -/
theorem Alike.sect (hmaps : u ∈ (σ.shm.slots i).maps → (σ.shm.slots i).Live →
      (s.slots i).used = true ∧ u ∈ (s.slots i).maps)
    (hold : u ∈ (s.slots i).maps → u ∈ (σ.shm.slots i).maps) :
    Alike σ ((σ.sect s).setCall t c) u i := by
  have hiff : ((σ.sect s).setCall t c).Maps u i ↔ σ.Maps u i := by
    refine ⟨fun ⟨hl, hmem⟩ => ⟨(hs i).was hl, hold hmem⟩, fun ⟨hl, hmem⟩ => ?_⟩
    obtain ⟨hused, hmem'⟩ := hmaps hmem hl
    exact ⟨((hs i).kept hl hused).1, hmem'⟩
  refine ⟨hiff, fun hm => ?_, fun k => rfl⟩
  obtain ⟨hused, -⟩ := hmaps hm.2 hm.1
  change (if σ.gaveUp s i = true then [] else σ.pages i) = σ.pages i
  rw [if_neg]
  exact fun hgave => nomatch (gaveUp_iff.mp hgave).2.symm.trans hused

theorem Alike.sect_other (hne : u ≠ t) : Alike σ ((σ.sect s).setCall t c) u i := by
  refine .sect hs (fun hmem hl => (hs i).others hl hne hmem) fun hmem => ?_
  rcases hs i with heq | ⟨-, hmild⟩
  · rwa [heq] at hmem
  · exact hmild.old u hne hmem

theorem Alike.sect_maps (hmaps : (s.slots i).maps = (σ.shm.slots i).maps) :
    Alike σ ((σ.sect s).setCall t c) u i := by
  refine .sect hs (fun hmem hl => ⟨?_, by rwa [hmaps]⟩) fun hmem => by rwa [← hmaps]
  rcases hs i with heq | ⟨-, hmild⟩
  · rw [heq]
    exact hl.used
  · by_contra hfree
    have hnil := (hmild.gone (by simpa using hfree)).1
    rw [hmaps] at hnil
    rw [hnil] at hmem
    cases hmem

end

theorem calls_setCall (σ : Surf) (t : Nat) (c : Option SurfCall) : (σ.setCall t c).calls t = c :=
  update_self ..

theorem calls_setCall_other (σ : Surf) (c : Option SurfCall) (hne : u ≠ t) :
    (σ.setCall t c).calls u = σ.calls u :=
  update_of_ne hne ..

theorem not_maps_of_creating (hcr : (σ.shm.slots i).creating = true) : ¬ σ.Maps u i :=
  fun hm => not_live_of_creating hcr hm.1

theorem OneSlot.alike (h : OneSlot σ j σ') (hpte : σ'.pte = σ.pte)
    (hnot : i = j → ¬ σ'.Maps u i) : Alike σ σ' u i := by
  have hframe : ∀ k, σ'.frame u i k = σ.frame u i k := fun k => by rw [frame, frame, hpte]
  by_cases hij : i = j
  · subst hij
    have hbefore : ¬ σ.Maps u i := fun hm => h.before hm.1
    exact ⟨iff_of_false (hnot rfl) hbefore, fun hm => absurd hm hbefore, hframe⟩
  · refine ⟨?_, fun _ => h.oldPages i hij, hframe⟩
    rw [Maps, Maps, h.old i hij]

theorem map_slots {h : ShmHandle} {write : Bool} (hmap : σ.shm.map t h write = (some j, s))
    (hne : k ≠ j) : s.slots k = σ.shm.slots k := by
  revert hmap
  fun_cases Shm.map σ.shm t h write <;> rintro ⟨⟩
  · rfl
  · simp [Shm.set, update_of_ne hne]

theorem unmap_ok (hσ : σ.Inv) (hrc : (σ.shm.unmap t j).1 = kzOk) :
    (σ.shm.slots j).Live ∧ t ∈ (σ.shm.slots j).maps ∧
      (σ.shm.unmap t j).2 = σ.shm.set j ((σ.shm.slots j).delMap t).maybeFree := by
  unfold unmap at hrc ⊢
  split at hrc
  · cases hrc
  rename_i k hl
  obtain ⟨rfl, -, hused, -⟩ := lookupUnmap_ok hl
  split at hrc
  · cases hrc
  next hmem =>
    have hmem := not_not.mp hmem
    exact ⟨hσ.live_of_entry hused (.inl hmem), hmem, by rw [if_neg (not_not.mpr hmem)]⟩

theorem not_mem_delMap_maybeFree (hmaps : σ.shm.MapsOnce) (j : Nat) :
    t ∉ ((σ.shm.slots j).delMap t).maybeFree.maps := by
  have hnot := notMem_delMap (hmaps j t)
  unfold maybeFree
  split
  · exact hnot
  · exact hnot

variable {pages : List Nat}

theorem frame_enter {m f : Nat} {w : Bool} (hf : pages[m]? = some f)
    (hold : ∀ k, σ.frame t j k = if k < m then pages[k]? else none) (k : Nat) :
    ((σ.setPte t j m (some (f, w))).setCall t c).frame t j k =
      if k < m + 1 then pages[k]? else none := by
  by_cases hkm : k = m
  · subst hkm
    rw [frame_setPte_self, if_pos (Nat.lt_succ_self k), hf]
    rfl
  · rw [frame_setPte_other _ _ hkm, hold k]
    split
    · rw [if_pos (by omega)]
    · rw [if_neg (by omega)]

theorem frame_leave {m a : Nat}
    (hold : ∀ k, σ.frame t j k = if a ≤ k ∧ k < m then pages[k]? else none) (k : Nat) :
    ((σ.setPte t j a none).setCall t c).frame t j k =
      if a + 1 ≤ k ∧ k < m then pages[k]? else none := by
  by_cases hka : k = a
  · subst hka
    rw [frame_setPte_self, if_neg (by omega)]
    rfl
  · rw [frame_setPte_other _ _ hka, hold k]
    split
    · rw [if_pos (by omega)]
    · rw [if_neg (by omega)]

section

variable (hσ : σ.Inv) (hall : ∀ u i, σ.Matches u i)
include hσ hall

theorem matches_step (σ₁ : Surf)
    (hcalls : σ₁.calls = σ.calls) (hother : ∀ u i, u ≠ t → Alike σ (σ₁.setCall t c) u i)
    (hself : ∀ i, c.elim ((σ₁.setCall t c).Recorded t i) ((σ₁.setCall t c).MatchesCall t i)) :
    (σ₁.setCall t c).Matches u i := by
  by_cases hut : u = t
  · subst hut
    have hc := calls_setCall σ₁ u c
    cases c with
    | none => exact (matches_idle hc).mpr (hself i)
    | some c => exact (matches_call hc).mpr (hself i)
  · refine (hall u i).alike hσ ?_ (hother u i hut)
    rw [calls_setCall_other _ _ hut, hcalls]

/-! ### Creation -/

theorem createBegin_matches (hidle : σ.calls t = none)
    (valid : Bool) (n width height : Nat) (u i : Nat) :
    (σ.createBegin t valid n width height).Matches u i := by
  unfold createBegin
  split
  · exact hall u i
  rename_i j s hbegin
  have halike := fun u i =>
    (createBegin_oneSlot hbegin (some (.alloc j (s.slots j).generation n width height []))).alike
      (u := u) (i := i) rfl fun hij hm => createBegin_not_live hbegin (hij ▸ hm.1)
  exact matches_step hσ hall {σ with shm := s, creates := σ.creates + 1} rfl
    (fun u i _ => halike u i) (fun i => ((matches_idle hidle).mp (hall t i)).alike (halike t i))

theorem setCall_matches {taken : Nat → Bool}
    (hself : ∀ i, c.elim (σ.Recorded t i) (σ.MatchesCall t i)) :
    (({σ with taken := taken} : Surf).setCall t c).Matches u i := by
  refine matches_step hσ hall {σ with taken := taken} rfl
    (fun _ _ _ => .of_eq rfl rfl fun _ => rfl) fun i => ?_
  have hrec : σ.Recorded t i → (({σ with taken := taken} : Surf).setCall t c).Recorded t i :=
    fun h => {h with}
  cases c with
  | none => exact hrec (hself i)
  | some c =>
    have h := hself i
    cases c with
    | alloc | fail => exact hrec h
    | exited => exact h
    | _ => exact ⟨h.1, fun hij => hrec (h.2 hij)⟩

theorem createOom_matches (u i : Nat) : (σ.createOom t).Matches u i := by
  fun_cases createOom σ t
  next hc => exact setCall_matches hσ hall (fun i => (matches_call hc).mp (hall t i))
  · exact hall u i

theorem createPage_matches (page : Option Nat) (u i : Nat) : (σ.createPage t page).Matches u i := by
  fun_cases createPage σ t page
  all_goals try exact hall u i
  next hc _ => exact setCall_matches hσ hall fun i => (matches_call hc).mp (hall t i)
  next hc _ _ _ => exact setCall_matches hσ hall fun i => (matches_call hc).mp (hall t i)
  next j gen n width height pages hc hlen =>
    have hrec : ∀ i, σ.Recorded t i := fun i => (matches_call hc).mp (hall t i)
    refine setCall_matches hσ hall fun i => ⟨fun hij k => ?_, fun _ => hrec i⟩
    subst hij
    rw [if_neg (by omega)]
    exact (hrec j).clear (not_maps_of_creating (hσ.calls t _ hc).2.1) k

/-- One entry of slot `j` moves; the other slots stay recorded. -/
theorem setPte_matches {e : Option (Nat × Bool)} {c : SurfCall} {moved : Surf → Nat → Prop}
    (hcall : ∀ τ i, (j = i → moved τ i) ∧ (j ≠ i → Recorded τ t i) → τ.MatchesCall t i c)
    (hrec : ∀ i, j ≠ i → σ.Recorded t i) (hj : moved ((σ.setPte t j k e).setCall t (some c)) j) :
    ((σ.setPte t j k e).setCall t (some c)).Matches u i := by
  refine matches_step hσ hall (σ.setPte t j k e) rfl (fun u i hut => .setPte fun h => hut h.1)
    fun i => hcall _ i ⟨fun hij => hij ▸ hj, fun hij => ?_⟩
  exact (hrec i hij).alike (.setPte fun h => hij h.2.symm)

omit hσ in
theorem call_matches {c : SurfCall} (hc : σ.calls t = some c) (i : Nat) : σ.MatchesCall t i c :=
  (matches_call hc).mp (hall t i)

theorem createPte_matches (ok : Bool) (u i : Nat) : (σ.createPte t ok).Matches u i := by
  fun_cases createPte σ t ok
  all_goals try exact hall u i
  next j gen width height pages m hc f hf _ =>
    have hold := call_matches hall hc
    exact setPte_matches hσ hall (fun _ _ h => h) (fun i => (hold i).2)
      (frame_enter hf ((hold j).1 rfl))
  next j gen width height pages m hc f hf _ =>
    have hold := call_matches hall hc
    refine setCall_matches hσ hall (fun i => ⟨fun hij k => ?_, (hold i).2⟩)
    simp only [Nat.zero_le, true_and]
    exact (hold i).1 hij k

theorem createUndo_matches (u i : Nat) : (σ.createUndo t).Matches u i := by
  fun_cases createUndo σ t
  next j pages m a hc _ =>
    have hold := call_matches hall hc
    exact setPte_matches hσ hall (fun _ _ h => h) (fun i => (hold i).2)
      (frame_leave ((hold j).1 rfl))
  next j pages m a hc hend =>
    have hold := call_matches hall hc
    refine setCall_matches hσ hall (fun i => ?_)
    by_cases hij : j = i
    · subst hij
      refine ⟨fun hm => absurd hm (not_maps_of_creating (hσ.calls t _ hc).2.1), fun _ k => ?_⟩
      exact ((hold j).1 rfl k).trans (if_neg (by omega))
    · exact (hold i).2 hij
  · exact hall u i

theorem createEnd_matches (u i : Nat) : (σ.createEnd t).Matches u i := by
  fun_cases createEnd σ t
  · exact hall u i
  next j gen width height pages m hc hm =>
    have hold := call_matches hall hc
    have hone := createEnd_oneSlot t width height true (gen :: σ.installed)
      (fun k hk => update_of_ne hk pages σ.pages) (hσ.calls t _ hc).2.1
    refine matches_step hσ hall {σ with
        shm := σ.shm.createEnd t j width height true
        pages := update σ.pages j pages
        installed := gen :: σ.installed} rfl
      (fun u i hut => hone.alike rfl fun hij hm => hut ?_) (fun i => ?_)
    · subst hij
      simpa [setCall, Shm.createEnd, Shm.set] using hm.2
    by_cases hij : j = i
    · subst hij
      refine ⟨fun _ k => ?_, fun hnot => absurd ⟨?_, ?_⟩ hnot⟩
      · change σ.frame t j k = (update σ.pages j pages j)[k]?
        rw [update_self, (hold j).1 rfl k]
        split
        · rfl
        · rw [getElem?_eq_none]
          omega
      · change ((σ.shm.createEnd t j width height true).slots j).Live
        refine ⟨?_, ?_⟩ <;> simp [Shm.createEnd, Shm.set, (hσ.calls t _ hc).1]
      · change t ∈ ((σ.shm.createEnd t j width height true).slots j).maps
        simp [Shm.createEnd, Shm.set]
    · exact ((hold i).2 hij).alike (hone.alike rfl fun h => absurd h.symm hij)
  next j hc =>
    have halike := fun u i => (createEnd_oneSlot t 0 0 false σ.installed (fun _ _ => rfl)
      (hσ.calls t _ hc).2.1).alike (u := u) (i := i) rfl fun hij hm => by
          subst hij
          have hused := hm.1.used
          simp [setCall, Shm.createEnd, Shm.set] at hused
    exact matches_step hσ hall {σ with shm := σ.shm.createEnd t j 0 0 false} rfl
      (fun u i _ => halike u i)
      (fun i => Recorded.alike ((matches_call hc).mp (hall t i)) (halike t i))
  · exact hall u i

/-! ### Mapping and unmapping -/

theorem mapBegin_matches (hidle : σ.calls t = none)
    (h : ShmHandle) (write : Bool) (u i : Nat) : (σ.mapBegin t h write).Matches u i := by
  have hs := sect_map (t := t) hσ h write
  unfold mapBegin
  split
  · exact hall u i
  rename_i j s hmap
  rw [hmap] at hs
  split
  · exact hall u i
  rename_i hnew
  have hold := fun i => (matches_idle (i := i) hidle).mp (hall t i)
  refine matches_step hσ hall (σ.sect s) rfl (fun u i hut => .sect_other hs hut)
    (fun i => ⟨fun hij k => ?_, fun hij => ?_⟩)
  · subst hij
    rw [if_neg (by omega)]
    exact (hold j).clear (fun hm => hnew hm.2) k
  · exact (hold i).alike (.sect_maps hs (by rw [map_slots hmap (Ne.symm hij)]))

theorem mapPte_matches (ok : Bool) (u i : Nat) : (σ.mapPte t ok).Matches u i := by
  fun_cases mapPte σ t ok
  next j gen write m hc hend =>
    have hold := call_matches hall hc
    have hok := hσ.calls t _ hc
    refine setCall_matches hσ hall (fun i => ?_)
    by_cases hij : j = i
    · subst hij
      refine ⟨fun _ k => ((hold j).1 rfl k).trans ?_, fun hnot => absurd ⟨hok.1, hok.2.1⟩ hnot⟩
      split
      · rfl
      · have hlen := List.getElem?_eq_none_iff.mp hend
        exact (getElem?_eq_none (l := σ.pages j) (by omega)).symm
    · exact (hold i).2 hij
  next j gen write m hc f hf _ =>
    have hold := call_matches hall hc
    exact setPte_matches hσ hall (fun _ _ h => h) (fun i => (hold i).2)
      (frame_enter hf ((hold j).1 rfl))
  next j gen write m hc f hf _ =>
    have hold := call_matches hall hc
    refine setCall_matches hσ hall (fun i => ⟨fun hij k => ?_, (hold i).2⟩)
    simp only [Nat.zero_le, true_and]
    exact (hold i).1 hij k
  · exact hall u i

theorem mapUndo_matches (hmaps : σ.shm.MapsOnce) (u i : Nat) : (σ.mapUndo t).Matches u i := by
  fun_cases mapUndo σ t
  next j gen m a hc _ =>
    have hold := call_matches hall hc
    exact setPte_matches hσ hall (fun _ _ h => h) (fun i => (hold i).2)
      (frame_leave ((hold j).1 rfl))
  next j gen m a hc hend =>
    have hold := call_matches hall hc
    have hs := sect_mapFail hσ hc
    refine matches_step hσ hall (σ.sect (σ.shm.mapFail t j)) rfl
      (fun u i hut => .sect_other hs hut) (fun i => ?_)
    by_cases hij : j = i
    · subst hij
      refine ⟨fun hm => ?_, fun _ k => ((hold j).1 rfl k).trans (if_neg (by omega))⟩
      have hmem : t ∈ ((σ.shm.mapFail t j).slots j).maps := hm.2
      rw [mapFail, set_slots_self] at hmem
      exact absurd hmem (not_mem_delMap_maybeFree hmaps j)
    · refine ((hold i).2 hij).alike (.sect_maps hs ?_)
      rw [mapFail, set_slots_other (Ne.symm hij)]
  · exact hall u i

theorem unmapBegin_matches (hmaps : σ.shm.MapsOnce)
    (hidle : σ.calls t = none) (j u i : Nat) : (σ.unmapBegin t j).Matches u i := by
  have hs := sect_unmap (t := t) hσ j
  unfold unmapBegin
  dsimp only
  split
  next hrc =>
    have hold := fun i => (matches_idle (i := i) hidle).mp (hall t i)
    obtain ⟨hlive, hmem, heq⟩ := unmap_ok hσ hrc
    rw [heq] at hs ⊢
    refine matches_step hσ hall (σ.sect _) rfl (fun u i hut => .sect_other hs hut)
      (fun i => ⟨fun hij => ?_, fun hij => ?_⟩)
    · subst hij
      refine ⟨fun hm => ?_, fun k hk => ?_⟩
      · have hin : t ∈ ((σ.shm.set j ((σ.shm.slots j).delMap t).maybeFree).slots j).maps := hm.2
        rw [set_slots_self] at hin
        exact not_mem_delMap_maybeFree hmaps j hin
      · exact ((hold j).mapped ⟨hlive, hmem⟩ k).trans (getElem?_eq_none (by omega))
    · exact (hold i).alike (.sect_maps hs (by rw [set_slots_other (Ne.symm hij)]))
  · exact hall u i

theorem unmapPte_matches (u i : Nat) : (σ.unmapPte t).Matches u i := by
  fun_cases unmapPte σ t
  next j n m hc _ =>
    have hold := call_matches hall hc
    refine setPte_matches hσ hall (fun _ _ h => h) (fun i => (hold i).2)
      ⟨((hold j).1 rfl).1, fun k hk => ?_⟩
    by_cases hkm : k = m
    · subst hkm
      rw [frame_setPte_self]
      rfl
    · rw [frame_setPte_other _ _ hkm]
      exact ((hold j).1 rfl).2 k (by omega)
  next j n m hc hend =>
    have hold := call_matches hall hc
    refine setCall_matches hσ hall (fun i => ?_)
    by_cases hij : j = i
    · subst hij
      exact ⟨fun hm => absurd hm ((hold j).1 rfl).1, fun _ k => ((hold j).1 rfl).2 k (by omega)⟩
    · exact (hold i).2 hij
  · exact hall u i

/-! ### The end of a task and new address spaces -/

theorem taskExit_matches (hmaps : σ.shm.MapsOnce)
    (hidle : σ.calls t = none) (u i : Nat) : (σ.taskExit t).Matches u i := by
  have hs := sect_taskExit hσ hidle
  refine matches_step hσ hall (σ.sect (σ.shm.taskExit t)) rfl
    (fun u i hut => .sect_other hs hut) (fun i ⟨hl, hmem⟩ => ?_)
  have hmem : t ∈ ((σ.shm.taskExit t).slots i).maps := hmem
  have hl : ((σ.shm.taskExit t).slots i).Live := hl
  refine not_traces_taskExit hmaps t ⟨i, ?_, hl.used, .inr (.inl hmem)⟩
  rcases hs i with heq | ⟨hl', -⟩
  · exact hσ.bound i (heq ▸ hl.used)
  · exact hσ.bound i hl'.used

theorem emptyWindow_matches (hnot : ∀ i, ¬ σ.Maps t i) (u i : Nat) :
    (({σ with pte := fun t' => if t' = t then fun _ _ => none else σ.pte t'} : Surf).setCall t
      none).Matches u i := by
  refine matches_step hσ hall
    {σ with pte := fun t' => if t' = t then fun _ _ => none else σ.pte t'} rfl
    (fun u i hut => .of_eq rfl rfl fun k => ?_)
    (fun i => ⟨fun hm => absurd hm (hnot i), fun _ k => by simp [frame, setCall]⟩)
  change (if u = t then fun _ _ => none else σ.pte u) i k = σ.pte u i k
  rw [if_neg hut]

theorem newTask_matches (hkeeps : σ.calls t = none → ∀ i, ¬ σ.Maps t i) (u i : Nat) :
    (σ.newTask t).Matches u i := by
  fun_cases newTask σ t
  next hc => exact emptyWindow_matches hσ hall (hkeeps hc) u i
  next hc => exact emptyWindow_matches hσ hall (fun i => (matches_call hc).mp (hall t i)) u i
  · exact hall u i

end

end Surf

/-- The step gives no new address space to a task that a resource records, and a
new one has nothing at the surface slots. No number is used again while a resource records a
task that `proc_kill` ended with it. -/
def SurfOp.Keeps (σ : Surf) (t : Nat) : SurfOp → Prop
  | .replaceSpace window => (∀ i, ¬ σ.Maps t i) ∧ ∀ i k, window i k = none
  | .newTask => σ.calls t = none → ∀ i, ¬ σ.Maps t i
  | _ => True

namespace Surf

variable {σ : Surf} {t : Nat} {op : SurfOp}
  {s : Shm} {h : ShmHandle} {β : Type} {c : Option SurfCall} {σ₁ : Surf} {i : Nat}

theorem publish_field (f : ShmSlot → β) {x y w hh : Int}
    {j : Nat} (hf : ∀ x : ShmSlot, f {x with published := true} = f x) :
    f ((s.publish t h x y w hh).2.slots j) = f (s.slots j) := by
  unfold publish
  repeat' split
  all_goals first | rfl | exact set_field f (hf _)

theorem maybeFree_maps (x : ShmSlot) : x.maybeFree.maps = x.maps := by
  unfold maybeFree
  split <;> rfl

theorem destroy_maps (s : Shm) (t : Nat) (h : ShmHandle) (j : Nat) :
    ((s.destroy t h).2.slots j).maps = (s.slots j).maps := by
  unfold destroy
  repeat' split
  all_goals first | rfl | skip
  exact set_field maps (maybeFree_maps _)

theorem acquire_field (f : ShmSlot → β) {j : Nat}
    (hf : ∀ (x : ShmSlot) refs, f {x with refs := refs} = f x) :
    f ((s.acquire t h).2.slots j) = f (s.slots j) := by
  unfold acquire
  repeat' split
  all_goals first | rfl | exact set_field f (hf _ _)

theorem release_maps (s : Shm) (t : Nat) (h : ShmHandle) (j : Nat) :
    ((s.release t h).2.slots j).maps = (s.slots j).maps := by
  unfold release
  repeat' split
  all_goals first | rfl | skip
  refine set_field maps ?_
  rw [maybeFree_maps, delRef]
  split <;> rfl

theorem replaceSpace_matches (hσ : σ.Inv) (hall : ∀ u i, σ.Matches u i) (hidle : σ.calls t = none)
    {window : Nat → Nat → Option (Nat × Bool)}
    (hkeeps : SurfOp.Keeps σ t (.replaceSpace window)) (u i : Nat) :
    (σ.replaceSpace t window).Matches u i := by
  have hempty : window = fun _ _ => none := funext fun i => funext fun k => hkeeps.2 i k
  have h := emptyWindow_matches hσ hall hkeeps.1 u i
  have hself : (σ.replaceSpace t fun _ _ => none).setCall t none =
      σ.replaceSpace t fun _ _ => none := setCall_self hidle
  rw [hempty, ← hself]
  exact h

theorem exec_matches (hσ : σ.Inv) (hmaps : σ.shm.MapsOnce) (hall : ∀ u i, σ.Matches u i)
    (hkeeps : op.Keeps σ t) (u i : Nat) : (σ.exec t op).Matches u i := by
  unfold exec
  split
  · exact hall u i
  rename_i hgo
  have hidle := not_and_not_right.mp hgo
  -- The sections below touch no record.
  have hsect : op.continues = false → ∀ s : Shm, (∀ i, (σ.shm.slots i).Sect t (s.slots i)) →
      (∀ i, (s.slots i).maps = (σ.shm.slots i).maps) → (σ.sect s).Matches u i := by
    intro hop s hs hsame
    have hself : (σ.sect s).setCall t none = σ.sect s := setCall_self (hidle hop)
    have hlike : Alike σ ((σ.sect s).setCall t none) u i := .sect_maps hs (hsame i)
    rw [hself] at hlike
    exact (hall u i).alike hσ rfl hlike
  cases op with
  | createBegin valid n width height =>
    exact createBegin_matches hσ hall (hidle rfl) valid n width height u i
  | createOom => exact createOom_matches hσ hall u i
  | createPage page => exact createPage_matches hσ hall page u i
  | createPte ok => exact createPte_matches hσ hall ok u i
  | createUndo => exact createUndo_matches hσ hall u i
  | createEnd => exact createEnd_matches hσ hall u i
  | mapBegin h write => exact mapBegin_matches hσ hall (hidle rfl) h write u i
  | mapPte ok => exact mapPte_matches hσ hall ok u i
  | mapUndo => exact mapUndo_matches hσ hall hmaps u i
  | unmapBegin j => exact unmapBegin_matches hσ hall hmaps (hidle rfl) j u i
  | unmapPte => exact unmapPte_matches hσ hall u i
  | publish h x y w hh =>
    exact hsect rfl _ (sect_publish hσ (hidle rfl) h x y w hh) fun j =>
      publish_field maps fun _ => rfl
  | destroy h => exact hsect rfl _ (sect_destroy hσ (hidle rfl) h) fun j => destroy_maps ..
  | acquire h =>
    exact hsect rfl _ (sect_acquire hσ (hidle rfl) h) fun j =>
      acquire_field maps fun _ _ => rfl
  | release h => exact hsect rfl _ (sect_release hσ h) fun j => release_maps ..
  | stat h => exact hall u i
  | taskExit => exact taskExit_matches hσ hall hmaps (hidle rfl) u i
  | newTask => exact newTask_matches hσ hall hkeeps u i
  | replaceSpace window => exact replaceSpace_matches hσ hall (hidle rfl) hkeeps u i

theorem exec_mapsOnce (hmaps : σ.shm.MapsOnce) (op : SurfOp) : (σ.exec t op).shm.MapsOnce := by
  unfold exec
  split
  · exact hmaps
  cases op with
  | createBegin valid n width height =>
    have h := (σ.shm.createBegin_by t (valid && decide (0 < n ∧ n ≤ kzShmMaxPages))).maps hmaps
    dsimp only
    fun_cases createBegin σ t valid n width height
    · exact hmaps
    next heq =>
      rw [heq] at h
      exact h
  | mapBegin h write =>
    have h := (σ.shm.map_by t h write).maps hmaps
    dsimp only
    fun_cases mapBegin
    all_goals try exact hmaps
    next heq _ =>
      rw [heq] at h
      exact h
  | createEnd =>
    fun_cases createEnd
    all_goals try exact hmaps
    · exact (σ.shm.createEnd_by t _ _ _ true).maps hmaps
    · exact (σ.shm.createEnd_by t _ 0 0 false).maps hmaps
  | mapUndo =>
    fun_cases mapUndo
    all_goals try exact hmaps
    exact (σ.shm.mapFail_by ..).maps hmaps
  | unmapBegin j =>
    dsimp only [unmapBegin]
    split
    · exact (σ.shm.unmap_by t j).maps hmaps
    · exact hmaps
  | publish h x y w hh => exact (σ.shm.publish_by t h x y w hh).maps hmaps
  | destroy h => exact (σ.shm.destroy_by t h).maps hmaps
  | acquire h => exact (σ.shm.acquire_by t h).maps hmaps
  | release h => exact (σ.shm.release_by t h).maps hmaps
  | taskExit => exact hmaps.taskExit t
  | createOom | createPage | createPte | createUndo | mapPte | unmapPte | newTask =>
    dsimp only [createOom, createPage, createPte, createUndo, mapPte, unmapPte, newTask]
    repeat' split
    all_goals exact hmaps
  | stat | replaceSpace => exact hmaps

/-! ### Pages of a live resource -/

theorem Sized.sect (h : σ.Sized)
    (hs : ∀ i, (σ.shm.slots i).Sect t (s.slots i)) (hc : ∀ c', c = some c' → c'.Sized) :
    ((σ.sect s).setCall t c).Sized := by
  refine ⟨fun i hl => ?_, forall_setCall hc fun u c' _ => h.calls u c'⟩
  have hl : (s.slots i).Live := hl
  change (if σ.gaveUp s i = true then [] else σ.pages i) ≠ []
  rw [if_neg fun hgave => nomatch (gaveUp_iff.mp hgave).2.symm.trans hl.used]
  exact h.pages i ((hs i).was hl)

theorem Sized.setCall (h : σ.Sized) (hcalls : σ₁.calls = σ.calls)
    (hpages : ∀ i, (σ₁.shm.slots i).Live → σ₁.pages i ≠ [])
    (hc : ∀ c', c = some c' → c'.Sized) : (σ₁.setCall t c).Sized :=
  ⟨hpages, forall_setCall hc fun u c' _ => hcalls ▸ h.calls u c'⟩

theorem Sized.oneSlot (h : σ.Sized)
    (hcalls : σ₁.calls = σ.calls) (hone : OneSlot σ i (σ₁.setCall t c))
    (hi : (σ₁.shm.slots i).Live → σ₁.pages i ≠ []) (hc : ∀ c', c = some c' → c'.Sized) :
    (σ₁.setCall t c).Sized := by
  refine h.setCall hcalls (fun j hl => ?_) hc
  by_cases hji : j = i
  · subst hji
    exact hi hl
  · have hpages : σ₁.pages j = σ.pages j := hone.oldPages j hji
    rw [hpages]
    exact h.pages j (hone.old j hji ▸ hl)

theorem createBegin_sized (h : σ.Sized) (valid : Bool) (n width height : Nat) :
    (σ.createBegin t valid n width height).Sized := by
  unfold createBegin
  split
  · exact h
  rename_i i s hbegin
  have hn : 0 < n := by
    by_contra hn
    have hvalid : (valid && decide (0 < n ∧ n ≤ kzShmMaxPages)) = false := by
      simp [Nat.eq_zero_of_not_pos hn]
    rw [hvalid] at hbegin
    cases hbegin
  refine h.oneSlot rfl (createBegin_oneSlot hbegin _) (fun hl => ?_) fun c' hc' => ?_
  · exact absurd hl (createBegin_not_live hbegin)
  · cases hc'
    exact ⟨hn, Nat.zero_le _⟩

theorem createPage_sized (h : σ.Sized) (page : Option Nat) : (σ.createPage t page).Sized := by
  fun_cases createPage σ t page
  all_goals try exact h
  · exact h.setCall rfl h.pages (by rintro _ ⟨⟩; trivial)
  next hc hlt _ _ =>
    refine h.setCall rfl h.pages ?_
    rintro _ ⟨⟩
    refine ⟨(h.calls t _ hc).1, ?_⟩
    rw [length_append, length_singleton]
    exact hlt
  next hc hlt =>
    refine h.setCall rfl h.pages ?_
    rintro _ ⟨⟩ rfl
    exact hlt (h.calls t _ hc).1

theorem createEnd_sized (hσ : σ.Inv) (h : σ.Sized) : (σ.createEnd t).Sized := by
  fun_cases createEnd σ t
  all_goals try exact h
  next i gen width height pages k hc _ =>
    refine h.oneSlot rfl (createEnd_oneSlot _ _ _ _ _ (fun j hj => update_of_ne hj ..)
      (hσ.calls t _ hc).2.1) (fun _ => ?_) fun c' hc' => by cases hc'
    change update σ.pages i pages i ≠ []
    rw [update_self]
    exact h.calls t _ hc
  next hc =>
    refine h.oneSlot rfl (createEnd_oneSlot _ _ _ _ _ (fun _ _ => rfl) (hσ.calls t _ hc).2.1)
      (fun hl => ?_) fun c' hc' => by cases hc'
    have hused := hl.used
    simp [Shm.createEnd, Shm.set] at hused

theorem exec_sized (hσ : σ.Inv) (h : σ.Sized) (op : SurfOp) : (σ.exec t op).Sized := by
  unfold exec
  split
  · exact h
  rename_i hgo
  have hidle := not_and_not_right.mp hgo
  have hsect : op.continues = false → ∀ s : Shm, (∀ i, (σ.shm.slots i).Sect t (s.slots i)) →
      (σ.sect s).Sized := by
    intro hop s hs
    have hself : (σ.sect s).setCall t none = σ.sect s := setCall_self (hidle hop)
    rw [← hself]
    exact h.sect hs fun c' hc' => (nomatch hc')
  have hstill : ∀ (σ₁ : Surf) (c : Option SurfCall), σ₁.calls = σ.calls → σ₁.shm = σ.shm →
      σ₁.pages = σ.pages → (∀ c', c = some c' → c'.Sized) → (σ₁.setCall t c).Sized :=
    fun σ₁ c hcalls hshm hpages hc => h.setCall hcalls (by rw [hshm, hpages]; exact h.pages) hc
  cases op with
  | createBegin valid n width height => exact createBegin_sized h valid n width height
  | createOom | createUndo | mapPte | unmapPte | newTask =>
    dsimp only [createOom, createUndo, mapPte, unmapPte, newTask]
    repeat' split
    all_goals first | exact h | exact hstill _ _ rfl rfl rfl fun c' hc' => by cases hc' <;> trivial
  | createPage page => exact createPage_sized h page
  | createPte ok =>
    dsimp only
    fun_cases createPte
    all_goals try exact h
    next hc _ _ _ =>
      have hsize := h.calls t _ hc
      exact hstill (σ.setPte ..) _ rfl rfl rfl (by rintro _ ⟨⟩; exact hsize)
    · exact hstill σ _ rfl rfl rfl (by rintro _ ⟨⟩; trivial)
  | createEnd => exact createEnd_sized hσ h
  | mapBegin g write =>
    have hs := sect_map (t := t) hσ g write
    dsimp only
    fun_cases mapBegin
    all_goals try exact h
    next heq _ =>
      rw [heq] at hs
      exact h.sect hs (by rintro _ ⟨⟩; trivial)
  | mapUndo =>
    fun_cases mapUndo
    · exact hstill (σ.setPte ..) _ rfl rfl rfl (by rintro _ ⟨⟩; trivial)
    next hc _ => exact h.sect (sect_mapFail hσ hc) fun c' hc' => (nomatch hc')
    · exact h
  | unmapBegin j =>
    dsimp only [unmapBegin]
    split
    · exact h.sect (sect_unmap hσ j) (by rintro _ ⟨⟩; trivial)
    · exact h
  | publish g x y w hh => exact hsect rfl _ (sect_publish hσ (hidle rfl) g x y w hh)
  | destroy g => exact hsect rfl _ (sect_destroy hσ (hidle rfl) g)
  | acquire g => exact hsect rfl _ (sect_acquire hσ (hidle rfl) g)
  | release g => exact hsect rfl _ (sect_release hσ g)
  | stat g => exact h
  | taskExit => exact h.sect (sect_taskExit hσ (hidle rfl)) (by rintro _ ⟨⟩; trivial)
  | replaceSpace window => exact {h with}

/-! ### Whole runs -/

def AllMapped (σ : Surf) (t i : Nat) : Prop :=
  ∀ k f, (σ.pages i)[k]? = some f → ∃ w, σ.pte t i k = some (f, w)

theorem allMapped_of_frame (h : ∀ k, σ.frame t i k = (σ.pages i)[k]?) : σ.AllMapped t i := by
  intro k f hf
  have hk := (h k).trans hf
  obtain ⟨⟨f', w⟩, hpte, rfl⟩ := Option.map_eq_some_iff.mp hk
  exact ⟨w, hpte⟩

/-- What a run keeps that gives no recorded task another address space. -/
structure InStep (σ : Surf) : Prop where
  inv : σ.Inv
  mapsOnce : σ.shm.MapsOnce
  sized : σ.Sized
  all : ∀ u i, σ.Matches u i

theorem InStep.exec (h : σ.InStep) (hkeeps : op.Keeps σ t) (hlt : (σ.exec t op).creates < 2 ^ 32) :
    (σ.exec t op).InStep := by
  refine ⟨?_, exec_mapsOnce h.mapsOnce op, exec_sized h.inv h.sized op,
    exec_matches h.inv h.mapsOnce h.all hkeeps⟩
  rcases exec_cases h.inv hlt with h' | h'
  · exact h'.inv
  · exact h'.inv

theorem init_inStep : init.InStep := by
  refine ⟨init_inv, fun _ _ => Nat.zero_le _, ⟨fun i hl => ?_, fun t c hc => (nomatch hc)⟩, fun u i =>
    ⟨fun hm => ?_, fun _ _ => rfl⟩⟩
  · cases hl.used
  · cases hm.1.used

theorem InStep.record_iff (h : σ.InStep) (hidle : σ.calls t = none)
    (hl : (σ.shm.slots i).Live) : t ∈ (σ.shm.slots i).maps ↔ σ.AllMapped t i := by
  have hrec := (matches_idle hidle).mp (h.all t i)
  constructor
  · exact fun hmem => allMapped_of_frame (hrec.mapped ⟨hl, hmem⟩)
  intro hall
  by_contra hmem
  -- The resource has a first page, and nothing is mapped without a record.
  obtain ⟨f, rest, hpages⟩ := exists_cons_of_ne_nil (h.sized.pages i hl)
  obtain ⟨w, hpte⟩ := hall 0 f (by rw [hpages]; rfl)
  have hnone := hrec.clear (fun hm => hmem hm.2) 0
  rw [frame, hpte] at hnone
  cases hnone

end Surf

theorem Surf.map_live {σ : Surf} {t i : Nat} {h : ShmHandle} {write : Bool}
    (hmap : (σ.shm.map t h write).1 = some i) : (σ.shm.slots i).Live := by
  revert hmap
  fun_cases map σ.shm t h write <;> rintro ⟨⟩
  next hl _ hcr _ =>
    obtain ⟨-, -, hused, -⟩ := lookupUnmap_ok (lookup_ok hl).1
    exact ⟨hused, by simpa using hcr⟩
  next hl _ hcr _ _ _ =>
    obtain ⟨-, -, hused, -⟩ := lookupUnmap_ok (lookup_ok hl).1
    exact ⟨hused, by simpa using hcr⟩

/-- A step of some task that leaves recorded tasks their address space. -/
def TableStep (σ : Surf) (op : Nat × SurfOp) (σ' : Surf) : Prop :=
  σ' = σ.exec op.1 op.2 ∧ op.2.Keeps σ op.1 ∧ σ'.creates < 2 ^ 32

theorem Surf.inStep_run {ops : List (Nat × SurfOp)} {σ : Surf}
    (hrun : Run TableStep Surf.init ops σ) : σ.InStep := by
  refine hrun.invariant ?_ init_inStep
  rintro σ₀ op σ₁ hσ₀ ⟨rfl, hkeeps, hlt⟩
  exact hσ₀.exec hkeeps hlt

def createOne : List (Nat × SurfOp) :=
  [(0, .createBegin true 1 8 8), (0, .createPage (some 5)), (0, .createPage none),
    (0, .createPte true), (0, .createEnd)]

theorem createOne_run : Run TableStep Surf.init createOne
    (createOne.foldl (fun σ op => σ.exec op.1 op.2) Surf.init) :=
  .cons ⟨rfl, trivial, by decide +kernel⟩ <| .cons ⟨rfl, trivial, by decide +kernel⟩ <|
    .cons ⟨rfl, trivial, by decide +kernel⟩ <| .cons ⟨rfl, trivial, by decide +kernel⟩ <|
    .cons ⟨rfl, trivial, by decide +kernel⟩ <| .nil _

end Kyuzen.Mm
