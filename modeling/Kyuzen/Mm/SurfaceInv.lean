import Kyuzen.Base.Held
import Kyuzen.Mm.Surface

/-!
What holds of the shared surfaces between any two steps. A slot is free, in
creation by a call of its owner, or live; each frame belongs to one slot or to one
call; generations tell the resources apart. A section that creates nothing keeps
all of it.
-/

namespace Kyuzen.Mm

open Function List

/-! ### The invariant -/

def SurfCall.frames : Option SurfCall → List Nat
  | some (.alloc _ _ _ _ _ pages) => pages
  | some (.enter _ _ _ _ pages _) => pages
  | some (.undo _ pages _ _) => pages
  | _ => []

def SurfCall.creates : SurfCall → Option Nat
  | .alloc i _ _ _ _ _ | .enter i _ _ _ _ _ | .undo i _ _ _ | .fail i => some i
  | _ => none

/-- A live resource: the slot is taken and its pages are installed. -/
structure ShmSlot.Live (x : ShmSlot) : Prop where
  used : x.used = true
  creating : x.creating = false

/-- What the call of task `t` relies on between its steps. -/
def SurfCall.Ok (slots : Nat → ShmSlot) (t : Nat) : SurfCall → Prop
  | .alloc i gen _ _ _ _ | .enter i gen _ _ _ _ =>
    (slots i).used = true ∧ (slots i).creating = true ∧ (slots i).owner = t ∧
      (slots i).generation = gen
  | .undo i _ _ _ | .fail i =>
    (slots i).used = true ∧ (slots i).creating = true ∧ (slots i).owner = t
  | .map i gen write _ =>
    (slots i).Live ∧ t ∈ (slots i).maps ∧ (slots i).generation = gen ∧
      (t = (slots i).owner ∨ (slots i).published = true ∧ write = false)
  | .unmapAll i gen _ _ => (slots i).Live ∧ t ∈ (slots i).maps ∧ (slots i).generation = gen
  | .unmap _ _ _ | .exited _ => True

/-- The content of a live slot: someone keeps it, and whoever does is the owner or
came after the publication. -/
structure ShmSlot.Kept (x : ShmSlot) : Prop where
  retained : ¬ (x.destroyed = true ∧ x.maps = [] ∧ x.refs = [])
  permitted : ∀ u, u ∈ x.maps ∨ u ∈ x.refs → u = x.owner ∨ x.published = true

/-- The content of a slot that a call of its owner is creating. -/
structure ShmSlot.Fresh (x : ShmSlot) (calls : Nat → Option SurfCall) (i : Nat) : Prop where
  maps : x.maps = []
  refs : x.refs = []
  destroyed : x.destroyed = false
  published : x.published = false
  call : ∃ c, calls x.owner = some c ∧ c.creates = some i

namespace Surf

def held (σ : Surf) : Nat ⊕ Nat → List Nat
  | .inl i => σ.pages i
  | .inr t => SurfCall.frames (σ.calls t)

structure Inv (σ : Surf) : Prop where
  bound : ∀ i, (σ.shm.slots i).used = true → i < kzShmMaxRes
  noPages : ∀ i, ¬ (σ.shm.slots i).Live → σ.pages i = []
  kept : ∀ i, (σ.shm.slots i).Live → (σ.shm.slots i).Kept
  fresh : ∀ i, (σ.shm.slots i).used = true → (σ.shm.slots i).creating = true →
    (σ.shm.slots i).Fresh σ.calls i
  calls : ∀ t c, σ.calls t = some c → c.Ok σ.shm.slots t
  counter : σ.creates + 1 < 2 ^ 32 → σ.shm.gen = σ.creates + 1
  gens : ∀ i, (σ.shm.slots i).used = true → (σ.shm.slots i).generation ≤ σ.creates
  distinct : ∀ i j, (σ.shm.slots i).used = true → (σ.shm.slots j).used = true →
    (σ.shm.slots i).generation = (σ.shm.slots j).generation → i = j
  frames : Held σ.held σ.taken
  live : ∀ i, (σ.shm.slots i).Live →
    (σ.shm.slots i).generation ∈ σ.installed ∧ σ.returned (σ.shm.slots i).generation = 0
  pending : ∀ i, (σ.shm.slots i).used = true → (σ.shm.slots i).creating = true →
    (σ.shm.slots i).generation ∉ σ.installed
  past : ∀ g ∈ σ.installed, g ≤ σ.creates
  once : ∀ g ∈ σ.installed, σ.returned g = 1 ∨
    ∃ i, (σ.shm.slots i).Live ∧ (σ.shm.slots i).generation = g
  never : ∀ g, g ∉ σ.installed → σ.returned g = 0
  dead : ∀ h ∈ σ.destroyed, h.gen ≤ σ.creates ∧
    ¬ ((σ.shm.slots h.idx).used = true ∧ (σ.shm.slots h.idx).generation = h.gen ∧
      (σ.shm.slots h.idx).destroyed = false)
  noted : ∀ i, (σ.shm.slots i).Live → (σ.shm.slots i).destroyed = true →
    ⟨(σ.shm.slots i).generation, i⟩ ∈ σ.destroyed

end Surf

/-! ### Sections on live slots -/

namespace ShmSlot

variable {x y : ShmSlot} {t : Nat}

/-- What a section of task `t` does to a live slot: the records of others stay,
and a slot that goes has no records and no references left. -/
structure Mild (t : Nat) (x y : ShmSlot) : Prop where
  kept : y.used = true → y.Live ∧ y.Kept ∧ y.generation = x.generation ∧ y.owner = x.owner ∧
    (x.published = true → y.published = true) ∧ (x.destroyed = true → y.destroyed = true)
  gone : y.used = false → y.maps = [] ∧ y.refs = []
  others : ∀ u, u ≠ t → u ∈ x.maps → y.used = true ∧ u ∈ y.maps
  old : ∀ u, u ≠ t → u ∈ y.maps → u ∈ x.maps

/-- A section of task `t` on any slot. -/
def Sect (t : Nat) (x y : ShmSlot) : Prop := y = x ∨ x.Live ∧ Mild t x y

theorem Mild.sect (h : Mild t x y) (hx : x.Live) : Sect t x y := .inr ⟨hx, h⟩

namespace Sect

variable {u : Nat}

theorem was (h : Sect t x y) (hy : y.Live) : x.Live := by
  rcases h with rfl | ⟨hl, -⟩
  · exact hy
  · exact hl

theorem kept (h : Sect t x y) (hx : x.Live) (hu : y.used = true) :
    y.Live ∧ (x.Kept → y.Kept) ∧ y.generation = x.generation ∧ y.owner = x.owner ∧
      (x.published = true → y.published = true) := by
  rcases h with rfl | ⟨-, hmild⟩
  · exact ⟨hx, id, rfl, rfl, id⟩
  · obtain ⟨hl, hk, hgen, howner, hpub, -⟩ := hmild.kept hu
    exact ⟨hl, fun _ => hk, hgen, howner, hpub⟩

theorem others (h : Sect t x y) (hx : x.Live) (hne : u ≠ t) (hmem : u ∈ x.maps) :
    y.used = true ∧ u ∈ y.maps := by
  rcases h with rfl | ⟨-, hmild⟩
  · exact ⟨hx.used, hmem⟩
  · exact hmild.others u hne hmem

end Sect

/-- The slot before `maybe_free`: entries of others stay and new ones are permitted. -/
structure Edit (t : Nat) (x y : ShmSlot) : Prop where
  live : y.Live
  generation : y.generation = x.generation
  owner : y.owner = x.owner
  published : x.published = true → y.published = true
  destroyed : x.destroyed = true → y.destroyed = true
  permitted : ∀ u, u ∈ y.maps ∨ u ∈ y.refs → u = y.owner ∨ y.published = true
  others : ∀ u, u ≠ t → u ∈ x.maps → u ∈ y.maps
  old : ∀ u, u ≠ t → u ∈ y.maps → u ∈ x.maps

theorem Edit.mild (h : Edit t x y) (hkept : ¬ (y.destroyed = true ∧ y.maps = [] ∧ y.refs = [])) :
    Mild t x y :=
  ⟨fun _ => ⟨h.live, ⟨hkept, h.permitted⟩, h.generation, h.owner, h.published, h.destroyed⟩,
    fun hfree => absurd (h.live.used.symm.trans hfree) (by simp),
    fun u hne hu => ⟨h.live.used, h.others u hne hu⟩, h.old⟩

theorem Edit.maybeFree (h : Edit t x y) : Mild t x y.maybeFree := by
  by_cases hcond : y.destroyed ∧ y.maps = [] ∧ y.refs = [] ∧ y.creating = false
  · have heq : y.maybeFree = {y with
        used := false, published := false, destroyed := false,
        generation := nextGen y.generation} := if_pos hcond
    rw [heq]
    refine ⟨nofun, fun _ => ⟨hcond.2.1, hcond.2.2.1⟩, fun u hne hu => ?_, h.old⟩
    have hmem := h.others u hne hu
    rw [hcond.2.1] at hmem
    cases hmem
  · have heq : y.maybeFree = y := if_neg hcond
    rw [heq]
    exact h.mild fun ⟨hdes, hmaps, hrefs⟩ => hcond ⟨hdes, hmaps, hrefs, h.live.creating⟩

theorem Edit.refl (hx : x.Live) (hk : x.Kept) (t : Nat) : Edit t x x :=
  ⟨hx, rfl, rfl, id, id, hk.permitted, fun _ _ h => h, fun _ _ h => h⟩

theorem mem_delEntry_of_ne {l : List Nat} {u : Nat} (h : t ∈ l) (hne : u ≠ t) (hu : u ∈ l) :
    u ∈ delEntry t l := by
  have hcount := count_delEntry h u
  rw [if_neg (Ne.symm hne), add_zero] at hcount
  exact count_pos_iff.mp (hcount ▸ count_pos_iff.mpr hu)

theorem Edit.delMap (h : Edit t x y) : Edit t x (y.delMap t) := by
  unfold ShmSlot.delMap
  split
  next hmem =>
    exact {h with
        live := ⟨h.live.used, h.live.creating⟩,
        permitted := fun u hu => h.permitted u (hu.imp_left (mem_of_mem_delEntry hmem)),
        others := fun u hne hu => mem_delEntry_of_ne hmem hne (h.others u hne hu),
        old := fun u hne hu => h.old u hne (mem_of_mem_delEntry hmem hu)}
  · exact h

theorem Edit.delRef (h : Edit t x y) : Edit t x (y.delRef t) := by
  unfold ShmSlot.delRef
  split
  next hmem =>
    exact {h with
        live := ⟨h.live.used, h.live.creating⟩,
        permitted := fun u hu => h.permitted u (hu.imp_right (mem_of_mem_delEntry hmem))}
  · exact h

theorem Edit.delRefs (rounds : Nat) (h : Edit t x y) : Edit t x (y.delRefs t rounds) := by
  induction rounds generalizing y with
  | zero => exact h
  | succ rounds ih => exact ih h.delRef

theorem Edit.destroy (h : Edit t x y) : Edit t x {y with destroyed := true} :=
  {h with live := ⟨h.live.used, h.live.creating⟩, destroyed := fun _ => rfl}

theorem sect_taskExit (hkept : x.Live → x.Kept) (hfresh : x.used = true → x.creating = true →
      x.maps = [] ∧ x.refs = [] ∧ x.destroyed = false ∧ x.owner ≠ t) :
    Sect t x (x.taskExit t) := by
  unfold taskExit
  split
  · exact .inl rfl
  rename_i hused
  have hused : x.used = true := by simpa using hused
  by_cases hcr : x.creating = true
  · obtain ⟨hmaps, hrefs, hdes, howner⟩ := hfresh hused hcr
    left
    have hnomap : x.delMap t = x := by simp [ShmSlot.delMap, hmaps]
    simp [hnomap, hrefs, ShmSlot.delRefs, howner, ShmSlot.maybeFree, hdes]
  · have hlive : x.Live := ⟨hused, by simpa using hcr⟩
    have hedit := ((Edit.refl hlive (hkept hlive) t).delMap).delRefs x.refs.length
    dsimp only
    split
    · exact hedit.destroy.maybeFree.sect hlive
    · exact hedit.maybeFree.sect hlive

end ShmSlot

namespace Shm

variable {s : Shm} {t i : Nat} {h : ShmHandle}

theorem lookupUnmap_ok (hl : s.lookupUnmap h = .ok i) :
    i = h.idx ∧ i < kzShmMaxRes ∧ (s.slots i).used = true ∧ (s.slots i).generation = h.gen := by
  revert hl
  fun_cases lookupUnmap s h <;> rintro ⟨⟩
  next hrange hstale =>
    push Not at hrange hstale
    exact ⟨rfl, by omega, by simpa using hstale.1, hstale.2⟩

theorem lookup_ok (hl : s.lookup h = .ok i) : s.lookupUnmap h = .ok i ∧
    (s.slots i).destroyed = false := by
  revert hl
  fun_cases lookup s h <;> rintro ⟨⟩
  next hj hdes => exact ⟨hj, by simpa using hdes⟩

theorem sect_set {x : ShmSlot} (h : ShmSlot.Sect t (s.slots i) x) (j : Nat) :
    ShmSlot.Sect t (s.slots j) ((s.set i x).slots j) := by
  by_cases hij : j = i
  · subst hij
    simpa [Shm.set] using h
  · exact .inl (by simp [Shm.set, update_of_ne hij])

end Shm

theorem countP_range_zero {n : Nat} {p : Nat → Bool} (h : ∀ i < n, p i = false) :
    (range n).countP p = 0 := by
  rw [countP_eq_zero]
  intro i hi
  simp [h i (mem_range.mp hi)]

theorem countP_range_one {n i : Nat} {p : Nat → Bool} (hi : i < n) (hp : p i = true)
    (h : ∀ j < n, p j = true → j = i) : (range n).countP p = 1 := by
  have hcongr : (range n).countP p = (range n).count i := by
    rw [count]
    refine countP_congr fun j hj => ?_
    rw [beq_iff_eq]
    exact ⟨h j (mem_range.mp hj), fun heq => heq ▸ hp⟩
  rw [hcongr]
  exact count_eq_one_of_mem nodup_range (mem_range.mpr hi)

namespace Surf

variable {σ : Surf} {t : Nat} {s : Shm}

theorem gaveUp_iff {i : Nat} : σ.gaveUp s i = true ↔
    (σ.shm.slots i).used = true ∧ (s.slots i).used = false := by
  simp [gaveUp]

/-- `free_pages` ran at most once in the section for a generation, and only for a
live slot. -/
theorem returned_sect (hσ : σ.Inv) (hs : ∀ i, (σ.shm.slots i).Sect t (s.slots i)) (g : Nat) :
    (σ.sect s).returned g = σ.returned g ∧ (∀ i, σ.gaveUp s i = true →
        (σ.shm.slots i).generation ≠ g) ∨
      (σ.sect s).returned g = σ.returned g + 1 ∧ ∃ i < kzShmMaxRes, (σ.shm.slots i).Live ∧
        (σ.shm.slots i).generation = g ∧ σ.gaveUp s i = true ∧ (s.slots i).maps = [] ∧
        (s.slots i).refs = [] := by
  by_cases hex : ∃ i, σ.gaveUp s i = true ∧ (σ.shm.slots i).generation = g
  · obtain ⟨i, hgave, hgen⟩ := hex
    obtain ⟨hused, hfree⟩ := gaveUp_iff.mp hgave
    right
    have hi := hσ.bound i hused
    refine ⟨?_, i, hi, ?_⟩
    · simp only [sect]
      rw [countP_range_one hi (by simp [hgave, hgen])]
      intro j _ hj
      simp only [Bool.and_eq_true, decide_eq_true_eq] at hj
      exact hσ.distinct j i (gaveUp_iff.mp hj.1).1 hused (hj.2.trans hgen.symm)
    · rcases hs i with heq | ⟨hlive, hmild⟩
      · rw [heq, hused] at hfree
        cases hfree
      · exact ⟨hlive, hgen, hgave, hmild.gone hfree⟩
  · left
    push Not at hex
    refine ⟨?_, hex⟩
    simp only [sect]
    rw [countP_range_zero, add_zero]
    intro i _
    cases hgave : σ.gaveUp s i with
    | false => rfl
    | true => simp [hex i hgave]

theorem mem_destroyed_sect {h : ShmHandle} : h ∈ (σ.sect s).destroyed ↔
    (h.idx < kzShmMaxRes ∧ (σ.shm.slots h.idx).used = true ∧ (σ.shm.slots h.idx).destroyed = false ∧
      ((s.slots h.idx).used = false ∨ (s.slots h.idx).destroyed = true) ∧
      (σ.shm.slots h.idx).generation = h.gen) ∨ h ∈ σ.destroyed := by
  simp only [sect, mem_append, mem_map, mem_filter, mem_range, Bool.and_eq_true,
    Bool.or_eq_true, Bool.not_eq_true']
  constructor
  · rintro (⟨i, ⟨hi, ⟨hused, hdes⟩, hnew⟩, rfl⟩ | hold)
    · exact .inl ⟨hi, hused, hdes, hnew, rfl⟩
    · exact .inr hold
  · rintro (⟨hi, hused, hdes, hnew, hgen⟩ | hold)
    · exact .inl ⟨h.idx, ⟨hi, ⟨hused, hdes⟩, hnew⟩, by rw [hgen]⟩
    · exact .inr hold

/-- What a call of another task relies on survives a section. -/
theorem ok_sect {c : SurfCall} {u : Nat} (hs : ∀ i, (σ.shm.slots i).Sect t (s.slots i)) (hne : u ≠ t)
    (hok : c.Ok σ.shm.slots u) : c.Ok s.slots u := by
  have hstay : ∀ i, (σ.shm.slots i).creating = true → s.slots i = σ.shm.slots i := by
    intro i hcr
    rcases hs i with heq | ⟨hlive, -⟩
    · exact heq
    · exact nomatch hlive.creating.symm.trans hcr
  have hmapped : ∀ i, (σ.shm.slots i).Live → u ∈ (σ.shm.slots i).maps →
      (s.slots i).Live ∧ u ∈ (s.slots i).maps ∧
        (s.slots i).generation = (σ.shm.slots i).generation ∧
        (s.slots i).owner = (σ.shm.slots i).owner ∧
        ((σ.shm.slots i).published = true → (s.slots i).published = true) := by
    intro i hlive hmem
    obtain ⟨hused, hmem'⟩ := (hs i).others hlive hne hmem
    obtain ⟨hlive', -, hsame⟩ := (hs i).kept hlive hused
    exact ⟨hlive', hmem', hsame⟩
  cases c with
  | alloc i | enter i | undo i | fail i =>
    simp only [SurfCall.Ok] at hok ⊢
    rw [hstay i hok.2.1]
    exact hok
  | map i gen write k =>
    obtain ⟨hlive, hmem, hgen, hperm⟩ := hok
    obtain ⟨hlive', hmem', hgen', howner, hpub⟩ := hmapped i hlive hmem
    exact ⟨hlive', hmem', hgen'.trans hgen, hperm.imp (fun h => h.trans howner.symm)
      (fun h => ⟨hpub h.1, h.2⟩)⟩
  | unmapAll i gen k j =>
    obtain ⟨hlive, hmem, hgen⟩ := hok
    obtain ⟨hlive', hmem', hgen', -, -⟩ := hmapped i hlive hmem
    exact ⟨hlive', hmem', hgen'.trans hgen⟩
  | unmap i n k => trivial
  | exited slots => trivial

theorem freed_iff {f : Nat} : σ.freed s f = true ↔
    ∃ i < kzShmMaxRes, σ.gaveUp s i = true ∧ f ∈ σ.pages i := by
  simp [freed]

theorem held_setCall_task (σ : Surf) (t : Nat) (c : Option SurfCall) :
    (σ.setCall t c).held (.inr t) = SurfCall.frames c := by
  change SurfCall.frames (update σ.calls t c t) = _
  rw [update_self]

theorem held_setCall_other {x : Nat ⊕ Nat} (σ : Surf) (c : Option SurfCall) (hx : x ≠ .inr t) :
    (σ.setCall t c).held x = σ.held x := by
  rcases x with i | u
  · rfl
  · change SurfCall.frames (update σ.calls t c u) = _
    rw [update_of_ne fun h => hx (by rw [h])]
    rfl

theorem forall_setCall {c : Option SurfCall} {P : Nat → SurfCall → Prop}
    (hself : ∀ c', c = some c' → P t c')
    (hother : ∀ u c', u ≠ t → σ.calls u = some c' → P u c') (u : Nat) (c' : SurfCall)
    (hc : (σ.setCall t c).calls u = some c') : P u c' := by
  change update σ.calls t c u = some c' at hc
  by_cases hut : u = t
  · subst hut
    rw [update_self] at hc
    exact hself c' hc
  · rw [update_of_ne hut] at hc
    exact hother u c' hut hc

theorem fresh_setCall {x : ShmSlot} {i : Nat} {c : Option SurfCall} (h : x.Fresh σ.calls i)
    (hnot : ∀ c₀, σ.calls t = some c₀ → c₀.creates ≠ some i) : x.Fresh (σ.setCall t c).calls i := by
  obtain ⟨hmaps, hrefs, hdes, hpub, c₀, hc₀, hci⟩ := h
  refine ⟨hmaps, hrefs, hdes, hpub, c₀, ?_, hci⟩
  change update σ.calls t c x.owner = some c₀
  rw [update_of_ne, hc₀]
  exact fun hown => hnot c₀ (hown ▸ hc₀) hci

theorem Inv.sect (hσ : σ.Inv) {c : Option SurfCall} (hgen : s.gen = σ.shm.gen)
    (hs : ∀ i, (σ.shm.slots i).Sect t (s.slots i))
    (hnow : ∀ c₀, σ.calls t = some c₀ → c₀.creates = none)
    (hframes : SurfCall.frames c = []) (hok : ∀ c', c = some c' → c'.Ok s.slots t) :
    ((σ.sect s).setCall t c).Inv := by
  have hused : ∀ i, (s.slots i).used = true → (σ.shm.slots i).used = true ∧
      (s.slots i).generation = (σ.shm.slots i).generation := by
    intro i hi
    rcases hs i with heq | ⟨hlive, hmild⟩
    · exact ⟨heq ▸ hi, by rw [heq]⟩
    · exact ⟨hlive.used, (hmild.kept hi).2.2.1⟩
  have hcreating : ∀ i, (s.slots i).used = true → (s.slots i).creating = true →
      s.slots i = σ.shm.slots i := by
    intro i hi hcr
    rcases hs i with heq | ⟨-, hmild⟩
    · exact heq
    · cases (hmild.kept hi).1.creating.symm.trans hcr
  have hlive : ∀ i, (s.slots i).Live → (σ.shm.slots i).Live := fun i => (hs i).was
  refine ⟨fun i hi => hσ.bound i (hused i hi).1, fun i hi => ?_, fun i hi => ?_,
    fun i hi hcr => ?_, forall_setCall hok fun u c' hut hc' => ok_sect hs hut (hσ.calls u c' hc'),
    fun hlt => hgen.trans (hσ.counter hlt),
    fun i hi => (hused i hi).2 ▸ hσ.gens i (hused i hi).1, fun i j hi hj hij => ?_, ?_,
    fun i hi => ?_, fun i hi hcr => ?_, hσ.past, fun g hg => ?_, fun g hg => ?_, fun h hh => ?_,
    fun i hi hd => ?_⟩
  · change (if σ.gaveUp s i = true then [] else σ.pages i) = []
    split
    · rfl
    rename_i hgave
    refine hσ.noPages i fun hl => ?_
    cases hu : (s.slots i).used with
    | true => exact hi ((hs i).kept hl hu).1
    | false => exact hgave (gaveUp_iff.mpr ⟨hl.used, hu⟩)
  · exact ((hs i).kept (hlive i hi) hi.used).2.1 (hσ.kept i (hlive i hi))
  · have heq := hcreating i hi hcr
    have hi' : (σ.shm.slots i).used = true := heq ▸ hi
    have hfresh := hσ.fresh i hi' (heq ▸ hcr)
    rw [← heq] at hfresh
    refine fresh_setCall (σ := σ.sect s) hfresh fun c₀ hc₀ hci => ?_
    cases (hnow c₀ hc₀).symm.trans hci
  · have hgi := (hused i hi).2
    have hgj := (hused j hj).2
    exact hσ.distinct i j (hused i hi).1 (hused j hj).1 (hgi.symm.trans (Eq.trans hij hgj))
  · refine hσ.frames.drop (fun x => ?_) fun x f hf htaken => ?_
    · by_cases hx : x = .inr t
      · rw [hx, held_setCall_task]
        exact .inr hframes
      rw [held_setCall_other _ _ hx]
      cases x with
      | inl i => exact (ite_eq_or_eq ..).symm
      | inr u => exact .inl rfl
    · change (σ.taken f && !σ.freed s f) = true
      rw [htaken, Bool.true_and, Bool.not_eq_true']
      by_contra hfreed
      obtain ⟨i, hi, hgave, hmem⟩ := freed_iff.mp (by simpa using hfreed)
      by_cases hx : x = .inr t
      · rw [hx, held_setCall_task, hframes] at hf
        cases hf
      rw [held_setCall_other _ _ hx] at hf
      cases x with
      | inl j =>
        change f ∈ (if σ.gaveUp s j = true then [] else σ.pages j) at hf
        split at hf
        · cases hf
        next hnot =>
          cases hσ.frames.apart (.inl i) (.inl j) f hmem hf
          exact hnot hgave
      | inr u => cases hσ.frames.apart (.inl i) (.inr u) f hmem hf
  · have hold := hσ.live i (hlive i hi)
    have hgi : (s.slots i).generation = (σ.shm.slots i).generation := (hused i hi.used).2
    change (s.slots i).generation ∈ σ.installed ∧ (σ.sect s).returned (s.slots i).generation = 0
    rw [hgi]
    refine ⟨hold.1, ?_⟩
    rcases returned_sect hσ hs (σ.shm.slots i).generation with ⟨hret, -⟩ | ⟨-, j, -, hlj, hgj, hgave, -⟩
    · rw [hret]
      exact hold.2
    · have hji := hσ.distinct j i hlj.used (hlive i hi).used hgj
      subst hji
      exact absurd (gaveUp_iff.mp hgave).2 (by simp [show (s.slots j).used = true from hi.used])
  · have heq := hcreating i hi hcr
    change (s.slots i).generation ∉ σ.installed
    have hi' : (σ.shm.slots i).used = true := heq ▸ hi
    have hcr' : (σ.shm.slots i).creating = true := heq ▸ hcr
    rw [heq]
    exact hσ.pending i hi' hcr'
  · change (σ.sect s).returned g = 1 ∨ ∃ i, (s.slots i).Live ∧ (s.slots i).generation = g
    rcases returned_sect hσ hs g with ⟨hret, hnot⟩ | ⟨hret, j, -, hlj, hgj, -⟩
    · rw [hret]
      rcases hσ.once g hg with hone | ⟨i, hl, hgi⟩
      · exact .inl hone
      refine .inr ⟨i, ?_⟩
      have hu : (s.slots i).used = true := by
        by_contra hu
        exact hnot i (gaveUp_iff.mpr ⟨hl.used, by simpa using hu⟩) hgi
      obtain ⟨hl', -, hgen', -⟩ := (hs i).kept hl hu
      exact ⟨hl', hgen'.trans hgi⟩
    · rw [hret, ← hgj, (hσ.live j hlj).2]
      exact .inl rfl
  · rcases returned_sect hσ hs g with ⟨hret, -⟩ | ⟨-, j, -, hlj, hgj, -⟩
    · exact hret.trans (hσ.never g hg)
    · exact absurd (hgj ▸ (hσ.live j hlj).1) hg
  · rcases mem_destroyed_sect.mp hh with ⟨-, hu, -, hnew, hg⟩ | hold
    · refine ⟨hg ▸ hσ.gens h.idx hu, ?_⟩
      rintro ⟨hu', -, hd'⟩
      rcases hnew with hbad | hbad
      · cases hu'.symm.trans hbad
      · cases hd'.symm.trans hbad
    · obtain ⟨hle, hnot⟩ := hσ.dead h hold
      refine ⟨hle, ?_⟩
      rintro ⟨hu', hg', hd'⟩
      obtain ⟨hu, hgi⟩ := hused h.idx hu'
      refine hnot ⟨hu, hgi.symm.trans hg', ?_⟩
      rcases hs h.idx with heq | ⟨-, hmild⟩
      · rw [← heq]
        exact hd'
      · by_contra hd
        have := (hmild.kept hu').2.2.2.2.2 (by simpa using hd)
        cases hd'.symm.trans this
  · change ⟨(s.slots i).generation, i⟩ ∈ (σ.sect s).destroyed
    obtain ⟨hu, hg⟩ := hused i hi.used
    rw [hg, mem_destroyed_sect]
    cases hdes : (σ.shm.slots i).destroyed with
    | true => exact .inr (hσ.noted i (hlive i hi) hdes)
    | false => exact .inl ⟨hσ.bound i hu, hu, rfl, .inr hd, rfl⟩

end Surf

end Kyuzen.Mm
