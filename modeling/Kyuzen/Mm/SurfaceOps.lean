import Kyuzen.Mm.SurfaceInv

/-!
Each step of a task keeps the invariant of the shared surfaces, as long as the
generations do not wrap.
-/

namespace Kyuzen.Mm

open Function List Shm

theorem SurfCall.Ok.congr {slots slots' : Nat → ShmSlot} {u : Nat} {c : SurfCall} (h : c.Ok slots u)
    (hsame : ∀ i, (slots i).used = true → ((slots i).creating = true → (slots i).owner = u) →
      slots' i = slots i) : c.Ok slots' u := by
  cases c with
  | alloc i | enter i =>
    simp only [SurfCall.Ok] at h ⊢
    rw [hsame i h.1 fun _ => h.2.2.1]
    exact h
  | undo i | fail i =>
    simp only [SurfCall.Ok] at h ⊢
    rw [hsame i h.1 fun _ => h.2.2]
    exact h
  | map i | unmapAll i =>
    simp only [SurfCall.Ok] at h ⊢
    rw [hsame i h.1.used fun hcr => by cases h.1.creating.symm.trans hcr]
    exact h
  | unmap i n k => trivial
  | exited slots => trivial

namespace Surf

theorem setCall_self {σ : Surf} {t : Nat} {c : Option SurfCall} (h : σ.calls t = c) :
    σ.setCall t c = σ := by
  subst h
  simp [setCall]

variable {i j : Nat} {c c₀ : SurfCall} {σ : Surf} {t : Nat}

/-! ### Steps between the sections -/

theorem Inv.withPte (hσ : σ.Inv) (pte : Nat → Nat → Nat → Option (Nat × Bool)) :
    ({σ with pte := pte} : Surf).Inv :=
  {hσ with frames := ⟨hσ.frames.nodup, hσ.frames.apart, hσ.frames.taken⟩}

theorem Inv.goOn (hσ : σ.Inv) {taken : Nat → Bool} {c : Option SurfCall}
    (hcreates : ∀ c₀ i, σ.calls t = some c₀ → c₀.creates = some i →
      ∃ c₁, c = some c₁ ∧ c₁.creates = some i)
    (hok : ∀ c₁, c = some c₁ → c₁.Ok σ.shm.slots t)
    (hframes : Held (({σ with taken := taken} : Surf).setCall t c).held taken) :
    (({σ with taken := taken} : Surf).setCall t c).Inv := by
  refine {hσ with
      fresh := fun i hi hcr => ?_, calls := forall_setCall hok fun u c' _ hc' => hσ.calls u c' hc',
      frames := hframes}
  obtain ⟨hmaps, hrefs, hdes, hpub, c₀, hc₀, hci⟩ := hσ.fresh i hi hcr
  refine ⟨hmaps, hrefs, hdes, hpub, ?_⟩
  change ∃ c', update σ.calls t c (σ.shm.slots i).owner = some c' ∧ c'.creates = some i
  by_cases hut : (σ.shm.slots i).owner = t
  · rw [hut] at hc₀
    obtain ⟨c₁, hc, hc₁⟩ := hcreates c₀ i hc₀ hci
    exact ⟨c₁, by rw [hut, update_self, hc], hc₁⟩
  · exact ⟨c₀, by rw [update_of_ne hut, hc₀], hci⟩

theorem Inv.setCall (hσ : σ.Inv) {c : Option SurfCall}
    (hcreates : ∀ c₀ i, σ.calls t = some c₀ → c₀.creates = some i →
      ∃ c₁, c = some c₁ ∧ c₁.creates = some i)
    (hok : ∀ c₁, c = some c₁ → c₁.Ok σ.shm.slots t)
    (hframes : SurfCall.frames c = SurfCall.frames (σ.calls t)) : (σ.setCall t c).Inv := by
  refine hσ.goOn hcreates hok (hσ.frames.drop (fun x => .inl ?_) fun _ _ _ h => h)
  by_cases hx : x = .inr t
  · subst hx
    exact (held_setCall_task _ t c).trans hframes
  · exact held_setCall_other σ c hx

theorem Inv.giveBack (hσ : σ.Inv) (hc : σ.calls t = some c) (hi : c.creates = some i)
    (hok : SurfCall.Ok σ.shm.slots t (.fail i)) :
    ((σ.giveBack (SurfCall.frames (some c))).setCall t (some (.fail i))).Inv := by
  refine hσ.goOn (fun c₀ j hc₀ hj => ?_) (fun c₁ hc₁ => ?_) ?_
  · rw [hc] at hc₀
    cases hc₀
    exact ⟨.fail i, rfl, hi.symm.trans hj⟩
  · cases hc₁
    exact hok
  refine hσ.frames.drop (fun x => ?_) fun x f hf htaken => ?_
  · by_cases hx : x = .inr t
    · subst hx
      exact .inr (held_setCall_task _ t _)
    · exact .inl (held_setCall_other _ _ hx)
  rw [htaken, Bool.true_and, Bool.not_eq_true', decide_eq_false_iff_not]
  intro hmem
  have ht : f ∈ σ.held (.inr t) := by
    change f ∈ SurfCall.frames (σ.calls t)
    rw [hc]
    exact hmem
  by_cases hx : x = .inr t
  · subst hx
    rw [held_setCall_task] at hf
    cases hf
  · rw [held_setCall_other _ _ hx] at hf
    exact hx (hσ.frames.apart x (.inr t) f hf ht)

theorem still_creates {c₁ : SurfCall} (hc : σ.calls t = some c₀) (h₀ : c₀.creates = some i)
    (h₁ : c₁.creates = some i) (c : SurfCall) (j : Nat) (hcj : σ.calls t = some c)
    (hj : c.creates = some j) :
    ∃ c₂, some c₁ = some c₂ ∧ c₂.creates = some j := by
  rw [hc] at hcj
  cases hcj
  exact ⟨c₁, rfl, h₁.trans (h₀.symm.trans hj)⟩

section
variable (hσ : σ.Inv)
include hσ

theorem Inv.creates {c₁ : SurfCall} (hc : σ.calls t = some c₀)
    (h₀ : c₀.creates = some i) (h₁ : c₁.creates = some i)
    (hframes : SurfCall.frames (some c₁) = SurfCall.frames (some c₀)) (hok : c₁.Ok σ.shm.slots t) :
    (σ.setCall t (some c₁)).Inv := by
  refine hσ.setCall (still_creates hc h₀ h₁) (fun c hc₁ => ?_) (by rw [hc, hframes])
  cases hc₁
  exact hok

theorem Inv.createOom (t : Nat) : (σ.createOom t).Inv := by
  fun_cases Surf.createOom σ t
  next hc =>
    have hok := hσ.calls t _ hc
    exact hσ.creates hc rfl rfl rfl ⟨hok.1, hok.2.1, hok.2.2.1⟩
  · exact hσ

theorem Inv.createPage (t : Nat) (page : Option Nat) : (σ.createPage t page).Inv := by
  fun_cases Surf.createPage σ t page
  all_goals try exact hσ
  next hc _ =>
    have hok := hσ.calls t _ hc
    exact hσ.giveBack hc rfl ⟨hok.1, hok.2.1, hok.2.2.1⟩
  next pages hc _ f hfree =>
    have hok := hσ.calls t _ hc
    refine hσ.goOn (still_creates hc rfl rfl) (by rintro _ ⟨⟩; exact hok) ?_
    refine hσ.frames.grow (by simpa using hfree) ?_ (fun y hy => held_setCall_other _ _ hy) rfl
    rw [held_setCall_task]
    change pages ++ [f] = SurfCall.frames (σ.calls t) ++ [f]
    rw [hc]
    rfl
  next hc _ =>
    have hok := hσ.calls t _ hc
    exact hσ.creates hc rfl rfl rfl hok

theorem Inv.createPte (t : Nat) (ok : Bool) : (σ.createPte t ok).Inv := by
  fun_cases Surf.createPte σ t ok
  all_goals try exact hσ
  next hc _ _ _ =>
    have hok := hσ.calls t _ hc
    exact (hσ.withPte _).creates hc rfl rfl rfl hok
  next hc _ _ _ =>
    have hok := hσ.calls t _ hc
    exact hσ.creates hc rfl rfl rfl ⟨hok.1, hok.2.1, hok.2.2.1⟩

theorem Inv.createUndo (t : Nat) : (σ.createUndo t).Inv := by
  fun_cases Surf.createUndo σ t
  next hc _ =>
    have hok := hσ.calls t _ hc
    exact (hσ.withPte _).creates hc rfl rfl rfl hok
  next hc _ =>
    have hok := hσ.calls t _ hc
    exact hσ.giveBack hc rfl hok
  · exact hσ

theorem Inv.next {c : Option SurfCall} (hc : σ.calls t = some c₀)
    (hnow : c₀.creates = none) (hframes : SurfCall.frames (some c₀) = [])
    (hframes' : SurfCall.frames c = []) (hok : ∀ c₁, c = some c₁ → c₁.Ok σ.shm.slots t) :
    (σ.setCall t c).Inv := by
  refine hσ.setCall (fun c' j hc' hj => ?_) hok ?_
  · rw [hc] at hc'
    cases hc'
    cases hnow.symm.trans hj
  · rw [hc, hframes, hframes']

theorem Inv.mapPte (t : Nat) (ok : Bool) : (σ.mapPte t ok).Inv := by
  fun_cases Surf.mapPte σ t ok
  next hc _ => exact hσ.next hc rfl rfl rfl fun c₁ hc₁ => (nomatch hc₁)
  next hc _ _ _ =>
    have hok := hσ.calls t _ hc
    exact (hσ.withPte _).next hc rfl rfl rfl (by rintro _ ⟨⟩; exact hok)
  next hc _ _ _ =>
    have hok := hσ.calls t _ hc
    exact hσ.next hc rfl rfl rfl (by rintro _ ⟨⟩; exact ⟨hok.1, hok.2.1, hok.2.2.1⟩)
  · exact hσ

theorem Inv.unmapPte (t : Nat) : (σ.unmapPte t).Inv := by
  fun_cases Surf.unmapPte σ t
  next hc _ => exact (hσ.withPte _).next hc rfl rfl rfl (by rintro _ ⟨⟩; trivial)
  next hc _ => exact hσ.next hc rfl rfl rfl fun c₁ hc₁ => (nomatch hc₁)
  · exact hσ

theorem Inv.newTask (t : Nat) : (σ.newTask t).Inv := by
  fun_cases Surf.newTask σ t
  next hc =>
    have hself := setCall_self (σ := {σ with
      pte := fun t' => if t' = t then fun _ _ => none else σ.pte t'}) hc
    rw [hself]
    exact hσ.withPte _
  next hc => exact (hσ.withPte _).next hc rfl rfl rfl fun c₁ hc₁ => (nomatch hc₁)
  · exact hσ

end

/-! ### Creation -/

structure OneSlot (σ : Surf) (i : Nat) (σ' : Surf) : Prop where
  old : ∀ j, j ≠ i → σ'.shm.slots j = σ.shm.slots j
  oldPages : ∀ j, j ≠ i → σ'.pages j = σ.pages j
  before : ¬ (σ.shm.slots i).Live

variable {σ' : Surf} {valid : Bool} {s : Shm}

theorem OneSlot.live (h : OneSlot σ i σ') (hj : (σ.shm.slots j).Live) :
    (σ'.shm.slots j).Live ∧ σ'.pages j = σ.pages j := by
  have hji : j ≠ i := fun hji => h.before (hji ▸ hj)
  rw [h.old j hji]
  exact ⟨hj, h.oldPages j hji⟩

/-- A creation begins or ends in the slot. -/
structure Changes (σ : Surf) (i : Nat) (σ' : Surf) : Prop extends OneSlot σ i σ' where
  bound : i < kzShmMaxRes
  noPages : ¬ (σ'.shm.slots i).Live → σ'.pages i = []
  kept : (σ'.shm.slots i).Live → (σ'.shm.slots i).Kept
  creates : σ.creates ≤ σ'.creates
  gens : (σ'.shm.slots i).used = true → (σ'.shm.slots i).generation ≤ σ'.creates
  distinct : (σ'.shm.slots i).used = true → ∀ j, j ≠ i → (σ.shm.slots j).used = true →
    (σ.shm.slots j).generation ≠ (σ'.shm.slots i).generation
  pending : (σ'.shm.slots i).used = true → (σ'.shm.slots i).generation ∉ σ.installed
  installed : ∀ g, g ∈ σ'.installed ↔
    g ∈ σ.installed ∨ (σ'.shm.slots i).Live ∧ g = (σ'.shm.slots i).generation
  returned : σ'.returned = σ.returned
  noted : σ'.destroyed = σ.destroyed
  good : (σ'.shm.slots i).used = true → (σ'.shm.slots i).destroyed = false ∧
    ∀ h ∈ σ.destroyed, h.idx = i → (σ'.shm.slots i).generation ≠ h.gen

theorem Inv.changes (hσ : σ.Inv) (h : Changes σ i σ')
    (hfresh : ∀ j, (σ'.shm.slots j).used = true → (σ'.shm.slots j).creating = true →
      (σ'.shm.slots j).Fresh σ'.calls j)
    (hcalls : ∀ u c, σ'.calls u = some c → c.Ok σ'.shm.slots u)
    (hcounter : σ'.creates + 1 < 2 ^ 32 → σ'.shm.gen = σ'.creates + 1)
    (hframes : Held σ'.held σ'.taken) : σ'.Inv := by
  have hlive : ∀ j, (σ.shm.slots j).Live → j ≠ i := fun j hj hji => h.before (hji ▸ hj)
  refine ⟨fun j hj => ?_, fun j hj => ?_, fun j hj => ?_, hfresh, hcalls, hcounter, fun j hj => ?_,
    fun j k hj hk hjk => ?_, hframes, fun j hj => ?_, fun j hj hcr => ?_, fun g hg => ?_,
    fun g hg => ?_, fun g hg => ?_, fun x hx => ?_, fun j hj hd => ?_⟩
  · by_cases hji : j = i
    · exact hji ▸ h.bound
    · exact hσ.bound j (h.old j hji ▸ hj)
  · by_cases hji : j = i
    · subst hji
      exact h.noPages hj
    · rw [h.oldPages j hji]
      exact hσ.noPages j (h.old j hji ▸ hj)
  · by_cases hji : j = i
    · subst hji
      exact h.kept hj
    · rw [h.old j hji] at hj ⊢
      exact hσ.kept j hj
  · by_cases hji : j = i
    · subst hji
      exact h.gens hj
    · rw [h.old j hji] at hj ⊢
      exact (hσ.gens j hj).trans h.creates
  · by_cases hji : j = i <;> by_cases hki : k = i
    · rw [hji, hki]
    · subst hji
      rw [h.old k hki] at hk hjk
      exact absurd hjk.symm (h.distinct hj k hki hk)
    · subst hki
      rw [h.old j hji] at hj hjk
      exact absurd hjk (h.distinct hk j hji hj)
    · rw [h.old j hji] at hj hjk
      rw [h.old k hki] at hk hjk
      exact hσ.distinct j k hj hk hjk
  · rw [h.returned, h.installed]
    by_cases hji : j = i
    · subst hji
      exact ⟨.inr ⟨hj, rfl⟩, hσ.never _ (h.pending hj.used)⟩
    · rw [h.old j hji] at hj ⊢
      exact ⟨.inl (hσ.live j hj).1, (hσ.live j hj).2⟩
  · rw [h.installed]
    rintro (hmem | ⟨hl, hgen⟩)
    · by_cases hji : j = i
      · subst hji
        exact h.pending hj hmem
      · rw [h.old j hji] at hj hcr hmem
        exact hσ.pending j hj hcr hmem
    · by_cases hji : j = i
      · subst hji
        exact nomatch hl.creating.symm.trans hcr
      · rw [h.old j hji] at hj hgen
        exact h.distinct hl.used j hji hj hgen
  · rcases (h.installed g).mp hg with hmem | ⟨hl, rfl⟩
    · exact (hσ.past g hmem).trans h.creates
    · exact h.gens hl.used
  · rw [h.returned]
    rcases (h.installed g).mp hg with hmem | ⟨hl, rfl⟩
    · refine (hσ.once g hmem).imp_right fun ⟨j, hj, hgj⟩ => ⟨j, ?_⟩
      rw [h.old j (hlive j hj)]
      exact ⟨hj, hgj⟩
    · exact .inr ⟨i, hl, rfl⟩
  · rw [h.returned]
    exact hσ.never g fun hmem => hg ((h.installed g).mpr (.inl hmem))
  · rw [h.noted] at hx
    obtain ⟨hle, hnot⟩ := hσ.dead x hx
    refine ⟨hle.trans h.creates, fun ⟨hu, hg, hd⟩ => ?_⟩
    by_cases hji : x.idx = i
    · rw [hji] at hu hg
      exact (h.good hu).2 x hx hji hg
    · rw [h.old _ hji] at hu hg hd
      exact hnot ⟨hu, hg, hd⟩
  · rw [h.noted]
    by_cases hji : j = i
    · subst hji
      exact nomatch (h.good hj.used).1.symm.trans hd
    · rw [h.old j hji] at hj hd ⊢
      exact hσ.noted j hj hd

theorem createBegin_eq {s' : Shm}
    (h : s.createBegin t valid = (some i, s')) : i < kzShmMaxRes ∧ (s.slots i).used = false ∧
      s' = {s.set i {s.slots i with
            used := true, creating := true, published := false, destroyed := false,
            generation := if s.gen = 0 then 1 else s.gen, owner := t, maps := [], refs := []} with
          gen := ShmSlot.nextGen (if s.gen = 0 then 1 else s.gen)} := by
  revert h
  fun_cases Shm.createBegin s t valid <;> rintro ⟨⟩
  next hj =>
    have hfree : (s.slots i).used = false := by simpa using find?_some hj
    exact ⟨mem_range.mp (mem_of_find?_eq_some hj), hfree, rfl⟩

theorem createBegin_oneSlot
    (hbegin : σ.shm.createBegin t valid = (some i, s)) (c : Option SurfCall) :
    OneSlot σ i ({σ with shm := s, creates := σ.creates + 1}.setCall t c) := by
  obtain ⟨-, hfree, hs⟩ := createBegin_eq hbegin
  refine ⟨fun j hj => ?_, fun _ _ => rfl, fun hl => nomatch hfree.symm.trans hl.used⟩
  change s.slots j = _
  rw [hs]
  simp [Shm.set, update_of_ne hj]

theorem createBegin_not_live
    (hbegin : σ.shm.createBegin t valid = (some i, s)) : ¬ (s.slots i).Live := by
  obtain ⟨-, -, hs⟩ := createBegin_eq hbegin
  intro hl
  have hcr := hl.creating
  rw [hs] at hcr
  simp [Shm.set] at hcr

theorem not_live_of_creating (hcr : (σ.shm.slots i).creating = true) : ¬ (σ.shm.slots i).Live :=
  fun hl => nomatch hl.creating.symm.trans hcr

theorem createEnd_oneSlot (t width height : Nat) (ok : Bool) {pages : Nat → List Nat}
    (installed : List Nat) (hpages : ∀ j ≠ i, pages j = σ.pages j)
    (hcr : (σ.shm.slots i).creating = true) :
    OneSlot σ i (({σ with
      shm := σ.shm.createEnd t i width height ok
      pages := pages
      installed := installed} : Surf).setCall t none) := by
  refine ⟨fun j hj => ?_, hpages, not_live_of_creating hcr⟩
  change (σ.shm.createEnd t i width height ok).slots j = _
  cases ok <;> simp [Shm.createEnd, Shm.set, update_of_ne hj]

/-- A creation of task `t` has started in slot `i`. -/
structure Begun (σ : Surf) (t i : Nat) (s : Shm) : Prop where
  bound : i < kzShmMaxRes
  free : (σ.shm.slots i).used = false
  new : s.slots i = {σ.shm.slots i with
    used := true, creating := true, published := false, destroyed := false,
    generation := σ.creates + 1, owner := t, maps := [], refs := []}
  old : ∀ j, j ≠ i → s.slots j = σ.shm.slots j

namespace Begun

variable {j : Nat} {i : Nat} {s : Shm}

theorem ne_of_used (h : Begun σ t i s) (hj : (σ.shm.slots j).used = true) : j ≠ i := by
  rintro rfl
  exact nomatch h.free.symm.trans hj

theorem fresh (h : Begun σ t i s) (hσ : σ.Inv) (hidle : σ.calls t = none) {c : SurfCall}
    (hc : c.creates = some i) (hj : (s.slots j).used = true) (hcr : (s.slots j).creating = true) :
    (s.slots j).Fresh (σ.setCall t (some c)).calls j := by
  by_cases hji : j = i
  · subst hji
    rw [h.new]
    exact ⟨rfl, rfl, rfl, rfl, c, update_self .., hc⟩
  rw [h.old j hji] at hj hcr ⊢
  exact fresh_setCall (hσ.fresh j hj hcr) fun c₀ hc₀ => nomatch hidle.symm.trans hc₀

end Begun

section
variable (hσ : σ.Inv)
include hσ

theorem Inv.createBegin {valid : Bool} {n width height : Nat} (hidle : σ.calls t = none)
    (hlt : (σ.createBegin t valid n width height).creates < 2 ^ 32) :
    (σ.createBegin t valid n width height).Inv := by
  revert hlt
  unfold Surf.createBegin
  split
  · exact fun _ => hσ
  rename_i i s hbegin
  intro hlt
  obtain ⟨hi, hfree, hs⟩ := createBegin_eq hbegin
  have hlt : σ.creates + 1 < 2 ^ 32 := hlt
  have hgen := hσ.counter hlt
  have hgen0 : (if σ.shm.gen = 0 then 1 else σ.shm.gen) = σ.creates + 1 := by
    rw [hgen]
    simp
  rw [hgen0] at hs
  have hb : Begun σ t i s := by
    refine ⟨hi, hfree, ?_, (createBegin_oneSlot hbegin none).old⟩
    rw [hs]
    simp [Shm.set]
  have hlive := createBegin_not_live hbegin
  have hnew : (s.slots i).generation = σ.creates + 1 := by rw [hb.new]
  have hone := createBegin_oneSlot hbegin (some (.alloc i (s.slots i).generation n width height []))
  refine hσ.changes ⟨hone, hi, fun _ => hσ.noPages i hone.before,
    fun hl => absurd hl hlive, Nat.le_succ _, fun _ => hnew.le, fun _ j _ hj heq => ?_,
    fun _ hmem => ?_, fun g => ⟨.inl, fun h => h.resolve_right fun h => hlive h.1⟩, rfl, rfl,
    fun _ => ⟨?_, fun h hh _ heq => ?_⟩⟩ (fun j hj hcr => hb.fresh hσ hidle rfl hj hcr)
    (forall_setCall ?_ fun u c _ hc => (hσ.calls u c hc).congr fun j hj _ => hb.old j (hb.ne_of_used hj))
    (fun hlt' => ?_) ?_
  · have hle := hσ.gens j hj
    have heq := heq.trans hnew
    omega
  · have hle := hσ.past _ hmem
    have hnew := hnew.symm.trans_le hle
    omega
  · change (s.slots i).destroyed = false
    rw [hb.new]
  · have hle := (hσ.dead h hh).1
    have heq := hnew.symm.trans heq
    omega
  · rintro _ ⟨⟩
    change SurfCall.Ok s.slots t _
    refine ⟨?_, ?_, ?_, rfl⟩ <;> rw [hb.new]
  · change s.gen = σ.creates + 1 + 1
    have hlt' : σ.creates + 1 + 1 < 2 ^ 32 := hlt'
    rw [hs]
    change ShmSlot.nextGen (σ.creates + 1) = _
    rw [ShmSlot.nextGen, Nat.mod_eq_of_lt hlt', if_neg (by omega)]
  · refine hσ.frames.drop (fun x => .inl ?_) fun _ _ _ h => h
    rcases x with j | u
    · rfl
    by_cases hut : u = t
    · subst hut
      rw [held_setCall_task]
      change [] = SurfCall.frames (σ.calls u)
      rw [hidle]
      rfl
    · exact held_setCall_other _ _ fun h => hut (by cases h; rfl)

variable {slots : Nat → ShmSlot}

theorem Inv.ok_other {u : Nat}
    (hcr : (σ.shm.slots i).creating = true) (hown : (σ.shm.slots i).owner = t) (hut : u ≠ t)
    (hold : ∀ j ≠ i, slots j = σ.shm.slots j) (hc : σ.calls u = some c) : c.Ok slots u := by
  refine (hσ.calls u c hc).congr fun j _ hj => hold j ?_
  rintro rfl
  exact hut ((hj hcr).symm.trans hown)

theorem Inv.fresh_other (hc : σ.calls t = some c₀) (hi : c₀.creates = some i)
    (hji : j ≠ i) (hj : (σ.shm.slots j).used = true) (hcr : (σ.shm.slots j).creating = true) :
    (σ.shm.slots j).Fresh (σ.setCall t none).calls j := by
  refine fresh_setCall (hσ.fresh j hj hcr) fun c hc' hcj => hji ?_
  obtain rfl := Option.some.inj (hc.symm.trans hc')
  exact Option.some.inj (hcj.symm.trans hi)

theorem Inv.ok_done (hcr : (σ.shm.slots i).creating = true)
    (hown : (σ.shm.slots i).owner = t) (hold : ∀ j ≠ i, slots j = σ.shm.slots j) :
    ∀ u c, (σ.setCall t none).calls u = some c → c.Ok slots u :=
  forall_setCall nofun fun _ _ hut hc => hσ.ok_other hcr hown hut hold hc

theorem Inv.createDone {gen width height k : Nat} {pages : List Nat}
    (hc : σ.calls t = some (.enter i gen width height pages k)) :
    (({σ with
        shm := σ.shm.createEnd t i width height true
        pages := update σ.pages i pages
        installed := gen :: σ.installed} : Surf).setCall t none).Inv := by
  obtain ⟨hused, hcr, hown, rfl⟩ := hσ.calls t _ hc
  obtain ⟨hmaps, hrefs, hdes, -, -⟩ := hσ.fresh i hused hcr
  have hone := createEnd_oneSlot t width height true ((σ.shm.slots i).generation :: σ.installed)
    (fun j hj => update_of_ne hj pages σ.pages) hcr
  obtain ⟨s, hs⟩ : ∃ s, s = σ.shm.createEnd t i width height true := ⟨_, rfl⟩
  rw [← hs] at hone ⊢
  have hnew : s.slots i = {σ.shm.slots i with
      width := width, height := height, creating := false, maps := [t]} := by
    rw [hs]
    simp [Shm.createEnd, Shm.set]
  have hold : ∀ j ≠ i, s.slots j = σ.shm.slots j := hone.old
  have hgen : (s.slots i).generation = (σ.shm.slots i).generation := by rw [hnew]
  have hlive : (s.slots i).Live := by
    rw [hnew]
    exact ⟨hused, rfl⟩
  refine hσ.changes ⟨hone, hσ.bound i hused, absurd hlive, fun _ => ?_, le_rfl,
    fun _ => hgen ▸ hσ.gens i hused, fun _ j hji hj heq => ?_, fun _ => hgen ▸ hσ.pending i hused hcr,
    fun g => ?_, rfl, rfl, fun _ => ⟨?_, fun h hh hi heq => ?_⟩⟩ (fun j hj hcrj => ?_)
    (hσ.ok_done hcr hown hold) (fun hlt => ?_) ?_
  · change (s.slots i).Kept
    rw [hnew]
    refine ⟨fun h => (by cases h.2.1), fun u hu => .inl ?_⟩
    rcases hu with hu | hu
    · exact (mem_singleton.mp hu).trans hown.symm
    · rw [show (σ.shm.slots i).refs = [] from hrefs] at hu
      cases hu
  · exact hji (hσ.distinct j i hj hused (heq.trans hgen))
  · change g ∈ (σ.shm.slots i).generation :: σ.installed ↔
      g ∈ σ.installed ∨ (s.slots i).Live ∧ g = (s.slots i).generation
    rw [mem_cons, hgen, or_comm]
    exact or_congr_right (and_iff_right hlive).symm
  · change (s.slots i).destroyed = false
    rw [hnew]
    exact hdes
  · refine (hσ.dead h hh).2 ?_
    rw [hi]
    exact ⟨hused, hgen.symm.trans heq, hdes⟩
  · change (s.slots j).used = true at hj
    change (s.slots j).creating = true at hcrj
    change (s.slots j).Fresh (σ.setCall t none).calls j
    have hji : j ≠ i := by
      rintro rfl
      cases hlive.creating.symm.trans hcrj
    rw [hold j hji] at hj hcrj ⊢
    exact hσ.fresh_other hc rfl hji hj hcrj
  · rw [hs]
    exact hσ.counter hlt
  · refine hσ.frames.move (x := .inr t) (y := .inl i) (fun h => by cases h) ?_ (held_setCall_task ..)
      fun z hzx hzy => ?_
    · change update σ.pages i pages i = SurfCall.frames (σ.calls t)
      rw [update_self, hc]
      rfl
    · rw [held_setCall_other _ _ hzx]
      rcases z with j | u
      · exact update_of_ne (fun h => hzy (by rw [h])) ..
      · rfl

theorem Inv.createFailed (hc : σ.calls t = some (.fail i)) :
    (({σ with shm := σ.shm.createEnd t i 0 0 false} : Surf).setCall t none).Inv := by
  obtain ⟨hused, hcr, hown⟩ := hσ.calls t _ hc
  have hone := createEnd_oneSlot t 0 0 false σ.installed (fun _ _ => rfl) hcr
  obtain ⟨s, hs⟩ : ∃ s, s = σ.shm.createEnd t i 0 0 false := ⟨_, rfl⟩
  rw [← hs] at hone ⊢
  have hnew : (s.slots i).used ≠ true := by
    rw [hs]
    simp [Shm.createEnd, Shm.set]
  have hold : ∀ j ≠ i, s.slots j = σ.shm.slots j := hone.old
  refine hσ.changes ⟨hone, hσ.bound i hused, fun _ => hσ.noPages i hone.before,
    fun hl => absurd hl.used hnew, le_rfl, fun h => absurd h hnew, fun h => absurd h hnew,
    fun h => absurd h hnew, fun g => ⟨.inl, fun h => h.resolve_right fun h => hnew h.1.used⟩,
    rfl, rfl, fun h => absurd h hnew⟩ (fun j hj hcrj => ?_) (hσ.ok_done hcr hown hold)
    (fun hlt => ?_) ?_
  · change (s.slots j).used = true at hj
    change (s.slots j).creating = true at hcrj
    change (s.slots j).Fresh (σ.setCall t none).calls j
    have hji : j ≠ i := fun h => hnew (h ▸ hj)
    rw [hold j hji] at hj hcrj ⊢
    exact hσ.fresh_other hc rfl hji hj hcrj
  · rw [hs]
    exact hσ.counter hlt
  · refine hσ.frames.drop (fun x => ?_) fun _ _ _ h => h
    by_cases hx : x = .inr t
    · subst hx
      exact .inr (held_setCall_task ..)
    · exact .inl (held_setCall_other _ _ hx)

theorem Inv.createEnd (t : Nat) : (σ.createEnd t).Inv := by
  fun_cases Surf.createEnd σ t
  all_goals try exact hσ
  next hc _ => exact hσ.createDone hc
  next hc => exact hσ.createFailed hc

end

/-! ### The sections of the other calls -/

theorem Inv.live_of_owner (hσ : σ.Inv) (hidle : σ.calls t = none)
    (hused : (σ.shm.slots i).used = true) (hown : (σ.shm.slots i).owner = t) :
    (σ.shm.slots i).Live := by
  refine ⟨hused, ?_⟩
  by_contra hcr
  obtain ⟨-, -, -, -, c, hc, -⟩ := hσ.fresh i hused (by simpa using hcr)
  rw [hown, hidle] at hc
  cases hc

theorem Inv.live_of_entry (hσ : σ.Inv) (hused : (σ.shm.slots i).used = true)
    (hmem : t ∈ (σ.shm.slots i).maps ∨ t ∈ (σ.shm.slots i).refs) : (σ.shm.slots i).Live := by
  refine ⟨hused, ?_⟩
  by_contra hcr
  obtain ⟨hmaps, hrefs, -, -, -⟩ := hσ.fresh i hused (by simpa using hcr)
  rw [hmaps, hrefs] at hmem
  rcases hmem with hmem | hmem <;> cases hmem

theorem Inv.edit (hσ : σ.Inv) (hl : (σ.shm.slots i).Live) :
    ShmSlot.Edit t (σ.shm.slots i) (σ.shm.slots i) :=
  .refl hl (hσ.kept i hl) t

theorem sect_refl (t : Nat) (s : Shm) (i : Nat) : (s.slots i).Sect t (s.slots i) := .inl rfl

section
variable (hσ : σ.Inv)
include hσ

theorem sect_map (h : ShmHandle) (write : Bool) (i : Nat) :
    (σ.shm.slots i).Sect t ((σ.shm.map t h write).2.slots i) := by
  fun_cases Shm.map
  all_goals try exact sect_refl ..
  rename_i j hl _ hcr _ hperm _
  obtain ⟨hlu, -⟩ := Shm.lookup_ok hl
  obtain ⟨-, -, hused, -⟩ := Shm.lookupUnmap_ok hlu
  have hlive : (σ.shm.slots j).Live := ⟨hused, by simpa using hcr⟩
  refine Shm.sect_set (ShmSlot.Mild.sect ?_ hlive) i
  have hedit : ShmSlot.Edit t (σ.shm.slots j)
      {σ.shm.slots j with maps := (σ.shm.slots j).maps ++ [t]} := by
    refine ⟨⟨hused, hlive.creating⟩, rfl, rfl, id, id, fun u hu => ?_,
      fun u _ hu => mem_append.mpr (.inl hu), fun u hne hu => ?_⟩
    on_goal 2 =>
      exact (mem_append.mp hu).resolve_right fun h => hne (mem_singleton.mp h)
    rcases hu with hu | hu
    · rcases mem_append.mp hu with hu | hu
      · exact (hσ.kept j hlive).permitted u (.inl hu)
      · rw [mem_singleton.mp hu]
        by_contra hnot
        push Not at hnot
        exact hperm ⟨hnot.1, .inl (by simpa using hnot.2)⟩
    · exact (hσ.kept j hlive).permitted u (.inr hu)
  exact hedit.mild fun hbad => by simp at hbad

theorem sect_unmap (j i : Nat) : (σ.shm.slots i).Sect t ((σ.shm.unmap t j).2.slots i) := by
  fun_cases Shm.unmap
  all_goals try exact sect_refl ..
  rename_i hl hmem
  obtain ⟨-, -, hused, -⟩ := Shm.lookupUnmap_ok hl
  have hlive := hσ.live_of_entry hused (.inl (not_not.mp hmem))
  exact Shm.sect_set ((hσ.edit hlive).delMap.maybeFree.sect hlive) i

theorem sect_mapFail {gen k m : Nat} (hc : σ.calls t = some (.unmapAll j gen k m))
    (i : Nat) : (σ.shm.slots i).Sect t ((σ.shm.mapFail t j).slots i) := by
  have hlive := (hσ.calls t _ hc).1
  exact sect_set ((hσ.edit hlive).delMap.maybeFree.sect hlive) i

section
variable (hidle : σ.calls t = none) (h : ShmHandle)
include hidle h

theorem sect_publish (x y w hh : Int)
    (i : Nat) : (σ.shm.slots i).Sect t ((σ.shm.publish t h x y w hh).2.slots i) := by
  fun_cases publish
  all_goals try exact sect_refl ..
  rename_i j hl hown _ _
  obtain ⟨-, -, hused, -⟩ := lookupUnmap_ok (lookup_ok hl).1
  have hlive := hσ.live_of_owner hidle hused (Eq.symm (not_not.mp hown))
  refine sect_set (ShmSlot.Mild.sect ?_ hlive) i
  have hedit : ShmSlot.Edit t (σ.shm.slots j) {σ.shm.slots j with published := true} :=
    ⟨⟨hused, hlive.creating⟩, rfl, rfl, fun _ => rfl, id, fun _ _ => .inr rfl, fun _ _ hu => hu,
      fun _ _ hu => hu⟩
  exact hedit.mild (hσ.kept j hlive).retained

theorem sect_destroy (i : Nat) : (σ.shm.slots i).Sect t ((σ.shm.destroy t h).2.slots i) := by
  fun_cases destroy
  all_goals try exact sect_refl ..
  rename_i hl hown
  obtain ⟨-, -, hused, -⟩ := lookupUnmap_ok (lookup_ok hl).1
  have hlive := hσ.live_of_owner hidle hused (Eq.symm (not_not.mp hown))
  exact sect_set ((hσ.edit hlive).destroy.maybeFree.sect hlive) i

theorem sect_acquire (i : Nat) : (σ.shm.slots i).Sect t ((σ.shm.acquire t h).2.slots i) := by
  fun_cases acquire
  all_goals try exact sect_refl ..
  rename_i j hl hperm _
  obtain ⟨hlu, hdes⟩ := lookup_ok hl
  obtain ⟨-, -, hused, -⟩ := lookupUnmap_ok hlu
  have hlive : (σ.shm.slots j).Live := by
    refine ⟨hused, ?_⟩
    by_contra hcr
    obtain ⟨-, -, -, hpub, c, hc, -⟩ := hσ.fresh j hused (by simpa using hcr)
    refine hperm ⟨fun hown => ?_, hpub⟩
    rw [← hown, hidle] at hc
    cases hc
  refine sect_set (ShmSlot.Mild.sect ?_ hlive) i
  have hedit : ShmSlot.Edit t (σ.shm.slots j)
      {σ.shm.slots j with refs := (σ.shm.slots j).refs ++ [t]} := by
    refine ⟨⟨hused, hlive.creating⟩, rfl, rfl, id, id, fun u hu => ?_, fun _ _ hu => hu,
      fun _ _ hu => hu⟩
    rcases hu with hu | hu
    · exact (hσ.kept j hlive).permitted u (.inl hu)
    rcases mem_append.mp hu with hu | hu
    · exact (hσ.kept j hlive).permitted u (.inr hu)
    · rw [mem_singleton.mp hu]
      by_contra hnot
      push Not at hnot
      exact hperm ⟨hnot.1, by simpa using hnot.2⟩
  exact hedit.mild fun hbad => by simp at hbad

end

theorem sect_release (h : ShmHandle) (i : Nat) :
    (σ.shm.slots i).Sect t ((σ.shm.release t h).2.slots i) := by
  fun_cases release
  all_goals try exact sect_refl ..
  rename_i hl hmem
  obtain ⟨-, -, hused, -⟩ := lookupUnmap_ok hl
  have hlive := hσ.live_of_entry hused (.inr (not_not.mp hmem))
  exact sect_set ((hσ.edit hlive).delRef.maybeFree.sect hlive) i

theorem sect_taskExit (hidle : σ.calls t = none) (i : Nat) :
    (σ.shm.slots i).Sect t ((σ.shm.taskExit t).slots i) := by
  simp only [Shm.taskExit]
  split
  · refine ShmSlot.sect_taskExit (hσ.kept i) fun hused hcr => ?_
    obtain ⟨hmaps, hrefs, hdes, -, c, hc, -⟩ := hσ.fresh i hused hcr
    refine ⟨hmaps, hrefs, hdes, fun hown => ?_⟩
    rw [hown, hidle] at hc
    cases hc
  · exact .inl rfl

end

end Surf

end Kyuzen.Mm
