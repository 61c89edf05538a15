import Kyuzen.Mm.SurfaceOps

/-!
The lifetime of shared surfaces over whole runs. A resource keeps its pages until
it is destroyed and nobody maps or references it; then they go back, once. Its
handle is good until it is destroyed and never after, and until it is published
only the owner has it.
-/

namespace Kyuzen.Mm

open Function Shm

namespace Surf

variable {s : Shm} {h : ShmHandle} {i : Nat} {c : Option SurfCall}

variable {σ : Surf} {t : Nat} {op : SurfOp}

/-- An entry that a step of the surfaces sets belongs to the owner, or it is read
only and the resource published. -/
def EntriesPermitted (σ σ' : Surf) : Prop :=
  ∀ u i k f w, σ'.pte u i k = some (f, w) → σ'.pte u i k ≠ σ.pte u i k →
    u = (σ.shm.slots i).owner ∨ (σ.shm.slots i).published = true ∧ w = false

/-- A step outside of the sections that give pages back. -/
structure Between (σ : Surf) (t : Nat) (σ' : Surf) : Prop where
  inv : σ'.Inv
  returned : σ'.returned = σ.returned
  taken : ∀ f, σ.taken f = true → σ'.taken f = false → f ∈ SurfCall.frames (σ.calls t)

/-- A section that may give pages back. -/
structure Within (σ : Surf) (t : Nat) (σ' : Surf) : Prop where
  inv : σ'.Inv
  sect : ∃ s c, σ' = (σ.sect s).setCall t c ∧ ∀ i, (σ.shm.slots i).Sect t (s.slots i)

theorem EntriesPermitted.of_eq {σ' : Surf} (h : σ'.pte = σ.pte) : EntriesPermitted σ σ' :=
  fun u i k f w _ hne => absurd (by rw [h]) hne

theorem EntriesPermitted.setPte {k : Nat} {e : Option (Nat × Bool)} (h : ∀ f w, e = some (f, w) →
      t = (σ.shm.slots i).owner ∨ (σ.shm.slots i).published = true ∧ w = false) :
    EntriesPermitted σ ((σ.setPte t i k e).setCall t c) := by
  intro u j m f w hnew hne
  change (if u = t ∧ j = i ∧ m = k then e else σ.pte u j m) = some (f, w) at hnew
  change (if u = t ∧ j = i ∧ m = k then e else σ.pte u j m) ≠ σ.pte u j m at hne
  split at hnew
  next heq =>
    obtain ⟨rfl, rfl, rfl⟩ := heq
    exact h f w hnew
  next hother =>
    rw [if_neg hother] at hne
    exact absurd rfl hne

theorem Between.still {σ' : Surf} (hinv : σ'.Inv)
    (hsame : σ'.returned = σ.returned ∧ σ'.taken = σ.taken) : Between σ t σ' :=
  ⟨hinv, hsame.1, fun f h h' => by rw [hsame.2, h] at h'; cases h'⟩

section
variable (hσ : σ.Inv) (hidle : σ.calls t = none) (hgen : s.gen = σ.shm.gen)
  (hs : ∀ i, (σ.shm.slots i).Sect t (s.slots i))
include hσ hidle hgen hs

theorem Within.idle (hframes : SurfCall.frames c = []) (hok : ∀ c', c = some c' → c'.Ok s.slots t) :
    Within σ t ((σ.sect s).setCall t c) :=
  ⟨hσ.sect hgen hs (fun c₀ h₀ => by rw [hidle] at h₀; cases h₀) hframes hok,
    s, c, rfl, hs⟩

/-- A section of an idle task that stays idle. -/
theorem Within.idle_none : Within σ t (σ.sect s) := by
  have h := Within.idle hσ hidle hgen hs (c := none) rfl fun c' hc' => (nomatch hc')
  rwa [setCall_self (c := none) (show (σ.sect s).calls t = none from hidle)] at h

end

/-! ### The frames of a creation -/

theorem mem_of_giveBack {f : Nat} {pages : List Nat} (h : σ.taken f = true)
    (h' : (σ.giveBack pages).taken f = false) : f ∈ pages := by
  change (σ.taken f && !decide (f ∈ pages)) = false at h'
  rw [h, Bool.true_and] at h'
  simpa using h'

theorem createPage_between (hσ : σ.Inv) (page : Option Nat) : Between σ t (σ.createPage t page) := by
  have hinv := hσ.createPage t page
  revert hinv
  fun_cases createPage σ t page <;> intro hinv
  all_goals try exact .still hinv ⟨rfl, rfl⟩
  next hc _ => exact ⟨hinv, rfl, fun f h h' => hc ▸ mem_of_giveBack h h'⟩
  next g _ =>
    refine ⟨hinv, rfl, fun f h h' => ?_⟩
    change update σ.taken g true f = false at h'
    by_cases hfg : f = g
    · rw [hfg, update_self] at h'
      cases h'
    · rw [update_of_ne hfg, h] at h'
      cases h'

theorem createUndo_between (hσ : σ.Inv) : Between σ t (σ.createUndo t) := by
  have hinv := hσ.createUndo t
  revert hinv
  fun_cases createUndo σ t <;> intro hinv
  all_goals try exact .still hinv ⟨rfl, rfl⟩
  next hc _ => exact ⟨hinv, rfl, fun f h h' => hc ▸ mem_of_giveBack h h'⟩

/-! ### Every step -/

/-- The record that the first section of `kz_shm_map` adds. -/
theorem map_ok {write : Bool} (hmap : σ.shm.map t h write = (some i, s))
    (hnew : t ∉ (σ.shm.slots i).maps) :
    s.gen = σ.shm.gen ∧ SurfCall.Ok s.slots t (.map i h.gen write 0) := by
  revert hmap
  fun_cases Shm.map σ.shm t h write <;> rintro ⟨⟩
  next hmem => exact absurd hmem hnew
  next hl _ hcr _ hperm _ =>
    obtain ⟨-, -, hused, hgen⟩ := Shm.lookupUnmap_ok (Shm.lookup_ok hl).1
    refine ⟨rfl, ⟨?_, ?_⟩, ?_, ?_, ?_⟩ <;> simp only [Shm.set, update_self]
    · exact hused
    · simpa using hcr
    · simp
    · exact hgen
    · by_contra hnot
      push Not at hnot
      refine hperm ⟨hnot.1, ?_⟩
      by_contra hboth
      push Not at hboth
      exact hboth.2 (by simpa using hnot.2 (by simpa using hboth.1))

theorem mapBegin_cases (hσ : σ.Inv) (hidle : σ.calls t = none) (h : ShmHandle) (write : Bool) :
    Between σ t (σ.mapBegin t h write) ∨ Within σ t (σ.mapBegin t h write) := by
  have hs := sect_map (t := t) hσ h write
  unfold mapBegin
  split
  · exact .inl (.still hσ ⟨rfl, rfl⟩)
  rename_i i s hmap
  rw [hmap] at hs
  split
  · exact .inl (.still hσ ⟨rfl, rfl⟩)
  next hnew =>
    obtain ⟨hgen, hok⟩ := map_ok hmap hnew
    refine .inr (.idle hσ hidle hgen hs rfl fun c' hc' => ?_)
    cases hc'
    exact hok

theorem mapUndo_cases (hσ : σ.Inv) : Between σ t (σ.mapUndo t) ∨ Within σ t (σ.mapUndo t) := by
  unfold mapUndo
  split
  next i gen k j hc =>
    have hok := hσ.calls t _ hc
    split
    · refine .inl (.still ?_ ⟨rfl, rfl⟩)
      refine (hσ.withPte _).next hc rfl rfl rfl fun c₁ hc₁ => ?_
      cases hc₁
      exact hok
    · have hs := sect_mapFail hσ hc
      refine .inr ⟨hσ.sect rfl hs (fun c₀ h₀ => ?_) rfl fun c' hc' => (nomatch hc'),
        _, _, rfl, hs⟩
      rw [hc] at h₀
      cases h₀
      rfl
  · exact .inl (.still hσ ⟨rfl, rfl⟩)

theorem unmap_gen (s : Shm) (t i : Nat) : (s.unmap t i).2.gen = s.gen := by
  unfold unmap
  repeat' split
  all_goals rfl

theorem unmapBegin_cases (hσ : σ.Inv) (hidle : σ.calls t = none) (i : Nat) :
    Between σ t (σ.unmapBegin t i) ∨ Within σ t (σ.unmapBegin t i) := by
  unfold unmapBegin
  dsimp only
  split
  · refine .inr (.idle hσ hidle (unmap_gen ..) (sect_unmap hσ i) rfl fun c' hc' => ?_)
    cases hc'
    trivial
  · exact .inl (.still hσ ⟨rfl, rfl⟩)

section
variable (s) (t)

theorem publish_gen (h : ShmHandle) (x y w hh : Int) : (s.publish t h x y w hh).2.gen = s.gen := by
  unfold publish
  repeat' split
  all_goals rfl

theorem destroy_gen (h : ShmHandle) : (s.destroy t h).2.gen = s.gen := by
  unfold destroy
  repeat' split
  all_goals rfl

theorem acquire_gen (h : ShmHandle) : (s.acquire t h).2.gen = s.gen := by
  unfold acquire
  repeat' split
  all_goals rfl

theorem release_gen (h : ShmHandle) : (s.release t h).2.gen = s.gen := by
  unfold release
  repeat' split
  all_goals rfl

end

def keepsFrames : SurfOp → Bool
  | .createBegin .. | .createOom | .createPte _ | .createEnd | .mapPte _ | .unmapPte
  | .newTask => true
  | _ => false

theorem exec_still (σ : Surf) (t : Nat) (op : SurfOp) (hop : keepsFrames op = true) :
    (σ.exec t op).returned = σ.returned ∧ (σ.exec t op).taken = σ.taken := by
  unfold exec
  split
  · exact ⟨rfl, rfl⟩
  cases op with
  | createBegin | createOom | createPte | createEnd | mapPte | unmapPte | newTask =>
    dsimp only [createBegin, createOom, createPte, createEnd, mapPte, unmapPte, newTask]
    repeat' split
    all_goals exact ⟨rfl, rfl⟩
  | _ => exact nomatch hop

theorem exec_cases (hσ : σ.Inv) (hlt : (σ.exec t op).creates < 2 ^ 32) :
    Between σ t (σ.exec t op) ∨ Within σ t (σ.exec t op) := by
  have hstill := exec_still σ t op
  revert hlt hstill
  unfold exec
  split
  · exact fun _ _ => .inl (.still hσ ⟨rfl, rfl⟩)
  rename_i hgo
  have hidle := not_and_not_right.mp hgo
  cases op with
  | createBegin valid n width height =>
    exact fun hlt hstill => .inl (.still (hσ.createBegin (hidle rfl) hlt) (hstill rfl))
  | createOom => exact fun _ hstill => .inl (.still (hσ.createOom t) (hstill rfl))
  | createPage page => exact fun _ _ => .inl (createPage_between hσ page)
  | createPte ok => exact fun _ hstill => .inl (.still (hσ.createPte t ok) (hstill rfl))
  | createUndo => exact fun _ _ => .inl (createUndo_between hσ)
  | createEnd => exact fun _ hstill => .inl (.still (hσ.createEnd t) (hstill rfl))
  | mapBegin h write => exact fun _ _ => mapBegin_cases hσ (hidle rfl) h write
  | mapPte ok => exact fun _ hstill => .inl (.still (hσ.mapPte t ok) (hstill rfl))
  | mapUndo => exact fun _ _ => mapUndo_cases hσ
  | unmapBegin i => exact fun _ _ => unmapBegin_cases hσ (hidle rfl) i
  | unmapPte => exact fun _ hstill => .inl (.still (hσ.unmapPte t) (hstill rfl))
  | publish h x y w hh =>
    exact fun _ _ => .inr (.idle_none hσ (hidle rfl) (publish_gen ..)
      (sect_publish hσ (hidle rfl) h x y w hh))
  | destroy h =>
    exact fun _ _ => .inr (.idle_none hσ (hidle rfl) (destroy_gen ..)
      (sect_destroy hσ (hidle rfl) h))
  | acquire h =>
    exact fun _ _ => .inr (.idle_none hσ (hidle rfl) (acquire_gen ..)
      (sect_acquire hσ (hidle rfl) h))
  | release h =>
    exact fun _ _ => .inr (.idle_none hσ (hidle rfl) (release_gen ..) (sect_release hσ h))
  | stat h => exact fun _ _ => .inl (.still hσ ⟨rfl, rfl⟩)
  | taskExit =>
    refine fun _ _ => .inr (.idle hσ (hidle rfl) rfl (sect_taskExit hσ (hidle rfl)) rfl
      fun c' hc' => ?_)
    cases hc'
    trivial
  | newTask => exact fun _ hstill => .inl (.still (hσ.newTask t) (hstill rfl))
  | replaceSpace window => exact fun _ _ => .inl (.still (hσ.withPte _) ⟨rfl, rfl⟩)

/-! ### Page table entries -/

theorem createPte_entries (hσ : σ.Inv) (ok : Bool) : EntriesPermitted σ (σ.createPte t ok) := by
  fun_cases createPte σ t ok
  all_goals try exact .of_eq rfl
  next hc _ _ _ => exact .setPte fun _ _ _ => .inl (hσ.calls t _ hc).2.2.1.symm

theorem mapPte_entries (hσ : σ.Inv) (ok : Bool) : EntriesPermitted σ (σ.mapPte t ok) := by
  fun_cases mapPte σ t ok
  all_goals try exact .of_eq rfl
  next hc _ _ _ =>
    obtain ⟨-, -, -, hperm⟩ := hσ.calls t _ hc
    refine .setPte fun f w heq => hperm.imp_right fun hro => ⟨hro.1, ?_⟩
    cases heq
    rw [hro.2, Bool.and_false]

theorem exec_entries (hσ : σ.Inv) (hop : ∀ window, op ≠ .replaceSpace window) :
    EntriesPermitted σ (σ.exec t op) := by
  have hclear : ∀ i k c, EntriesPermitted σ ((σ.setPte t i k none).setCall t c) :=
    fun i k c => .setPte fun f w heq => (nomatch heq)
  unfold exec
  split
  · exact .of_eq rfl
  cases op with
  | createPte ok => exact createPte_entries hσ ok
  | mapPte ok => exact mapPte_entries hσ ok
  | createUndo | mapUndo | unmapPte =>
    dsimp only [createUndo, mapUndo, unmapPte]
    repeat' split
    all_goals first | exact hclear _ _ _ | exact .of_eq rfl
  | newTask =>
    dsimp only
    fun_cases newTask
    case case3 => exact .of_eq rfl
    all_goals
      intro u i k f w hnew hne
      change (if u = t then fun _ _ => none else σ.pte u) i k = some (f, w) at hnew
      change (if u = t then fun _ _ => none else σ.pte u) i k ≠ σ.pte u i k at hne
      split at hnew
      · cases hnew
      next hut =>
        rw [if_neg hut] at hne
        exact absurd rfl hne
  | replaceSpace window => exact absurd rfl (hop window)
  | createBegin | createOom | createPage | createEnd | mapBegin | unmapBegin =>
    dsimp only [createBegin, createOom, createPage, createEnd, mapBegin, unmapBegin]
    repeat' split
    all_goals exact .of_eq rfl
  | publish | destroy | acquire | release | stat | taskExit => exact .of_eq rfl

theorem creates_exec (σ : Surf) (t : Nat) (op : SurfOp) : σ.creates ≤ (σ.exec t op).creates := by
  unfold exec
  split
  · exact le_rfl
  cases op <;>
    dsimp only [createBegin, createOom, createPage, createPte, createUndo, createEnd, mapBegin,
      mapPte, mapUndo, unmapBegin, unmapPte, taskExit, newTask, replaceSpace, sect, setCall,
      setPte, giveBack]
  all_goals repeat' split
  all_goals first | exact le_rfl | exact Nat.le_succ _

/-! ### The lifetime of a resource -/

/-- The pages of each resource are returned at most once, and have been exactly
when its slot no longer holds it. A live slot still has a holder, its frames are
its own and handed out, and destroyed handles are stale. -/
structure Lifetime (σ : Surf) : Prop where
  once : ∀ g, σ.returned g ≤ 1
  iff_gone : ∀ g ∈ σ.installed, σ.returned g = 1 ↔
    ¬ ∃ i, (σ.shm.slots i).Live ∧ (σ.shm.slots i).generation = g
  never : ∀ g, g ∉ σ.installed → σ.returned g = 0
  retained : ∀ i, (σ.shm.slots i).Live → ¬ ((σ.shm.slots i).destroyed = true ∧
    (σ.shm.slots i).maps = [] ∧ (σ.shm.slots i).refs = [])
  frames : Held σ.held σ.taken
  stale : ∀ h ∈ σ.destroyed, ∀ i, σ.shm.lookup h ≠ .ok i
  permitted : ∀ i u, (σ.shm.slots i).Live → u ∈ (σ.shm.slots i).maps ∨ u ∈ (σ.shm.slots i).refs →
    u = (σ.shm.slots i).owner ∨ (σ.shm.slots i).published = true

/-- The next step returns pages only of a destroyed resource that is neither mapped
nor referenced, or those that a failed creation still had to itself. Entries,
metadata and references go to the owner, and to others behind the publication,
never writable. -/
structure Guarded (σ : Surf) (t : Nat) (op : SurfOp) : Prop where
  returns : ∀ g, (σ.exec t op).returned g ≠ σ.returned g → ∃ i, (σ.shm.slots i).Live ∧
    (σ.shm.slots i).generation = g ∧ ⟨g, i⟩ ∈ (σ.exec t op).destroyed ∧
    ((σ.exec t op).shm.slots i).maps = [] ∧ ((σ.exec t op).shm.slots i).refs = []
  frames : ∀ f, σ.taken f = true → (σ.exec t op).taken f = false →
    f ∈ SurfCall.frames (σ.calls t) ∨ ∃ i, f ∈ σ.pages i ∧
      (σ.exec t op).returned (σ.shm.slots i).generation =
        σ.returned (σ.shm.slots i).generation + 1
  entries : (∀ window, op ≠ .replaceSpace window) → EntriesPermitted σ (σ.exec t op)
  metadata : ∀ h i, σ.shm.stat t h = .ok i →
    t = (σ.shm.slots i).owner ∨ (σ.shm.slots i).published = true
  reference : ∀ h, (σ.shm.acquire t h).1 = kzOk →
    t = (σ.shm.slots h.idx).owner ∨ (σ.shm.slots h.idx).published = true

theorem Inv.lifetime (hσ : σ.Inv) : σ.Lifetime := by
  have hiff : ∀ g ∈ σ.installed, σ.returned g = 1 ↔
      ¬ ∃ i, (σ.shm.slots i).Live ∧ (σ.shm.slots i).generation = g := by
    refine fun g hg => ⟨?_, fun hnot => (hσ.once g hg).resolve_right hnot⟩
    rintro hone ⟨i, hl, rfl⟩
    rw [(hσ.live i hl).2] at hone
    cases hone
  refine ⟨fun g => ?_, hiff, hσ.never, fun i hl => (hσ.kept i hl).retained, hσ.frames,
    fun h hh i hi => ?_, fun i u hl hu => (hσ.kept i hl).permitted u hu⟩
  · by_cases hg : g ∈ σ.installed
    · rcases hσ.once g hg with hone | ⟨i, hl, rfl⟩
      · omega
      · rw [(hσ.live i hl).2]
        omega
    · rw [hσ.never g hg]
      omega
  · obtain ⟨hlu, hd⟩ := lookup_ok hi
    obtain ⟨rfl, -, hu, hg⟩ := lookupUnmap_ok hlu
    exact (hσ.dead h hh).2 ⟨hu, hg, hd⟩

theorem lookup_error {e : Int} (he : s.lookup h = .error e) : e ≠ kzOk := by
  unfold lookup lookupUnmap at he
  grind [kzEinval, kzEstale, kzOk]

theorem stat_permitted (hstat : s.stat t h = .ok i) :
    t = (s.slots i).owner ∨ (s.slots i).published = true := by
  unfold stat at hstat
  split at hstat
  · cases hstat
  split at hstat
  · cases hstat
  next hperm =>
    cases hstat
    by_contra hnot
    push Not at hnot
    exact hperm ⟨hnot.1, by simpa using hnot.2⟩

theorem acquire_permitted (hacq : (s.acquire t h).1 = kzOk) :
    t = (s.slots h.idx).owner ∨ (s.slots h.idx).published = true := by
  unfold acquire at hacq
  split at hacq
  next e he => exact absurd hacq (lookup_error he)
  rename_i i hl
  obtain ⟨rfl, -⟩ := lookupUnmap_ok (lookup_ok hl).1
  split at hacq
  · cases hacq
  next hperm =>
    by_contra hnot
    push Not at hnot
    exact hperm ⟨hnot.1, by simpa using hnot.2⟩

theorem Inv.guarded (hσ : σ.Inv) (hlt : (σ.exec t op).creates < 2 ^ 32) : σ.Guarded t op := by
  refine ⟨?_, ?_, exec_entries hσ, fun _ _ => stat_permitted, fun _ => acquire_permitted⟩
  · intro g hg
    rcases exec_cases hσ hlt with hbetween | hwithin
    · exact absurd (congrFun hbetween.returned g) hg
    obtain ⟨s, c, heq, hs⟩ := hwithin.sect
    rw [heq] at hg ⊢
    rcases returned_sect hσ hs g with ⟨hsame, -⟩ | ⟨-, i, hi, hl, hgen, hgave, hmaps, hrefs⟩
    · exact absurd hsame hg
    · refine ⟨i, hl, hgen, mem_destroyed_sect.mpr ?_, hmaps, hrefs⟩
      -- A resource that was destroyed before is among the noted handles.
      cases hd : (σ.shm.slots i).destroyed with
      | true => exact .inr (hgen ▸ hσ.noted i hl hd)
      | false => exact .inl ⟨hi, hl.used, rfl, .inl (gaveUp_iff.mp hgave).2, hgen⟩
  · intro f hf hf'
    rcases exec_cases hσ hlt with hbetween | hwithin
    · exact .inl (hbetween.taken f hf hf')
    obtain ⟨s, c, heq, hs⟩ := hwithin.sect
    rw [heq] at hf' ⊢
    change (σ.taken f && !σ.freed s f) = false at hf'
    rw [hf, Bool.true_and] at hf'
    obtain ⟨i, -, hgave, hmem⟩ := freed_iff.mp (by simpa using hf')
    refine .inr ⟨i, hmem, ?_⟩
    rcases returned_sect hσ hs (σ.shm.slots i).generation with ⟨-, hnot⟩ | ⟨hret, -⟩
    · exact absurd rfl (hnot i hgave)
    · exact hret

theorem init_inv : Surf.init.Inv := by
  have hfree : ∀ i, (Surf.init.shm.slots i).used = false := fun i => rfl
  have hused : ∀ {p : Prop} i, (Surf.init.shm.slots i).used = true → p :=
    fun i h => nomatch (hfree i).symm.trans h
  refine ⟨fun i h => hused i h, fun _ _ => rfl, fun i h => hused i h.used, fun i h => hused i h,
    fun t c h => (nomatch h), fun _ => rfl, fun i h => hused i h, fun i j h => hused i h,
    ⟨?_, ?_, ?_⟩, fun i h => hused i h.used, fun i h => hused i h, fun g hg => (nomatch hg),
    fun g hg => (nomatch hg), fun _ _ => rfl, fun h hh => (nomatch hh), fun i h => hused i h.used⟩
  · rintro (i | t) <;> exact .nil
  · rintro (i | t) y f hf <;> cases hf
  · rintro (i | t) f hf <;> cases hf

end Surf

def SurfStep (σ : Surf) (op : Nat × SurfOp) (σ' : Surf) : Prop := σ' = σ.exec op.1 op.2

/-- As long as the generations do not wrap, surfaces live by their rules in any
interleaving of the calls. -/
theorem surface_lifetime {ops : List (Nat × SurfOp)} {σ : Surf} (hrun : Run SurfStep Surf.init ops σ)
    (hlt : σ.creates < 2 ^ 32) :
    σ.Lifetime ∧ ∀ t op, (σ.exec t op).creates < 2 ^ 32 → σ.Guarded t op := by
  have hinv : σ.creates < 2 ^ 32 → σ.Inv := by
    refine hrun.invariant (I := fun σ => σ.creates < 2 ^ 32 → σ.Inv) ?_ fun _ => Surf.init_inv
    intro σ₀ op σ₁ hσ₀ hstep hlt₁
    rw [hstep] at hlt₁ ⊢
    rcases Surf.exec_cases (hσ₀ ((σ₀.creates_exec op.1 op.2).trans_lt hlt₁)) hlt₁ with h | h
    · exact h.inv
    · exact h.inv
  exact ⟨(hinv hlt).lifetime, fun t op hop => (hinv hlt).guarded hop⟩

def destroyThenUnmap : List (Nat × SurfOp) :=
  [(0, .createBegin true 1 8 8), (0, .createPage (some 5)), (0, .createPage none),
    (0, .createPte true), (0, .createEnd), (0, .destroy ⟨1, 0⟩), (0, .unmapBegin 0)]

theorem surface_lifetime_destroyThenUnmap :
    ((destroyThenUnmap.foldl (fun σ op => σ.exec op.1 op.2) Surf.init).returned 1 = 1 ∧
      (destroyThenUnmap.foldl (fun σ op => σ.exec op.1 op.2) Surf.init).creates < 2 ^ 32) ∧
    (destroyThenUnmap.foldl (fun σ op => σ.exec op.1 op.2) Surf.init).Lifetime := by
  have hrun : (destroyThenUnmap.foldl (fun σ op => σ.exec op.1 op.2) Surf.init).returned 1 = 1 ∧
      (destroyThenUnmap.foldl (fun σ op => σ.exec op.1 op.2) Surf.init).creates < 2 ^ 32 := by
    decide +kernel
  exact ⟨hrun, (surface_lifetime (Run.foldl (by intro _ _ _; rfl) _) hrun.2).1⟩

end Kyuzen.Mm
