import Kyuzen.Base.Count
import Kyuzen.Vfs.Table

/-!
Reference counts of open descriptions are exact. The invariant counts, next to
the entries of the table, the references that the running call holds, so that
each primitive (take, release, install, remove) keeps it and the calls are
chains of primitives.
-/

namespace Kyuzen.Vfs

open Function List Option

variable {d fd i task : Nat}

def Table.entries (t : Table) (d : Nat) : Nat :=
  ((Finset.range 256).filter fun i => (t.fds i).used = true ∧ (t.fds i).open_ = d).card

/-- A side flag is set exactly while the description of that side is live. -/
structure Sides (heap : Nat → Option Desc) (pipes : Nat → Option Ends) : Prop where
  alive : ∀ q ends s, pipes q = some ends → (ends.alive s = true ↔
    ∃ d desc, heap d = some desc ∧ desc.kind.side = some s ∧ desc.pipe = some q)
  target : ∀ d desc q, heap d = some desc → desc.pipe = some q → pipes q ≠ none
  kind : ∀ d desc q, heap d = some desc → desc.pipe = some q → desc.kind.side ≠ none
  uniq : ∀ d d' desc desc' q, heap d = some desc → heap d' = some desc' → desc.pipe = some q →
    desc'.pipe = some q → desc.kind.side = desc'.kind.side → d = d'

/-- The counts of a table with references `h` in the hands of running calls. -/
structure Counts (t : Table) (h : Nat → Nat) : Prop where
  count : ∀ d desc, t.heap d = some desc → desc.refcount = t.entries d + h d
  live : ∀ d, t.heap d ≠ none ↔ 0 < t.entries d + h d
  window : ∀ i, (t.fds i).used = true → i < 256
  fresh : ∀ d, t.next ≤ d → t.heap d = none
  fault : t.fault = false

structure Exact (t : Table) (h : Nat → Nat) : Prop extends Counts t h where
  sides : Sides t.heap t.pipes
  freshPipe : ∀ q, t.next ≤ q → t.pipes q = none

/-! ### Entries -/

theorem entries_setFd (t : Table) (hi : i < 256) (e : FdEntry) (d : Nat) :
    (t.setFd i e).entries d + (if (t.fds i).used = true ∧ (t.fds i).open_ = d then 1 else 0) =
      t.entries d + if e.used = true ∧ e.open_ = d then 1 else 0 :=
  card_filter_update hi t.fds (fun e => e.used = true ∧ e.open_ = d) e

theorem entries_pos {t : Table} (hi : i < 256) (hused : (t.fds i).used = true) :
    0 < t.entries (t.fds i).open_ :=
  Finset.card_pos.mpr ⟨i, Finset.mem_filter.mpr ⟨Finset.mem_range.mpr hi, hused, rfl⟩⟩

/-! ### Pipe sides -/

namespace Sides

variable {heap heap' : Nat → Option Desc} {pipes : Nat → Option Ends}

theorem of_same (h : Sides heap pipes) (hfwd : ∀ d x' q, heap' d = some x' → x'.pipe = some q →
      ∃ x, heap d = some x ∧ x.kind = x'.kind ∧ x.pipe = some q)
    (hbwd : ∀ d x q, heap d = some x → x.pipe = some q →
      ∃ x', heap' d = some x' ∧ x'.kind = x.kind ∧ x'.pipe = some q) : Sides heap' pipes := by
  refine ⟨fun q ends s hq => ?_, fun d desc' q hd hpipe => ?_, fun d desc' q hd hpipe => ?_,
    fun d d' x x' q hd hd' hpipe hpipe' hside => ?_⟩
  · rw [h.alive q ends s hq]
    constructor
    · rintro ⟨d, desc, hd, hside, hpipe⟩
      obtain ⟨desc', hd', hkind, hpipe'⟩ := hbwd d desc q hd hpipe
      exact ⟨d, desc', hd', by rw [hkind, hside], hpipe'⟩
    · rintro ⟨d, desc', hd', hside, hpipe⟩
      obtain ⟨desc, hd, hkind, hpipe'⟩ := hfwd d desc' q hd' hpipe
      exact ⟨d, desc, hd, by rw [hkind, hside], hpipe'⟩
  · obtain ⟨desc, hdesc, -, heq⟩ := hfwd d desc' q hd hpipe
    exact h.target d desc q hdesc heq
  · obtain ⟨desc, hdesc, hkind, heq⟩ := hfwd d desc' q hd hpipe
    rw [← hkind]
    exact h.kind d desc q hdesc heq
  · obtain ⟨y, hy, hkind, heq⟩ := hfwd d x q hd hpipe
    obtain ⟨y', hy', hkind', heq'⟩ := hfwd d' x' q hd' hpipe'
    exact h.uniq d d' y y' q hy hy' heq heq' (by rw [hkind, hkind', hside])

theorem congr (h : Sides heap pipes)
    (hsame : ∀ d, (heap' d).map (fun x => (x.kind, x.pipe)) = (heap d).map fun x => (x.kind, x.pipe)) :
    Sides heap' pipes := by
  have hpair : ∀ {a b : Option Desc} {x : Desc} {q : Nat}, a = some x → x.pipe = some q →
      (a.map fun x => (x.kind, x.pipe)) = (b.map fun x => (x.kind, x.pipe)) →
      ∃ y, b = some y ∧ y.kind = x.kind ∧ y.pipe = some q := by
    intro a b x q hx hq heq
    rw [hx, map_some] at heq
    obtain ⟨y, hy, hpair⟩ := map_eq_some_iff.mp heq.symm
    exact ⟨y, hy, (Prod.mk.inj hpair).1, (Prod.mk.inj hpair).2.trans hq⟩
  exact h.of_same (fun d _ _ hx hq => hpair hx hq (hsame d))
    fun d _ _ hx hq => hpair hx hq (hsame d).symm

theorem update (h : Sides heap pipes) {d : Nat} {new : Option Desc}
    (hold : ∀ x, heap d = some x → x.pipe = none) (hnew : ∀ x, new = some x → x.pipe = none) :
    Sides (update heap d new) pipes := by
  apply h.of_same
  · intro d' x q hx hq
    by_cases heq : d' = d
    · subst heq
      rw [update_self] at hx
      cases (hnew x hx).symm.trans hq
    · rw [update_of_ne heq] at hx
      exact ⟨x, hx, rfl, hq⟩
  · intro d' x q hx hq
    refine ⟨x, ?_, rfl, hq⟩
    rw [update_of_ne, hx]
    rintro rfl
    cases (hold x hx).symm.trans hq

theorem drop_alive (e : Ends) (s s' : PipeEnd) :
    (e.drop s).alive s' = if s' = s then false else e.alive s' := by
  cases s <;> cases s' <;> rfl

theorem close (h : Sides heap pipes) {d q : Nat} {desc : Desc} {s : PipeEnd} {ends : Ends}
    (hd : heap d = some desc) (hside : desc.kind.side = some s) (hpipe : desc.pipe = some q)
    (hq : pipes q = some ends) :
    Sides (Function.update heap d none) (Function.update pipes q
      (if (ends.drop s).readers = false ∧ (ends.drop s).writers = false then none
        else some (ends.drop s))) := by
  have hold : ∀ d' x, Function.update heap d none d' = some x → d' ≠ d ∧ heap d' = some x := by
    intro d' x hx
    by_cases heq : d' = d
    · subst heq
      rw [update_self] at hx
      cases hx
    · exact ⟨heq, by rwa [update_of_ne heq] at hx⟩
  -- the descriptions of the other side and of other pipes are the same
  have hsame : ∀ q' s', q' ≠ q ∨ s' ≠ s →
      ((∃ d' x, heap d' = some x ∧ x.kind.side = some s' ∧ x.pipe = some q') ↔
        ∃ d' x, Function.update heap d none d' = some x ∧ x.kind.side = some s' ∧
          x.pipe = some q') := by
    refine fun q' s' hother => ⟨fun ⟨d', x, hx, hside', hpipe'⟩ => ⟨d', x, ?_, hside', hpipe'⟩,
      fun ⟨d', x, hx, hrest⟩ => ⟨d', x, (hold d' x hx).2, hrest⟩⟩
    rw [update_of_ne, hx]
    rintro rfl
    obtain rfl := Option.some.inj (hd.symm.trans hx)
    rcases hother with hother | hother
    · exact hother (Option.some.inj (hpipe'.symm.trans hpipe))
    · exact hother (Option.some.inj (hside'.symm.trans hside))
  refine ⟨fun q' ends' s' hq' => ?_, fun d' x q' hx hq' => ?_,
    fun d' x q' hx hq' => h.kind d' x q' (hold d' x hx).2 hq',
    fun d₁ d₂ x₁ x₂ q' h₁ h₂ hq₁ hq₂ hside' =>
      h.uniq d₁ d₂ x₁ x₂ q' (hold d₁ x₁ h₁).2 (hold d₂ x₂ h₂).2 hq₁ hq₂ hside'⟩
  · by_cases heq : q' = q
    · subst heq
      rw [update_self] at hq'
      have hends : ends' = ends.drop s := by
        split at hq'
        · cases hq'
        · exact (Option.some.inj hq').symm
      rw [hends, drop_alive]
      by_cases hs : s' = s
      · subst hs
        rw [if_pos rfl]
        refine ⟨nofun, ?_⟩
        rintro ⟨d', x, hx, hside', hpipe'⟩
        obtain ⟨hne, hx⟩ := hold d' x hx
        exact absurd (h.uniq d' d x desc q' hx hd hpipe' hpipe (by rw [hside', hside])) hne
      · rw [if_neg hs, h.alive q' ends s' hq]
        exact hsame q' s' (.inr hs)
    · rw [update_of_ne heq] at hq'
      rw [h.alive q' ends' s' hq']
      exact hsame q' s' (.inl heq)
  · obtain ⟨hne, hx⟩ := hold d' x hx
    by_cases heq : q' = q
    · subst heq
      rw [update_self]
      -- the other side is still there, so its flag is set
      obtain ⟨s', hs'⟩ := ne_none_iff_exists'.mp (h.kind d' x q' hx hq')
      have halive := (h.alive q' ends s' hq).mpr ⟨d', x, hx, hs', hq'⟩
      have hne' : s' ≠ s := by
        rintro rfl
        exact hne (h.uniq d' d x desc q' hx hd hq' hpipe (by rw [hs', hside]))
      rw [if_neg]
      · exact some_ne_none _
      · rintro ⟨hr, hw⟩
        cases s <;> cases s' <;> simp_all [Ends.drop, Ends.alive]
    · rw [update_of_ne heq]
      exact h.target d' x q' hx hq'

theorem newPipe (h : Sides heap pipes) {ro wo q : Nat} {r w : Desc} (hro : heap ro = none)
    (hwo : heap wo = none) (hne : ro ≠ wo) (hq : pipes q = none) (hr : r.kind = .pipeRead)
    (hw : w.kind = .pipeWrite) (hrq : r.pipe = some q) (hwq : w.pipe = some q) :
    Sides (Function.update (Function.update heap ro (some r)) wo (some w))
      (Function.update pipes q (some ⟨true, true⟩)) := by
  -- a description is one of the two new ones, or an older one, of another pipe
  have hcases : ∀ {d x q'}, Function.update (Function.update heap ro (some r)) wo (some w) d = some x →
      x.pipe = some q' → (d = ro ∧ x = r ∧ q' = q) ∨ (d = wo ∧ x = w ∧ q' = q) ∨
        heap d = some x ∧ q' ≠ q := by
    intro d x q' hx hpipe
    simp only [update_apply] at hx
    split_ifs at hx with hdw hdr
    · cases hx
      exact .inr (.inl ⟨hdw, rfl, Option.some.inj (hpipe.symm.trans hwq)⟩)
    · cases hx
      exact .inl ⟨hdr, rfl, Option.some.inj (hpipe.symm.trans hrq)⟩
    · exact .inr (.inr ⟨hx, fun heq => h.target d x q hx (heq ▸ hpipe) hq⟩)
  have hkeep : ∀ d x, heap d = some x →
      Function.update (Function.update heap ro (some r)) wo (some w) d = some x := by
    intro d x hx
    rw [update_of_ne, update_of_ne, hx]
    · rintro rfl
      exact nomatch hro.symm.trans hx
    · rintro rfl
      exact nomatch hwo.symm.trans hx
  have hr' : Function.update (Function.update heap ro (some r)) wo (some w) ro = some r := by
    rw [update_of_ne hne, update_self]
  have hsides : r.kind.side ≠ w.kind.side := by
    rw [hr, hw]
    decide
  refine ⟨fun q' ends s hq' => ?_, fun d x q' hx hpipe => ?_, fun d x q' hx hpipe => ?_,
    fun d d' x x' q' hx hx' hpipe hpipe' hside => ?_⟩
  · by_cases heq : q' = q
    · subst heq
      rw [update_self, some_inj] at hq'
      subst hq'
      cases s with
      | read => exact ⟨fun _ => ⟨ro, r, hr', by rw [hr]; rfl, hrq⟩, fun _ => rfl⟩
      | write => exact ⟨fun _ => ⟨wo, w, update_self .., by rw [hw]; rfl, hwq⟩, fun _ => rfl⟩
    · rw [update_of_ne heq] at hq'
      rw [h.alive q' ends s hq']
      constructor
      · rintro ⟨d, x, hx, hrest⟩
        exact ⟨d, x, hkeep d x hx, hrest⟩
      rintro ⟨d, x, hx, hside, hpipe⟩
      rcases hcases hx hpipe with ⟨-, -, hqq⟩ | ⟨-, -, hqq⟩ | ⟨hx, -⟩
      · exact absurd hqq heq
      · exact absurd hqq heq
      · exact ⟨d, x, hx, hside, hpipe⟩
  · rw [update_apply]
    split_ifs with heq
    · exact some_ne_none _
    rcases hcases hx hpipe with ⟨-, -, hqq⟩ | ⟨-, -, hqq⟩ | ⟨hx, -⟩
    · exact absurd hqq heq
    · exact absurd hqq heq
    · exact h.target d x q' hx hpipe
  · rcases hcases hx hpipe with ⟨-, rfl, -⟩ | ⟨-, rfl, -⟩ | ⟨hx, -⟩
    · rw [hr]
      exact some_ne_none _
    · rw [hw]
      exact some_ne_none _
    · exact h.kind d x q' hx hpipe
  · rcases hcases hx hpipe with ⟨rfl, rfl, hqq⟩ | ⟨rfl, rfl, hqq⟩ | ⟨hx, hqq⟩ <;>
      rcases hcases hx' hpipe' with ⟨rfl, rfl, hqq'⟩ | ⟨rfl, rfl, hqq'⟩ | ⟨hx', hqq'⟩
    all_goals first | rfl | exact absurd hqq hqq' | exact absurd hqq' hqq | skip
    · exact absurd hside hsides
    · exact absurd hside.symm hsides
    · exact h.uniq d d' x x' q' hx hx' hpipe hpipe' hside

end Sides

/-! ### Primitives -/

namespace Counts

variable {t : Table} {h h' : Nat → Nat} {d : Nat}

section
variable (ht : Counts t h)
include ht

/-- One description changes, appears or goes, and with it the references to it
that the call holds. -/
theorem setDesc {x : Option Desc} {next : Nat} (pipes : Nat → Option Ends)
    (hother : ∀ d' ≠ d, h' d' = h d') (hnext : t.next ≤ next) (hd : d < next)
    (hnone : x = none → t.entries d + h' d = 0)
    (hsome : ∀ y, x = some y → y.refcount = t.entries d + h' d ∧ 0 < y.refcount) :
    Counts {t with heap := update t.heap d x, pipes := pipes, next := next} h' := by
  refine ⟨fun d' y hy => ?_, fun d' => ?_, ht.window, fun d' hd' => ?_, ht.fault⟩
  · change update t.heap d x d' = some y at hy
    by_cases hne : d' = d
    · subst hne
      rw [update_self] at hy
      exact (hsome y hy).1
    · rw [update_of_ne hne] at hy
      rw [hother d' hne]
      exact ht.count d' y hy
  · change update t.heap d x d' ≠ none ↔ 0 < t.entries d' + h' d'
    by_cases hne : d' = d
    · subst hne
      rw [update_self]
      cases x with
      | none =>
        have := hnone rfl
        simp
        omega
      | some y =>
        have := hsome y rfl
        simp
        omega
    · rw [update_of_ne hne, hother d' hne]
      exact ht.live d'
  · change next ≤ d' at hd'
    change update t.heap d x d' = none
    rw [update_of_ne (by omega)]
    exact ht.fresh d' (by omega)

theorem lt_next {desc : Desc} (hd : t.heap d = some desc) : d < t.next := by
  by_contra hle
  rw [ht.fresh d (by omega)] at hd
  cases hd

theorem openAlloc (kind : Kind) (flags : Nat) (pipe : Option Nat) :
    Counts (t.openAlloc kind flags pipe).2 (held h t.next) := by
  have hnone := ht.fresh t.next le_rfl
  have hzero : t.entries t.next + h t.next = 0 := by
    have := (ht.live t.next).not.mp (by rw [hnone]; simp)
    omega
  refine ht.setDesc t.pipes (fun d' => held_of_ne) (Nat.le_succ _) (Nat.lt_succ_self _)
    nofun fun y hy => ?_
  rw [← some.inj hy, held_self]
  simp only
  omega

theorem setFd {i : Nat} (hi : i < 256) {e : FdEntry}
    (hmove : ∀ d', h' d' + (if e.used = true ∧ e.open_ = d' then 1 else 0) =
      h d' + if (t.fds i).used = true ∧ (t.fds i).open_ = d' then 1 else 0) :
    Counts (t.setFd i e) h' := by
  have hentries : ∀ d', (t.setFd i e).entries d' + h' d' = t.entries d' + h d' := by
    intro d'
    have heq := entries_setFd t hi e d'
    have := hmove d'
    omega
  refine ⟨fun d' x hx => ?_, fun d' => ?_, fun j hj => ?_, ht.fresh, ht.fault⟩
  · rw [hentries]
    exact ht.count d' x hx
  · rw [hentries]
    exact ht.live d'
  · by_cases hne : j = i
    · rw [hne]
      exact hi
    · change (update t.fds i e j).used = true at hj
      rw [update_of_ne hne] at hj
      exact ht.window j hj

end

theorem install (ht : Counts t (held h d)) {i : Nat} (hi : i < 256)
    (hfree : (t.fds i).used = false) (owner : Nat) : Counts (t.setFd i ⟨true, owner, d⟩) h := by
  refine ht.setFd hi fun d' => ?_
  rw [hfree]
  by_cases hne : d' = d
  · subst hne
    simp [held_self]
  · simp [held_of_ne hne, Ne.symm hne]

end Counts

namespace Exact

variable {i : Nat} {t : Table} {h : Nat → Nat} {d : Nat}

theorem openGet (ht : Exact t h) (hd : t.heap d ≠ none) : Exact (t.openGet d) (held h d) := by
  obtain ⟨desc, hdesc⟩ := ne_none_iff_exists'.mp hd
  rw [Table.openGet, hdesc]
  refine ⟨ht.setDesc t.pipes (fun d' => held_of_ne) le_rfl (ht.lt_next hdesc)
    nofun fun y hy => ?_, ht.sides.congr fun d' => ?_, ht.freshPipe⟩
  · rw [← some.inj hy, held_self]
    have := ht.count d desc hdesc
    simp only
    omega
  · by_cases hne : d' = d
    · subst hne
      simp [hdesc]
    · simp [update_of_ne hne]

theorem openPut (ht : Exact t (held h d)) : Exact (t.openPut d) h := by
  have hd : t.heap d ≠ none := by
    rw [ht.live d, held_self]
    omega
  obtain ⟨desc, hdesc⟩ := ne_none_iff_exists'.mp hd
  have hcount := ht.count d desc hdesc
  rw [held_self] at hcount
  have hother : ∀ d' ≠ d, h d' = held h d d' := fun d' hne => (held_of_ne hne).symm
  have hlt := ht.lt_next hdesc
  rw [Table.openPut, hdesc]
  simp only
  split_ifs with hlast
  · refine ⟨ht.setDesc t.pipes hother le_rfl hlt nofun
      fun y hy => ?_, ht.sides.congr fun d' => ?_, ht.freshPipe⟩
    · rw [← some.inj hy]
      simp only
      omega
    · by_cases hne : d' = d
      · subst hne
        simp [hdesc]
      · simp [update_of_ne hne]
  have hfree : ∀ pipes, Counts {t with heap := update t.heap d none, pipes := pipes} h :=
    fun pipes => ht.setDesc pipes hother le_rfl hlt (fun _ => by omega)
      fun y hy => by cases hy
  cases hpipe : desc.pipe with
  | none =>
    have hfinal : Exact {t with heap := update t.heap d none} h :=
      ⟨hfree t.pipes, ht.sides.update (fun x hx => some.inj (hdesc.symm.trans hx) ▸ hpipe) nofun,
        ht.freshPipe⟩
    cases hside : desc.kind.side with
    | none => exact hfinal
    | some s => exact hfinal
  | some q =>
    obtain ⟨s, hside⟩ := ne_none_iff_exists'.mp (ht.sides.kind d desc q hdesc hpipe)
    obtain ⟨ends, hq⟩ := ne_none_iff_exists'.mp (ht.sides.target d desc q hdesc hpipe)
    rw [hside]
    simp only [Table.pipeEndClosed, hq]
    refine ⟨hfree _, ht.sides.close hdesc hside hpipe hq, fun q' hq' => ?_⟩
    simp only
    rw [update_of_ne, ht.freshPipe q' hq']
    rintro rfl
    exact nomatch (ht.freshPipe q' hq').symm.trans hq

theorem install (ht : Exact t (held h d)) (hi : i < 256) (hfree : (t.fds i).used = false)
    (owner : Nat) : Exact (t.setFd i ⟨true, owner, d⟩) h :=
  ⟨ht.toCounts.install hi hfree owner, ht.sides, ht.freshPipe⟩

theorem remove (ht : Exact t h) (hused : (t.fds i).used = true) :
    Exact (t.clearFd i) (held h (t.fds i).open_) := by
  refine ⟨ht.toCounts.setFd (ht.window i hused) fun d' => ?_, ht.sides, ht.freshPipe⟩
  rw [hused]
  by_cases hne : d' = (t.fds i).open_
  · subst hne
    simp [held_self]
  · simp [held_of_ne hne, Ne.symm hne]

theorem replace (ht : Exact t (held h d)) (hused : (t.fds i).used = true) :
    Exact (t.setFd i {t.fds i with open_ := d}) (held h (t.fds i).open_) := by
  refine ⟨ht.toCounts.setFd (ht.window i hused) fun d' => ?_, ht.sides, ht.freshPipe⟩
  simp only [hused, true_and]
  by_cases hnew : d = d'
  · subst hnew
    by_cases hold : (t.fds i).open_ = d
    · rw [hold]
    · rw [held_self, held_of_ne (Ne.symm hold), if_pos rfl, if_neg hold]
  · rw [if_neg hnew, held_of_ne (Ne.symm hnew)]
    by_cases hold : (t.fds i).open_ = d'
    · rw [hold, held_self, if_pos rfl]
    · rw [held_of_ne (Ne.symm hold), if_neg hold]

theorem entry_live (ht : Exact t h) (hused : (t.fds i).used = true) :
    t.heap (t.fds i).open_ ≠ none := by
  rw [ht.live]
  have := entries_pos (ht.window i hused) hused
  omega

theorem openAlloc (ht : Exact t h) (kind : Kind) (flags : Nat) :
    Exact (t.openAlloc kind flags none).2 (held h t.next) :=
  ⟨ht.toCounts.openAlloc kind flags none,
    ht.sides.update (fun _ hx => nomatch (ht.fresh t.next le_rfl).symm.trans hx)
      fun _ hx => some.inj hx ▸ rfl,
    fun q hq => ht.freshPipe q (by change t.next + 1 ≤ q at hq; omega)⟩

end Exact

/-! ### Calls -/

section Frame

variable (t : Table) (d : Nat)

@[simp] theorem openGet_fds : (t.openGet d).fds = t.fds := by
  unfold Table.openGet
  split <;> rfl

@[simp] theorem openGet_temps : (t.openGet d).temps = t.temps := by
  unfold Table.openGet
  split <;> rfl

theorem pipeEndClosed_frame (q : Nat) (s : PipeEnd) :
    (t.pipeEndClosed q s).fds = t.fds ∧ (t.pipeEndClosed q s).temps = t.temps := by
  unfold Table.pipeEndClosed
  split <;> exact ⟨rfl, rfl⟩

theorem openPut_frame : (t.openPut d).fds = t.fds ∧ (t.openPut d).temps = t.temps := by
  unfold Table.openPut
  split
  · exact ⟨rfl, rfl⟩
  split
  · exact ⟨rfl, rfl⟩
  · split
    · exact pipeEndClosed_frame t _ _
    · exact ⟨rfl, rfl⟩

@[simp] theorem openPut_fds : (t.openPut d).fds = t.fds := (openPut_frame t d).1

@[simp] theorem openPut_temps : (t.openPut d).temps = t.temps := (openPut_frame t d).2

@[simp] theorem setFd_temps (e : FdEntry) : (t.setFd d e).temps = t.temps := rfl

@[simp] theorem clearFd_temps : (t.clearFd d).temps = t.temps := rfl

theorem setFd_self (e : FdEntry) : (t.setFd d e).fds d = e := update_self _ _ _

theorem setFd_of_ne {i : Nat} (hne : i ≠ d) (e : FdEntry) : (t.setFd d e).fds i = t.fds i :=
  update_of_ne hne _ _

end Frame

theorem slotOf_eq_some (h : slotOf task fd = some i) :
    i = task * 16 + fd ∧ task < 16 ∧ fd < 16 := by
  unfold slotOf at h
  split at h
  · cases h
  · exact ⟨(some.inj h).symm, by omega, by omega⟩

theorem resolve_some {t : Table} (h : t.resolve task fd = some i) :
    (t.fds i).used = true ∧ task < 16 := by
  revert h
  fun_cases Table.resolve t task fd <;> rintro ⟨⟩
  next hslot hused => exact ⟨hused.1, (slotOf_eq_some hslot).2.1⟩

theorem allocFd_eq_some {t : Table} (h : t.allocFd task = some fd) :
    fd < 16 ∧ (t.fds (task * 16 + fd)).used = false := by
  have hmem := mem_of_find?_eq_some h
  have hfree := find?_some h
  exact ⟨mem_range.mp hmem, by simpa using hfree⟩

theorem window_lt (htask : task < 16) (hfd : fd < 16) : task * 16 + fd < 256 := by
  omega

/-- What a finished call does: whatever others hold, the table stays exact. -/
structure Keeps (t t' : Table) : Prop where
  exact_ : ∀ h, Exact t h → Exact t' h
  temps : t'.temps = t.temps

namespace Keeps

variable {t t' t'' : Table}

theorem refl (t : Table) : Keeps t t := ⟨fun _ ht => ht, rfl⟩

theorem trans (h : Keeps t t') (h' : Keeps t' t'') : Keeps t t'' :=
  ⟨fun k ht => h'.exact_ k (h.exact_ k ht), h'.temps.trans h.temps⟩

end Keeps

variable (t : Table)

theorem installTty_keeps (task fd flags : Nat) (kmalloc : Bool) :
    Keeps t (t.installTty task fd flags kmalloc) := by
  unfold Table.installTty
  split
  · exact .refl t
  rename_i i hslot
  obtain ⟨rfl, htask, hfd⟩ := slotOf_eq_some hslot
  split
  · exact .refl t
  next hfree =>
    split
    · exact .refl t
    · exact ⟨fun h ht => (ht.openAlloc .tty flags).install (window_lt htask hfd)
        (Bool.eq_false_of_not_eq_true hfree) task, rfl⟩

theorem vfsTaskInit_keeps (task : Nat) (kmalloc : Nat → Bool) :
    Keeps t (t.vfsTaskInit task kmalloc) := by
  unfold Table.vfsTaskInit
  split
  · exact .refl t
  · exact ((installTty_keeps t task 0 0 _).trans (installTty_keeps _ task 1 oWronly _)).trans
      (installTty_keeps _ task 2 oWronly _)

theorem vfsOpen_keeps (task : Nat) (kind : Kind) (flags : Nat) (kmalloc : Bool) :
    Keeps t (t.vfsOpen task kind flags kmalloc) := by
  unfold Table.vfsOpen
  split
  · exact .refl t
  split
  · exact .refl t
  dsimp only
  split
  · -- no free descriptor: the description that was just made is freed
    refine ⟨fun h ht => ?_, rfl⟩
    have hnone := ht.fresh t.next le_rfl
    have hback : update (t.openAlloc kind flags none).2.heap t.next none = t.heap := by
      change update (update t.heap t.next _) t.next none = t.heap
      rw [update_idem, ← hnone, update_eq_self]
    change Exact {(t.openAlloc kind flags none).2 with
      heap := update (t.openAlloc kind flags none).2.heap t.next none} h
    rw [hback]
    exact ⟨{ht with fresh := fun d hd => ht.fresh d (Nat.le_of_succ_le hd)}, ht.sides,
      fun q hq => ht.freshPipe q (Nat.le_of_succ_le hq)⟩
  next htask _ _ fd hfd =>
    obtain ⟨hlt, hfree⟩ := allocFd_eq_some hfd
    exact ⟨fun h ht => (ht.openAlloc kind flags).install
      (window_lt (Nat.lt_of_not_le htask) hlt) hfree task, rfl⟩

theorem free_pair {p : Nat → Bool} {rfd wfd : Nat} {rest : List Nat}
    (h : (range 16).filter p = rfd :: wfd :: rest) :
    (rfd < 16 ∧ p rfd = true) ∧ (wfd < 16 ∧ p wfd = true) ∧ wfd ≠ rfd := by
  have hmem : ∀ x ∈ rfd :: wfd :: rest, x < 16 ∧ p x = true := by
    intro x hx
    rw [← h, mem_filter, mem_range] at hx
    exact hx
  have hnodup : (rfd :: wfd :: rest).Nodup := h ▸ nodup_range.filter p
  refine ⟨hmem rfd (by simp), hmem wfd (by simp), ?_⟩
  rintro rfl
  simp at hnodup

theorem vfsPipe_keeps (task : Nat) (kmalloc : Bool) : Keeps t (t.vfsPipe task kmalloc) := by
  unfold Table.vfsPipe
  split
  · exact .refl t
  rename_i htask
  split
  · exact .refl t
  split
  next rfd wfd rest hfilter =>
    obtain ⟨⟨hrfd, hrfree⟩, ⟨hwfd, hwfree⟩, hne⟩ := free_pair hfilter
    simp only [Bool.not_eq_eq_eq_not, Bool.not_true] at hrfree hwfree
    refine ⟨fun h ht => ?_, rfl⟩
    have hpipe : Counts {t with
        pipes := Function.update t.pipes t.next (some ⟨true, true⟩), next := t.next + 1} h :=
      {ht with fresh := fun d hd => ht.fresh d (Nat.le_of_succ_le hd)}
    have hro := hpipe.openAlloc .pipeRead 0 (some t.next)
    have hwo := hro.openAlloc .pipeWrite oWronly (some t.next)
    -- the write end's reference is installed second, so it is the inner one here
    have hcomm : held (held h (t.next + 1)) (t.next + 2) =
        held (held h (t.next + 2)) (t.next + 1) := by
      unfold held
      rw [update_of_ne (by omega), update_of_ne (by omega),
        Function.update_comm (by omega)]
    change Counts _ (held (held h (t.next + 1)) (t.next + 2)) at hwo
    rw [hcomm] at hwo
    have hlt := Nat.lt_of_not_le htask
    have hfirst := hwo.install (window_lt hlt hrfd) hrfree task
    refine ⟨hfirst.install (window_lt hlt hwfd) ?_ task, ?_, fun q hq => ?_⟩
    · rw [setFd_of_ne _ _ (by omega)]
      exact hwfree
    · have hro' : t.heap (t.next + 1) = none := ht.fresh _ (by omega)
      have hwo' : t.heap (t.next + 2) = none := ht.fresh _ (by omega)
      exact ht.sides.newPipe hro' hwo' (Nat.succ_ne_self _).symm
        (ht.freshPipe _ le_rfl) rfl rfl rfl rfl
    · change t.next + 1 + 1 + 1 ≤ q at hq
      change Function.update t.pipes t.next _ q = none
      rw [update_of_ne (by omega)]
      exact ht.freshPipe q (by omega)
  · exact .refl t

theorem vfsClose_keeps (task fd : Nat) : Keeps t (t.vfsClose task fd).2 := by
  unfold Table.vfsClose
  split
  · exact .refl t
  next i hi => exact ⟨fun h ht => (ht.remove (resolve_some hi).1).openPut, by simp⟩

theorem closeLoop_keeps (task : Nat) (l : List Nat) : Keeps t (Table.closeLoop task l t) := by
  induction l generalizing t with
  | nil => exact .refl t
  | cons i rest ih =>
    unfold Table.closeLoop
    dsimp only
    split
    next hused =>
      have hstep : Keeps t ((t.clearFd (task * 16 + i)).openPut (t.fds (task * 16 + i)).open_) :=
        ⟨fun h ht => (ht.remove hused).openPut, by simp⟩
      exact hstep.trans (ih _)
    · exact ih t

theorem vfsCloseAll_keeps (task : Nat) : Keeps t (t.vfsCloseAll task) := by
  unfold Table.vfsCloseAll
  split
  · exact .refl t
  · exact closeLoop_keeps t task _

theorem vfsDup_keeps (task old : Nat) : Keeps t (t.vfsDup task old).2 := by
  unfold Table.vfsDup
  split
  · exact .refl t
  rename_i os hos
  split
  · exact .refl t
  rename_i nfd hnfd
  obtain ⟨hlt, hfree⟩ := allocFd_eq_some hnfd
  have htask := (resolve_some hos).2
  refine ⟨fun h ht => ?_, by simp⟩
  exact (ht.openGet (ht.entry_live (resolve_some hos).1)).install (window_lt htask hlt)
    (by rw [openGet_fds]; exact hfree) task

theorem vfsDup2_keeps (task old new : Nat) : Keeps t (t.vfsDup2 task old new).2 := by
  unfold Table.vfsDup2
  split
  next ns os hns hos =>
    obtain ⟨rfl, htask, hfd⟩ := slotOf_eq_some hns
    split
    · exact .refl t
    dsimp only
    split
    next hused =>
      refine ⟨fun h ht => ?_, by simp⟩
      have hget := ht.openGet (ht.entry_live (resolve_some hos).1)
      have hput := (hget.remove hused).openPut
      exact hput.install (window_lt htask hfd)
        (by rw [openPut_fds, Table.clearFd, setFd_self]) task
    next hfree =>
      refine ⟨fun h ht => ?_, by simp⟩
      have hget := ht.openGet (ht.entry_live (resolve_some hos).1)
      exact hget.install (window_lt htask hfd) (Bool.eq_false_of_not_eq_true hfree) task
  · exact .refl t

theorem inheritLoop_keeps (child parent : Nat) (spec : Nat → Option Nat) (l : List Nat) :
    Keeps t (Table.inheritLoop child parent spec l t).2 := by
  induction l generalizing t with
  | nil => exact .refl t
  | cons i rest ih =>
    unfold Table.inheritLoop
    split
    · exact ih t
    split
    next ps cs hps hcs =>
      refine Keeps.trans ⟨fun h ht => ?_, by simp⟩ (ih _)
      have hget := ht.openGet (ht.entry_live (resolve_some hps).1)
      have hused : ((t.openGet (t.fds ps).open_).fds cs).used = true := by
        rw [openGet_fds]
        exact (resolve_some hcs).1
      exact (hget.replace hused).openPut
    · exact .refl t

theorem vfsInheritStdio_keeps (child parent : Nat) (spec : Nat → Option Nat) :
    Keeps t (t.vfsInheritStdio child parent spec).2 := by
  unfold Table.vfsInheritStdio
  split
  · exact .refl t
  · exact inheritLoop_keeps t child parent spec _

theorem forkLoop_keeps {child parent : Nat} (hchild : child < 16)
    {l : List Nat} (hl : l.Nodup) (hlt : ∀ i ∈ l, i < 16)
    (hfree : ∀ i ∈ l, (t.fds (child * 16 + i)).used = false) :
    Keeps t (Table.forkLoop child parent l t) := by
  induction l generalizing t with
  | nil => exact .refl t
  | cons i rest ih =>
    obtain ⟨hi, hrest⟩ := nodup_cons.mp hl
    have hilt := hlt i (by simp)
    have hlt' : ∀ j ∈ rest, j < 16 := fun j hj => hlt j (mem_cons_of_mem i hj)
    unfold Table.forkLoop
    dsimp only
    split
    next hused =>
      refine Keeps.trans ⟨fun h ht => ?_, by simp⟩ (ih _ hrest hlt' fun j hj => ?_)
      · exact (ht.openGet (ht.entry_live hused.1)).install (window_lt hchild hilt)
          (by rw [openGet_fds]; exact hfree i (by simp)) child
      · have hji : j ≠ i := fun heq => hi (heq ▸ hj)
        rw [setFd_of_ne _ _ (by omega), openGet_fds]
        exact hfree j (mem_cons_of_mem i hj)
    · exact ih t hrest hlt' fun j hj => hfree j (mem_cons_of_mem i hj)

theorem vfsForkInherit_keeps (child parent : Nat) : Keeps t (t.vfsForkInherit child parent).2 := by
  unfold Table.vfsForkInherit
  split
  · exact .refl t
  rename_i hargs
  split
  · exact .refl t
  next hany =>
    simp only [List.any_eq_true, not_exists, not_and, List.mem_range] at hany
    exact forkLoop_keeps t (by omega) nodup_range
      (fun i hi => List.mem_range.mp hi)
      fun i hi => Bool.eq_false_of_not_eq_true (hany i (List.mem_range.mp hi))

variable {t}

theorem Exact.withTemps {h : Nat → Nat} (ht : Exact t h) (temps : Nat → Nat) :
    Exact {t with temps := temps} h :=
  ⟨{ht with}, ht.sides, ht.freshPipe⟩

theorem readPins_entry {count : Nat} (h : t.readPins task fd count = some d) :
    ∃ i, (t.fds i).used = true ∧ (t.fds i).open_ = d := by
  unfold Table.readPins at h
  split at h
  · cases h
  next i hi =>
    refine ⟨i, (resolve_some hi).1, ?_⟩
    repeat' split at h
    all_goals first | exact some.inj h | cases h

theorem writePins_entry {count : Nat} (h : t.writePins task fd count = some d) :
    ∃ i, (t.fds i).used = true ∧ (t.fds i).open_ = d := by
  unfold Table.writePins at h
  split at h
  · cases h
  next i hi =>
    refine ⟨i, (resolve_some hi).1, ?_⟩
    repeat' split at h
    all_goals first | exact some.inj h | cases h

theorem Exact.ioBegin (ht : Exact t t.temps)
    (hd : ∃ i, (t.fds i).used = true ∧ (t.fds i).open_ = d) :
    Exact (t.ioBegin d) (t.ioBegin d).temps := by
  obtain ⟨i, hused, rfl⟩ := hd
  exact (ht.openGet (ht.entry_live hused)).withTemps _

theorem Exact.ioEnd (ht : Exact t t.temps) (hd : 0 < t.temps d) :
    Exact (t.ioEnd d) (t.ioEnd d).temps := by
  have hheld : held (update t.temps d (t.temps d - 1)) d = t.temps := by
    unfold held
    rw [update_self, update_idem, Nat.sub_add_cancel hd, update_eq_self]
  have hback : Exact {t with temps := update t.temps d (t.temps d - 1)}
      (held (update t.temps d (t.temps d - 1)) d) := by
    rw [hheld]
    exact ht.withTemps _
  have hput := hback.openPut
  rwa [Table.ioEnd, openPut_temps]

theorem TableStep.exact_ {t' : Table} {op : TableOp} (ht : Exact t t.temps)
    (h : TableStep t op t') : Exact t' t'.temps := by
  have hkeeps : Keeps t t' → Exact t' t'.temps := fun hk => by
    rw [hk.temps]
    exact hk.exact_ _ ht
  cases h with
  | taskInit task kmalloc => exact hkeeps (vfsTaskInit_keeps t task kmalloc)
  | open_ task hkind flags kmalloc => exact hkeeps (vfsOpen_keeps t task _ flags kmalloc)
  | pipe task kmalloc => exact hkeeps (vfsPipe_keeps t task kmalloc)
  | dup task old => exact hkeeps (vfsDup_keeps t task old)
  | dup2 task old new => exact hkeeps (vfsDup2_keeps t task old new)
  | close task fd => exact hkeeps (vfsClose_keeps t task fd)
  | closeAll task => exact hkeeps (vfsCloseAll_keeps t task)
  | inheritStdio child parent spec => exact hkeeps (vfsInheritStdio_keeps t child parent spec)
  | forkInherit child parent => exact hkeeps (vfsForkInherit_keeps t child parent)
  | readBegin h => exact ht.ioBegin (readPins_entry h)
  | writeBegin h => exact ht.ioBegin (writePins_entry h)
  | ioEnd h => exact ht.ioEnd h

open Table

theorem Table.init_exact : Exact init init.temps := by
  have hentries : ∀ d, init.entries d = 0 := by
    intro d
    simp [entries, init]
  refine ⟨⟨fun d x hx => ?_, fun d => ?_, fun i hi => ?_, fun d _ => rfl, rfl⟩, ⟨fun q ends s hq => ?_,
    fun d x q hx => ?_, fun d x q hx => ?_, fun d d' x x' q hx => ?_⟩, fun q _ => rfl⟩
  · cases hx
  · rw [hentries]
    simp [init]
  · cases hi
  · cases hq
  all_goals cases hx

/-- Reference counts are exact in every reachable table: each live description
counts the entries that point to it and the references of I/O in flight, it is
on the heap exactly while there is one, no call has touched a freed object, and
the flag of a pipe side says whether the description of that side is live. -/
theorem refcounts_exact {ops : List TableOp} {t : Table} (h : Run TableStep Table.init ops t) :
    (∀ d desc, t.heap d = some desc → desc.refcount = t.entries d + t.temps d) ∧
    (∀ d, t.heap d ≠ none ↔ 0 < t.entries d + t.temps d) ∧ t.fault = false ∧
    ∀ q ends, t.pipes q = some ends → ∀ s, ends.alive s = true ↔
      ∃ d desc, t.heap d = some desc ∧ desc.kind.side = some s ∧ desc.pipe = some q := by
  have ht : Exact t t.temps :=
    h.invariant (I := fun t => Exact t t.temps) (fun _ _ _ ht hstep => hstep.exact_ ht)
      Table.init_exact
  exact ⟨ht.count, ht.live, ht.fault, fun q ends hq s => ht.sides.alive q ends s hq⟩

def pipeOpened : Table := Table.init.vfsPipe 0 true
def pipeDuplicated : Table := (pipeOpened.vfsDup 0 0).2

theorem refcounts_exact_duplicated : pipeDuplicated.fault = false ∧
    (pipeDuplicated.heap 1 ≠ none ↔ 0 < pipeDuplicated.entries 1 + pipeDuplicated.temps 1) := by
  have hrun : Run TableStep Table.init [.pipe 0 true, .dup 0 0] pipeDuplicated :=
    .cons (.pipe _ 0 true) (.cons (.dup _ 0 0) (.nil _))
  obtain ⟨-, hlive, hfault, -⟩ := refcounts_exact hrun
  exact ⟨hfault, hlive 1⟩

end Kyuzen.Vfs
