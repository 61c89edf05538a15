import Kyuzen.Gfx.Kwm

/-!
The stacking order and the references to slots over every run of the window
manager: distinct z values below the counter, the desktop at the bottom, and focus,
drag and hover on windows that exist.
-/

namespace Kyuzen.Gfx

open Function List

namespace Kwm

variable {win : Win} {v : Slot} {s s' : Kwm} {w : Slot}

/-- `z_index` of a slot. -/
abbrev z (s : Kwm) (w : Slot) : Nat := (s.wins w).zIndex

abbrev isActive (s : Kwm) (w : Slot) : Prop := (s.wins w).active = true

theorem isNormal_iff : s.isNormal w = true ↔ s.isActive w ∧ (s.wins w).desktop = false := by
  rw [isNormal, Bool.and_eq_true, Bool.not_eq_true']

theorem isNormal_congr (h : (s'.wins w).active = (s.wins w).active)
    (h' : (s'.wins w).desktop = (s.wins w).desktop) : s'.isNormal w = s.isNormal w := by
  rw [isNormal, isNormal, h, h']

/-- The z values of the windows that `keep` picks are well placed. -/
structure StackedOn (s : Kwm) (keep : Slot → Prop) : Prop where
  distinct : ∀ {u v}, keep u → keep v → s.isActive u → s.isActive v → s.z u = s.z v → u = v
  normal : ∀ {v}, keep v → s.isNormal v = true → 1 ≤ s.z v ∧ s.z v < s.nextZIndex
  desktop : ∀ {v}, keep v → s.isActive v → (s.wins v).desktop = true → s.z v = 0

/-- The z values are well placed, and the counter is small. -/
structure Stacked (s : Kwm) : Prop extends s.StackedOn fun _ => True where
  pos : 1 ≤ s.nextZIndex
  next : s.nextZIndex ≤ 17

theorem StackedOn.shrink {keep keep' : Slot → Prop} (hs : s.StackedOn keep)
    (hkeep : ∀ {v}, keep' v → s'.isActive v → keep v)
    (hwin : ∀ {v}, keep' v → s'.isActive v →
      s.isActive v ∧ (s'.wins v).desktop = (s.wins v).desktop ∧ s'.z v = s.z v)
    (hnext : s'.nextZIndex = s.nextZIndex) : s'.StackedOn keep' := by
  constructor
  case distinct =>
    intro u v hu hv hau hav heq
    obtain ⟨hau', -, hzu⟩ := hwin hu hau
    obtain ⟨hav', -, hzv⟩ := hwin hv hav
    rw [hzu, hzv] at heq
    exact hs.distinct (hkeep hu hau) (hkeep hv hav) hau' hav' heq
  case normal =>
    intro v hv hn
    have hav := (isNormal_iff.mp hn).1
    obtain ⟨hav', hd, hz⟩ := hwin hv hav
    rw [hz, hnext]
    exact hs.normal (hkeep hv hav) (isNormal_iff.mpr ⟨hav', hd ▸ (isNormal_iff.mp hn).2⟩)
  case desktop =>
    intro v hv hav hd
    obtain ⟨hav', hd', hz⟩ := hwin hv hav
    rw [hz]
    exact hs.desktop (hkeep hv hav) hav' (hd' ▸ hd)

theorem Stacked.shrink (hs : s.Stacked) (hwin : ∀ {v}, s'.isActive v →
      s.isActive v ∧ (s'.wins v).desktop = (s.wins v).desktop ∧ s'.z v = s.z v)
    (hnext : s'.nextZIndex = s.nextZIndex) : s'.Stacked where
  toStackedOn := hs.toStackedOn.shrink (fun _ _ => trivial) (fun _ hv => hwin hv) hnext
  pos := by
    rw [hnext]
    exact hs.pos
  next := by
    rw [hnext]
    exact hs.next

/-! ### Renumbering -/

theorem normalOrder_perm (s : Kwm) : s.normalOrder.Perm ((finRange 16).filter s.isNormal) :=
  insertionByKey_perm _ _

theorem mem_normalOrder : w ∈ s.normalOrder ↔ s.isNormal w = true := by
  rw [s.normalOrder_perm.mem_iff, mem_filter, and_iff_right (mem_finRange w)]

theorem normalOrder_length (s : Kwm) : s.normalOrder.length ≤ 16 := by
  rw [s.normalOrder_perm.length_eq]
  have := length_filter_le s.isNormal (finRange 16)
  rw [length_finRange] at this
  exact this

theorem wins_normalize (s : Kwm) (w : Slot) :
    s.kwmNormalizeZindex.wins w = {s.wins w with zIndex := s.kwmNormalizeZindex.z w} := by
  simp only [kwmNormalizeZindex, z]
  split <;> rfl

theorem z_normalize (h : s.isNormal w = true) :
    s.kwmNormalizeZindex.z w = s.normalOrder.idxOf w + 1 := by
  simp [kwmNormalizeZindex, z, if_pos (mem_normalOrder.mpr h)]

theorem z_normalize_desktop (h : ¬ s.isNormal w = true) : s.kwmNormalizeZindex.z w = s.z w := by
  simp [kwmNormalizeZindex, z, if_neg (fun hmem => h (mem_normalOrder.mp hmem))]

theorem z_normalize_lt_iff {u : Slot} (hu : s.isNormal u = true) (hv : s.isNormal v = true)
    (hne : s.z u = s.z v → u = v) :
    s.kwmNormalizeZindex.z u < s.kwmNormalizeZindex.z v ↔ s.z u < s.z v := by
  rw [z_normalize hu, z_normalize hv, Nat.add_lt_add_iff_right]
  exact idxOf_lt_idxOf_iff (fun w => (s.wins w).zIndex) (insertionByKey_sorted _ _)
    (mem_normalOrder.mpr hu) (mem_normalOrder.mpr hv) hne

theorem isNormal_normalize (s : Kwm) (w : Slot) :
    s.kwmNormalizeZindex.isNormal w = s.isNormal w := by
  apply isNormal_congr <;> rw [wins_normalize]

/-- The values that the z values of a counter before its compaction take. -/
structure Placed (s : Kwm) : Prop where
  distinct : ∀ {u v}, s.isActive u → s.isActive v → s.z u = s.z v → u = v
  normal : ∀ {v}, s.isNormal v = true → 1 ≤ s.z v
  desktop : ∀ {v}, s.isActive v → (s.wins v).desktop = true → s.z v = 0

theorem Placed.normalize_lt_iff (hs : s.Placed) {u : Slot} (hu : s.isActive u) (hv : s.isActive v) :
    s.kwmNormalizeZindex.z u < s.kwmNormalizeZindex.z v ↔ s.z u < s.z v := by
  by_cases hnu : s.isNormal u = true <;> by_cases hnv : s.isNormal v = true
  · exact z_normalize_lt_iff hnu hnv (hs.distinct hu hv)
  · have hdv : (s.wins v).desktop = true := by
      by_contra hd
      exact hnv (isNormal_iff.mpr ⟨hv, Bool.eq_false_of_not_eq_true hd⟩)
    rw [z_normalize_desktop hnv, hs.desktop hv hdv]
    simp
  · have hdu : (s.wins u).desktop = true := by
      by_contra hd
      exact hnu (isNormal_iff.mpr ⟨hu, Bool.eq_false_of_not_eq_true hd⟩)
    have hz := hs.normal hnv
    rw [z_normalize_desktop hnu, hs.desktop hu hdu, z_normalize hnv]
    omega
  · rw [z_normalize_desktop hnu, z_normalize_desktop hnv]

theorem Placed.normalize (hs : s.Placed) : s.kwmNormalizeZindex.Stacked := by
  have hactive : ∀ v, s.kwmNormalizeZindex.isActive v ↔ s.isActive v := by
    intro v
    rw [isActive, wins_normalize]
  refine { distinct := ?_, normal := ?_, desktop := ?_, pos := Nat.le_add_left 1 _, next := ?_ }
  · intro u v _ _ hu hv heq
    have hu := (hactive u).mp hu
    have hv := (hactive v).mp hv
    apply hs.distinct hu hv
    have h₁ := hs.normalize_lt_iff hu hv
    have h₂ := hs.normalize_lt_iff hv hu
    omega
  · intro v _ hv
    rw [isNormal_normalize] at hv
    rw [z_normalize hv]
    have := idxOf_lt_length_iff.mpr (mem_normalOrder.mpr hv)
    refine ⟨Nat.le_add_left 1 _, ?_⟩
    show _ < s.normalOrder.length + 1
    omega
  · intro v _ hv hd
    rw [wins_normalize] at hd
    have hnot : ¬ s.isNormal v = true := fun hn => by
      have := (isNormal_iff.mp hn).2
      rw [this] at hd
      exact nomatch hd
    rw [z_normalize_desktop hnot]
    exact hs.desktop ((hactive v).mp hv) hd
  · show s.normalOrder.length + 1 ≤ 17
    have := s.normalOrder_length
    omega

/-! ### Bringing a window to the front -/

/-- `w` is now the topmost window, and the others are as before, in the same order. -/
structure Raised (s s' : Kwm) (w : Slot) : Prop where
  normal : s'.isNormal w = true
  top : ∀ v, v ≠ w → s'.isActive v → s'.z v < s'.z w
  others : ∀ v, v ≠ w → (s'.isActive v ↔ s.isActive v)
  order : ∀ u v, u ≠ w → v ≠ w → s.isActive u → s.isActive v → (s'.z u < s'.z v ↔ s.z u < s.z v)

/-- Both parts of `kwm_bring_to_front`: the new z value, and the renumbering. -/
def onTop (s : Kwm) (w : Slot) : Kwm :=
  {s.setWin w {s.wins w with zIndex := s.nextZIndex} with nextZIndex := s.nextZIndex + 1}

theorem kwmBringToFront_eq (s : Kwm) (w : Slot) : s.kwmBringToFront w =
      if 16 < s.nextZIndex + 1 then (s.onTop w).kwmNormalizeZindex else s.onTop w :=
  rfl

theorem wins_onTop (s : Kwm) (w v : Slot) :
    (s.onTop w).wins v = if v = w then {s.wins w with zIndex := s.nextZIndex} else s.wins v := by
  simp only [onTop, setWin, update_apply]

theorem wins_onTop_eq (s : Kwm) (w v : Slot) :
    (s.onTop w).wins v = {s.wins v with zIndex := (s.onTop w).z v} := by
  rw [z, wins_onTop]
  split
  next h => rw [h]
  · rfl

theorem z_onTop_self (s : Kwm) (w : Slot) : (s.onTop w).z w = s.nextZIndex := by
  rw [z, wins_onTop, if_pos rfl]

theorem z_onTop_ne (h : v ≠ w) : (s.onTop w).z v = s.z v := by
  rw [z, wins_onTop, if_neg h]

theorem wins_kwmBringToFront (s : Kwm) (w v : Slot) :
    (s.kwmBringToFront w).wins v = {s.wins v with zIndex := (s.kwmBringToFront w).z v} := by
  rw [kwmBringToFront_eq]
  split
  · rw [wins_normalize, wins_onTop_eq]
  · exact wins_onTop_eq s w v

theorem isActive_kwmBringToFront (s : Kwm) (w v : Slot) :
    (s.kwmBringToFront w).isActive v ↔ s.isActive v := by
  rw [isActive, wins_kwmBringToFront]

theorem isNormal_kwmBringToFront (s : Kwm) (w v : Slot) :
    (s.kwmBringToFront w).isNormal v = s.isNormal v := by
  apply isNormal_congr <;> rw [wins_kwmBringToFront]

theorem refs_kwmBringToFront (s : Kwm) (w : Slot) :
    (s.kwmBringToFront w).focusedWin = s.focusedWin ∧
      (s.kwmBringToFront w).draggedWin = s.draggedWin ∧
      (s.kwmBringToFront w).hoveredClose = s.hoveredClose ∧
      (s.kwmBringToFront w).dragOffset = s.dragOffset ∧
      (s.kwmBringToFront w).altTabActive = s.altTabActive := by
  rw [kwmBringToFront_eq]
  split <;> exact ⟨rfl, rfl, rfl, rfl, rfl⟩

section
variable (hs : s.StackedOn (· ≠ w)) (hw : s.isNormal w = true) (hnext : 1 ≤ s.nextZIndex)
include hs hw hnext

/-- `w` is on top of windows that are well placed without it. -/
theorem placed_onTop : (s.onTop w).Placed ∧ ∀ v ≠ w, s.isActive v → s.z v < s.nextZIndex := by
  have hbelow : ∀ v ≠ w, s.isActive v → s.z v < s.nextZIndex := by
    intro v hv hav
    cases hd : (s.wins v).desktop with
    | true =>
      rw [hs.desktop hv hav hd]
      exact hnext
    | false => exact (hs.normal hv (isNormal_iff.mpr ⟨hav, hd⟩)).2
  have hactive : ∀ v, (s.onTop w).isActive v ↔ s.isActive v := by
    intro v
    rw [isActive, wins_onTop_eq]
  have hnormal : ∀ v, (s.onTop w).isNormal v = s.isNormal v := by
    intro v
    apply isNormal_congr <;> rw [wins_onTop_eq]
  refine ⟨?_, hbelow⟩
  constructor
  case distinct =>
    intro u v hu hv heq
    have hu := (hactive u).mp hu
    have hv := (hactive v).mp hv
    by_cases huw : u = w <;> by_cases hvw : v = w
    · rw [huw, hvw]
    · rw [huw, z_onTop_self, z_onTop_ne hvw] at heq
      have := hbelow v hvw hv
      omega
    · rw [hvw, z_onTop_self, z_onTop_ne huw] at heq
      have := hbelow u huw hu
      omega
    · rw [z_onTop_ne huw, z_onTop_ne hvw] at heq
      exact hs.distinct huw hvw hu hv heq
  case normal =>
    intro v hv
    by_cases hvw : v = w
    · rw [hvw, z_onTop_self]
      exact hnext
    · rw [z_onTop_ne hvw]
      exact (hs.normal hvw (hnormal v ▸ hv)).1
  case desktop =>
    intro v hv hd
    rw [wins_onTop_eq] at hd
    have hvw : v ≠ w := by
      rintro rfl
      exact Bool.false_ne_true ((isNormal_iff.mp hw).2.symm.trans hd)
    rw [z_onTop_ne hvw]
    exact hs.desktop hvw ((hactive v).mp hv) hd

theorem StackedOn.raise : (s.kwmBringToFront w).Stacked ∧ Raised s (s.kwmBringToFront w) w := by
  obtain ⟨hplaced, hbelow⟩ := placed_onTop hs hw hnext
  have hactive : ∀ v, (s.onTop w).isActive v ↔ s.isActive v := by
    intro v
    rw [isActive, wins_onTop_eq]
  -- the order that the new z value gives, which the renumbering keeps
  have hlt : ∀ u v, s.isActive u → s.isActive v →
      ((s.kwmBringToFront w).z u < (s.kwmBringToFront w).z v ↔
        (s.onTop w).z u < (s.onTop w).z v) := by
    intro u v hu hv
    rw [kwmBringToFront_eq]
    split
    · exact hplaced.normalize_lt_iff ((hactive u).mpr hu) ((hactive v).mpr hv)
    · rfl
  refine ⟨?_, ?_⟩
  · rw [kwmBringToFront_eq]
    split
    · exact hplaced.normalize
    next hroom =>
      refine { distinct := fun _ _ => hplaced.distinct, normal := ?_,
               desktop := fun _ => hplaced.desktop, pos := Nat.le_add_left 1 _, next := ?_ }
      · intro v _ hv
        refine ⟨hplaced.normal hv, ?_⟩
        show _ < s.nextZIndex + 1
        by_cases hvw : v = w
        · rw [hvw, z_onTop_self]
          exact Nat.lt_succ_self _
        · rw [z_onTop_ne hvw]
          have := hbelow v hvw ((hactive v).mp (isNormal_iff.mp hv).1)
          omega
      · show s.nextZIndex + 1 ≤ 17
        omega
  · constructor
    case normal =>
      rw [isNormal_kwmBringToFront]
      exact hw
    case top =>
      intro v hv hav
      have hav := (isActive_kwmBringToFront s w v).mp hav
      rw [hlt v w hav (isNormal_iff.mp hw).1, z_onTop_self, z_onTop_ne hv]
      exact hbelow v hv hav
    case others => exact fun v _ => isActive_kwmBringToFront s w v
    case order =>
      intro u v hu hv hau hav
      rw [hlt u v hau hav, z_onTop_ne hu, z_onTop_ne hv]

end

/-! ### What every operation keeps -/

/-- The order and the drag and hover references, as they are inside a section too. -/
structure Kept (s : Kwm) : Prop extends Stacked s where
  dragged : ∀ {w}, s.draggedWin = some w → s.isNormal w = true
  hovered : ∀ {w}, s.hoveredClose = some w → s.isNormal w = true

structure Inv (s : Kwm) : Prop extends Kept s where
  focused : ∀ {w}, s.focusedWin = some w → s.isNormal w = true

theorem inv_init : init.Inv := by
  have hoff : ∀ v, ¬ init.isActive v := nofun
  refine { distinct := fun _ _ h => absurd h (hoff _), normal := ?_,
           desktop := fun _ h => absurd h (hoff _), pos := le_rfl, next := by decide,
           dragged := nofun, hovered := nofun,
           focused := nofun }
  exact fun _ h => absurd (isNormal_iff.mp h).1 (hoff _)

def SameOrder (s s' : Kwm) : Prop :=
  (∀ v, (s'.wins v).active = (s.wins v).active ∧ (s'.wins v).desktop = (s.wins v).desktop ∧
    s'.z v = s.z v) ∧ s'.nextZIndex = s.nextZIndex

theorem SameOrder.isNormal (h : SameOrder s s') (v : Slot) : s'.isNormal v = s.isNormal v :=
  isNormal_congr (h.1 v).1 (h.1 v).2.1

theorem SameOrder.stacked (h : SameOrder s s') (hs : s.Stacked) : s'.Stacked := by
  refine hs.shrink (fun {v} hv => ?_) h.2
  obtain ⟨ha, hd, hz⟩ := h.1 v
  exact ⟨ha.symm.trans hv, hd, hz⟩

theorem Inv.sameOrder (hs : s.Inv) (h : SameOrder s s')
    (hdragged : ∀ {w}, s'.draggedWin = some w → s.isNormal w = true)
    (hhovered : ∀ {w}, s'.hoveredClose = some w → s.isNormal w = true)
    (hfocused : ∀ {w}, s'.focusedWin = some w → s.isNormal w = true) : s'.Inv where
  toStacked := h.stacked hs.toStacked
  dragged hw := by
    rw [h.isNormal]
    exact hdragged hw
  hovered hw := by
    rw [h.isNormal]
    exact hhovered hw
  focused hw := by
    rw [h.isNormal]
    exact hfocused hw

theorem sameOrder_setWin (ha : win.active = (s.wins w).active)
    (hd : win.desktop = (s.wins w).desktop) (hz : win.zIndex = (s.wins w).zIndex) :
    SameOrder s (s.setWin w win) := by
  refine ⟨fun v => ?_, rfl⟩
  simp only [setWin, z, update_apply]
  split
  next h =>
    subst h
    exact ⟨ha, hd, hz⟩
  · exact ⟨rfl, rfl, rfl⟩

theorem Inv.setWin (hs : s.Inv) (ha : win.active = (s.wins w).active)
    (hd : win.desktop = (s.wins w).desktop) (hz : win.zIndex = (s.wins w).zIndex) :
    (s.setWin w win).Inv :=
  hs.sameOrder (sameOrder_setWin ha hd hz) hs.dragged hs.hovered hs.focused

theorem StackedOn.raise_focus (hs : s.StackedOn (· ≠ w)) (hw : s.isNormal w = true)
    (hpos : 1 ≤ s.nextZIndex) (hdragged : ∀ {v}, s.draggedWin = some v → s.isNormal v = true)
    (hhovered : ∀ {v}, s.hoveredClose = some v → s.isNormal v = true) :
    {s.kwmBringToFront w with focusedWin := some w}.Inv ∧
      Raised s {s.kwmBringToFront w with focusedWin := some w} w := by
  obtain ⟨hstacked, hraised⟩ := hs.raise hw hpos
  obtain ⟨-, hdrag, hhover, -, -⟩ := refs_kwmBringToFront s w
  have hnormal : ∀ {v}, s.isNormal v = true → (s.kwmBringToFront w).isNormal v = true := by
    intro v hv
    rw [isNormal_kwmBringToFront]
    exact hv
  refine ⟨{ toStackedOn := hstacked.toStackedOn.shrink (fun _ _ => trivial)
              (fun _ hv => ⟨hv, rfl, rfl⟩) rfl,
            pos := hstacked.pos, next := hstacked.next,
            dragged := fun hv => hnormal (hdragged (hdrag ▸ hv)),
            hovered := fun hv => hnormal (hhovered (hhover ▸ hv)), focused := ?_ },
          {hraised with}⟩
  intro v hv
  obtain rfl := Option.some.inj hv
  exact hraised.normal

/-- Activation, a click, Alt-Tab. -/
theorem Inv.raise (hs : s.Inv) (hw : s.isNormal w = true) :
    {s.kwmBringToFront w with focusedWin := some w}.Inv ∧
      Raised s {s.kwmBringToFront w with focusedWin := some w} w := by
  have hbut : s.StackedOn (· ≠ w) :=
    hs.toStackedOn.shrink (fun _ _ => trivial) (fun _ hv => ⟨hv, rfl, rfl⟩) rfl
  exact hbut.raise_focus hw hs.pos hs.dragged hs.hovered

theorem firstFree_inactive (h : s.firstFree = some w) : ¬ s.isActive w := by
  have := find?_some h
  rw [Bool.not_eq_true'] at this
  exact ne_true_of_eq_false this

theorem wins_setWin_ne (h : v ≠ w) : (s.setWin w win).wins v = s.wins v := update_of_ne h _ _

theorem wins_setWin_self : (s.setWin w win).wins w = win := update_self _ _ _

theorem isNormal_setWin_ne (h : v ≠ w) : (s.setWin w win).isNormal v = s.isNormal v := by
  rw [isNormal, isNormal, wins_setWin_ne h]

theorem Inv.create (hs : s.Inv) (hw : ¬ s.isActive w) (ha : win.active = true)
    (hd : win.desktop = false) :
    {(s.setWin w win).kwmBringToFront w with focusedWin := some w}.Inv ∧
      Raised s {(s.setWin w win).kwmBringToFront w with focusedWin := some w} w := by
  have hbut : (s.setWin w win).StackedOn (· ≠ w) := by
    refine hs.toStackedOn.shrink (fun _ _ => trivial) (fun hv hav => ?_) rfl
    rw [isActive, wins_setWin_ne hv] at hav
    rw [z, wins_setWin_ne hv]
    exact ⟨hav, rfl, rfl⟩
  have hn : (s.setWin w win).isNormal w = true := by
    rw [isNormal_iff, isActive, wins_setWin_self]
    exact ⟨ha, hd⟩
  have hold : ∀ {v}, s.isNormal v = true → (s.setWin w win).isNormal v = true := by
    intro v hv
    have hvw : v ≠ w := fun h => hw (h ▸ (isNormal_iff.mp hv).1)
    rw [isNormal_setWin_ne hvw]
    exact hv
  obtain ⟨hinv, hraised⟩ := hbut.raise_focus hn hs.pos (fun hv => hold (hs.dragged hv))
    fun hv => hold (hs.hovered hv)
  refine ⟨hinv, hraised.normal, hraised.top, ?_, ?_⟩
  · intro v hv
    have := hraised.others v hv
    rw [isActive, isActive, wins_setWin_ne hv] at this
    exact this
  · intro u v hu hv hau hav
    have := hraised.order u v hu hv
    rw [isActive, isActive, z, z, z, z, wins_setWin_ne hu, wins_setWin_ne hv] at this
    exact this hau hav

theorem Inv.createDesktop (hs : s.Inv) (hw : ¬ s.isActive w)
    (hnone : ∀ v, s.isActive v → (s.wins v).desktop = false) (hd : win.desktop = true)
    (hz : win.zIndex = 0) : (s.setWin w win).Inv := by
  have hne : ∀ {v}, s.isNormal v = true → v ≠ w := fun hv h => hw (h ▸ (isNormal_iff.mp hv).1)
  have hnormal : ∀ {v}, s.isActive v → 1 ≤ s.z v := fun hv =>
    (hs.normal trivial (isNormal_iff.mpr ⟨hv, hnone _ hv⟩)).1
  have hkeep : ∀ {v}, s.isNormal v = true → (s.setWin w win).isNormal v = true := by
    intro v hv
    rw [isNormal_setWin_ne (hne hv)]
    exact hv
  refine { distinct := ?_, normal := ?_, desktop := ?_, pos := hs.pos, next := hs.next,
           dragged := fun h => hkeep (hs.dragged h), hovered := fun h => hkeep (hs.hovered h),
           focused := fun h => hkeep (hs.focused h) }
  · intro u v _ _ hu hv heq
    by_cases huw : u = w <;> by_cases hvw : v = w
    · rw [huw, hvw]
    · subst huw
      rw [isActive, wins_setWin_ne hvw] at hv
      rw [z, z, wins_setWin_self, hz, wins_setWin_ne hvw] at heq
      have : 1 ≤ (s.wins v).zIndex := hnormal hv
      omega
    · subst hvw
      rw [isActive, wins_setWin_ne huw] at hu
      rw [z, z, wins_setWin_self, hz, wins_setWin_ne huw] at heq
      have : 1 ≤ (s.wins u).zIndex := hnormal hu
      omega
    · rw [isActive, wins_setWin_ne hvw] at hv
      rw [isActive, wins_setWin_ne huw] at hu
      rw [z, z, wins_setWin_ne huw, wins_setWin_ne hvw] at heq
      exact hs.distinct trivial trivial hu hv heq
  · intro v _ hv
    by_cases hvw : v = w
    · subst hvw
      rw [isNormal_iff, wins_setWin_self] at hv
      exact absurd (hd.symm.trans hv.2) nofun
    · rw [isNormal_setWin_ne hvw] at hv
      rw [z, wins_setWin_ne hvw]
      exact hs.normal trivial hv
  · intro v _ hav hdv
    by_cases hvw : v = w
    · subst hvw
      rw [z, wins_setWin_self]
      exact hz
    · rw [isActive, wins_setWin_ne hvw] at hav
      rw [wins_setWin_ne hvw] at hdv
      rw [z, wins_setWin_ne hvw]
      exact hs.desktop trivial hav hdv

/-! ### Freed slots -/

theorem wins_kwmFreeSlot_ne (h : v ≠ w) : (s.kwmFreeSlot w).wins v = s.wins v := wins_setWin_ne h

theorem isActive_kwmFreeSlot_self (s : Kwm) (w : Slot) : ¬ (s.kwmFreeSlot w).isActive w := by
  simp [isActive, kwmFreeSlot, wins_setWin_self, Bool.false_eq_true]

theorem Kept.free (hs : s.Kept) (w : Slot) : (s.kwmFreeSlot w).Kept := by
  have hne : ∀ {v}, (s.kwmFreeSlot w).isActive v → v ≠ w :=
    fun hv h => isActive_kwmFreeSlot_self s w (h ▸ hv)
  have hstacked : (s.kwmFreeSlot w).Stacked := by
    refine hs.shrink (fun hv => ?_) rfl
    have hvw := hne hv
    rw [isActive, wins_kwmFreeSlot_ne hvw] at hv
    rw [z, wins_kwmFreeSlot_ne hvw]
    exact ⟨hv, rfl, rfl⟩
  have href : ∀ {r : Option Slot} {v}, (if r = some w then none else r) = some v →
      (r = some v → s.isNormal v = true) → (s.kwmFreeSlot w).isNormal v = true := by
    intro r v hr hv
    split at hr
    · exact nomatch hr
    next hrw =>
      have hvw : v ≠ w := fun h => hrw (h ▸ hr)
      rw [isNormal, wins_kwmFreeSlot_ne hvw]
      exact hv hr
  exact { toStacked := hstacked, dragged := fun h => href h hs.dragged,
          hovered := fun h => href h hs.hovered }

theorem highestNormal_some {low : Int} (h : s.highestNormal low = some w) : s.isNormal w = true :=
  (scanMax_some h).2.1

theorem Kept.refocus (hs : s.Kept) : s.kwmRefocus.Inv where
  __ := hs
  toStackedOn := hs.toStackedOn.shrink (fun _ _ => trivial) (fun _ hv => ⟨hv, rfl, rfl⟩) rfl
  focused := highestNormal_some

/-- What the loop of a destruction over the slots of `l` does to the table and its marks. -/
structure Destroyed (gone : Win → Bool) (l : List Slot) (acc acc' : Kwm × List Rect) : Prop where
  kept : acc.1.Kept → acc'.1.Kept
  refs : acc'.1.focusedWin = acc.1.focusedWin ∧ acc'.1.nextZIndex = acc.1.nextZIndex
  hovered : ∀ {w}, acc'.1.hoveredClose = some w → acc.1.hoveredClose = some w
  hoverKept : ∀ {w}, acc.1.hoveredClose = some w →
    acc'.1.hoveredClose = some w ∨ ¬ acc'.1.isActive w
  wins : ∀ v, acc'.1.wins v = acc.1.wins v ∧ (v ∈ l → acc.1.isActive v → gone (acc.1.wins v) = false) ∨
    v ∈ l ∧ acc.1.isActive v ∧ gone (acc.1.wins v) = true ∧ ¬ acc'.1.isActive v ∧
      destroyBounds (acc.1.wins v) ∈ acc'.2
  marks : acc.2 ⊆ acc'.2

theorem destroyed_foldl (gone : Win → Bool) (l : List Slot) (acc : Kwm × List Rect) :
    Destroyed gone l acc (l.foldl (destroyNext gone) acc) := by
  induction l generalizing acc with
  | nil =>
    exact ⟨id, ⟨rfl, rfl⟩, id, .inl, fun v => .inl ⟨rfl, nofun⟩, List.Subset.refl _⟩
  | cons w l ih =>
    have hrest := ih (destroyNext gone acc w)
    rw [foldl_cons]
    generalize l.foldl (destroyNext gone) (destroyNext gone acc w) = acc' at hrest ⊢
    unfold destroyNext at hrest
    split at hrest
    next hgone =>
      have hgone := (Bool.and_eq_true _ _).mp hgone
      have hoff : ¬ acc'.1.isActive w := by
        rcases hrest.wins w with h | h
        · rw [isActive, h.1]
          exact isActive_kwmFreeSlot_self _ _
        · exact h.2.2.2.1
      refine ⟨fun hk => hrest.kept (hk.free w), hrest.refs, ?_, ?_, ?_, ?_⟩
      · intro v hv
        have hv := hrest.hovered hv
        simp only [kwmFreeSlot] at hv
        split at hv
        · exact nomatch hv
        · exact hv
      · intro v hv
        by_cases hvw : v = w
        · exact .inr (hvw ▸ hoff)
        · apply hrest.hoverKept
          simp [kwmFreeSlot, hv, Option.some.injEq, if_neg hvw]
      · intro v
        by_cases hvw : v = w
        · subst hvw
          exact .inr ⟨List.mem_cons_self, hgone.1, hgone.2, hoff,
            hrest.marks (mem_append_right _ List.mem_cons_self)⟩
        · have hv := hrest.wins v
          rw [isActive, wins_kwmFreeSlot_ne hvw] at hv
          rw [List.mem_cons, or_iff_right hvw]
          exact hv
      · exact fun r hr => hrest.marks (mem_append_left _ hr)
    next hstay =>
      refine {hrest with wins := ?_}
      intro v
      rcases hrest.wins v with h | h
      · refine .inl ⟨h.1, ?_⟩
        intro hv hav
        rcases List.mem_cons.mp hv with rfl | hv
        · rw [Bool.and_eq_true, not_and] at hstay
          exact Bool.eq_false_of_not_eq_true (hstay hav)
        · exact h.2 hv hav
      · exact .inr ⟨List.mem_cons_of_mem _ h.1, h.2⟩

theorem destroyed_destroyWins (s : Kwm) (gone : Win → Bool) :
    Destroyed gone (finRange 16) (s, []) (s.destroyWins gone) :=
  destroyed_foldl gone _ _

theorem wins_kwmDestroyWindowsOf (s : Kwm) (task : Int) : (s.kwmDestroyWindowsOf task).1.wins =
    (s.destroyWins fun win => decide (win.ownerTask = task)).1.wins := by
  unfold kwmDestroyWindowsOf
  split <;> rfl

end Kwm

end Kyuzen.Gfx
