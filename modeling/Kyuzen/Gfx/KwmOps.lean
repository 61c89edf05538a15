import Kyuzen.Gfx.KwmInv

/-!
Each operation of the window manager keeps its invariant, the windows it brings
to the front, and the paint order that hit testing agrees with.
-/

namespace Kyuzen.Gfx

open List Option

namespace Kwm

variable {p : Point} {mode : Nat × Nat} {s s' : Kwm} {w : Slot}

theorem kwmHitTest_active (h : s.kwmHitTest p = some w) : s.isActive w ∧ p ∈ (s.wins w).frame :=
  (scanMax_some h).2.1

theorem lowestAbove_normal {cur : Int} (h : s.lowestAbove cur = some w) : s.isNormal w = true :=
  (scanMin_some h).2.1

theorem cycleTarget_normal (h : s.cycleTarget = some w) : s.isNormal w = true := by
  unfold cycleTarget at h
  split at h
  · exact highestNormal_some h
  · split at h
    next v hv =>
      obtain rfl := some.inj h
      exact lowestAbove_normal hv
    · exact lowestAbove_normal h

theorem closeUnder_normal (h : s.closeUnder p = some w) : s.isNormal w = true := by
  unfold closeUnder at h
  split at h
  · exact nomatch h
  next v hv =>
    split at h
    next hclose =>
      obtain rfl := some.inj h
      exact isNormal_iff.mpr ⟨(kwmHitTest_active hv).1, hclose.1⟩
    · exact nomatch h

section Steps

variable (hs : s.Inv)
include hs

theorem Inv.kwmCreateWindow (owner x y : Int) (width height : Nat) (canvas : Bool) :
    (s.kwmCreateWindow owner x y width height canvas).1.Inv := by
  unfold Kwm.kwmCreateWindow
  split
  · exact hs
  split
  · exact hs
  next w hw => exact (hs.create (firstFree_inactive hw) rfl rfl).1

theorem Inv.kwmCreateDesktop (owner : Int) (mode : Nat × Nat) (canvas : Bool) :
    (s.kwmCreateDesktop owner mode canvas).1.Inv := by
  unfold Kwm.kwmCreateDesktop
  split
  · exact hs
  split
  · exact hs
  next hnone =>
    split
    · exact hs
    next w hw =>
      refine hs.createDesktop (firstFree_inactive hw) ?_ rfl rfl
      intro v hv
      by_contra hd
      apply hnone
      refine any_eq_true.mpr ⟨v, mem_finRange v, ?_⟩
      rw [Bool.and_eq_true]
      exact ⟨hv, Bool.eq_true_of_not_eq_false hd⟩

theorem Inv.kwmSetTitle (task id : Int) (title : List UInt8) :
    (s.kwmSetTitle task id title).1.Inv := by
  fun_cases kwmSetTitle
  all_goals first | exact hs | exact hs.setWin rfl rfl rfl

theorem Inv.kwmActivateWindow (id : Int) : (s.kwmActivateWindow id).1.Inv := by
  unfold Kwm.kwmActivateWindow
  split
  · exact hs
  split
  · exact hs
  next hn => exact (hs.raise (Bool.eq_true_of_not_eq_false hn)).1

theorem Inv.kwmUpdateWindow (task id : Int) (src : Canvas) :
    (s.kwmUpdateWindow task id src).1.Inv := by
  fun_cases kwmUpdateWindow
  all_goals first | exact hs | exact hs.setWin rfl rfl rfl

theorem Inv.kwmUpdateWindowRect (task id x y : Int) (width height : Nat) (src : Canvas) :
    (s.kwmUpdateWindowRect task id x y width height src).1.Inv := by
  fun_cases kwmUpdateWindowRect
  all_goals first | exact hs | exact hs.setWin rfl rfl rfl

theorem Inv.kwmSetWindowOpaque (task id : Int) : (s.kwmSetWindowOpaque task id).Inv := by
  unfold Kwm.kwmSetWindowOpaque
  split
  · exact hs
  · exact hs.setWin rfl rfl rfl

theorem Inv.kwmDestroyWindow (id : Int) : (s.kwmDestroyWindow id).1.Inv := by
  unfold Kwm.kwmDestroyWindow
  split
  · exact hs
  next w _ =>
    dsimp only
    split
    · exact hs
    split
    · exact (hs.toKept.free w).refocus
    next hfocus =>
      refine { toKept := hs.toKept.free w, focused := ?_ }
      intro v hv
      have hvw : v ≠ w := fun h => hfocus (h ▸ hv)
      rw [isNormal, wins_kwmFreeSlot_ne hvw]
      exact hs.focused hv

theorem Inv.kwmDestroyWindowsOf (task : Int) : (s.kwmDestroyWindowsOf task).1.Inv := by
  have hdone := destroyed_destroyWins s fun win => decide (win.ownerTask = task)
  have hkept := hdone.kept hs.toKept
  unfold Kwm.kwmDestroyWindowsOf
  split
  · exact hkept.refocus
  next hstay =>
    refine { toKept := hkept, focused := ?_ }
    intro v hv
    rw [hdone.refs.1] at hv
    rw [focusDestroyed, hv] at hstay
    -- the focused window is not one of those that were destroyed
    rcases hdone.wins v with h | h
    · rw [isNormal, h.1]
      exact hs.focused hv
    · exact absurd ((Bool.and_eq_true _ _).mpr ⟨h.2.1, h.2.2.1⟩) hstay

theorem Inv.kwmDestroyAllWindows : s.kwmDestroyAllWindows.1.Inv := by
  have hdone := destroyed_destroyWins s fun _ => true
  have hkept := hdone.kept hs.toKept
  have hoff : ∀ v, ¬ (s.destroyWins fun _ => true).1.isActive v := by
    intro v
    rcases hdone.wins v with h | h
    · rw [isActive, h.1]
      exact fun hv => by cases h.2 (mem_finRange v) hv
    · exact h.2.2.2.1
  have hnone : ∀ v, ¬ (s.destroyWins fun _ => true).1.isNormal v = true :=
    fun v hv => hoff v (isNormal_iff.mp hv).1
  refine { distinct := fun _ _ h => absurd h (hoff _), normal := fun _ h => absurd h (hnone _),
           desktop := fun _ h => absurd h (hoff _), pos := le_rfl, next := ?_,
           dragged := hkept.dragged, hovered := hkept.hovered, focused := fun h => by cases h }
  show 1 ≤ 17
  decide

theorem Inv.mouseHover (p : Point) : (s.mouseHover p).1.Inv :=
  hs.sameOrder ⟨fun _ => ⟨rfl, rfl, rfl⟩, rfl⟩ hs.dragged closeUnder_normal hs.focused

theorem Inv.mouseUp : s.mouseUp.Inv :=
  hs.sameOrder ⟨fun _ => ⟨rfl, rfl, rfl⟩, rfl⟩ nofun hs.hovered hs.focused

theorem Inv.mouseDrag (mode : Nat × Nat) (p : Point) : (s.mouseDrag mode p).1.1.Inv := by
  fun_cases mouseDrag
  all_goals first | exact hs | exact hs.setWin rfl rfl rfl

theorem Inv.mouseDown (p : Point) : (s.mouseDown p).1.Inv := by
  unfold Kwm.mouseDown
  split
  · exact hs.sameOrder ⟨fun _ => ⟨rfl, rfl, rfl⟩, rfl⟩ hs.dragged hs.hovered nofun
  next w hw =>
    split
    · exact hs
    next hd =>
      have hn : s.isNormal w = true :=
        isNormal_iff.mpr ⟨(kwmHitTest_active hw).1, Bool.eq_false_of_not_eq_true hd⟩
      obtain ⟨hinv, hraised⟩ := hs.raise hn
      dsimp only
      split
      · refine hinv.sameOrder ⟨fun _ => ⟨rfl, rfl, rfl⟩, rfl⟩ ?_ hinv.hovered hinv.focused
        intro v hv
        obtain rfl := some.inj hv
        exact hraised.normal
      · exact hinv

theorem Inv.kwmProcessMouse (mode : Nat × Nat) (p : Point) (down up : Bool) :
    (s.kwmProcessMouse mode p down up).1.Inv := by
  have hhover := hs.mouseHover p
  have hdrag := hhover.mouseDrag mode p
  unfold Kwm.kwmProcessMouse
  dsimp only
  split
  · exact hhover.mouseUp
  split
  · exact hdrag
  split
  · exact hdrag.mouseDown p
  · exact hdrag

theorem Inv.kwmCycleFocus : s.kwmCycleFocus.Inv := by
  unfold Kwm.kwmCycleFocus
  split
  next w hw => exact (hs.raise (cycleTarget_normal hw)).1
  · exact hs.sameOrder ⟨fun _ => ⟨rfl, rfl, rfl⟩, rfl⟩ hs.dragged hs.hovered nofun

theorem Inv.kwmHandleShortcut (alt released tab : Bool) :
    (s.kwmHandleShortcut alt released tab).1.Inv := by
  have hflag : ∀ {t : Kwm} (b : Bool), t.Inv → {t with altTabActive := b}.Inv := fun _ ht =>
    ht.sameOrder ⟨fun _ => ⟨rfl, rfl, rfl⟩, rfl⟩ ht.dragged ht.hovered ht.focused
  unfold Kwm.kwmHandleShortcut
  split
  · exact hflag false hs
  split
  · split
    · exact hs
    · exact hflag true hs.kwmCycleFocus
  · exact hs

theorem Inv.perform (mode : Nat × Nat) (op : KwmOp) : (s.perform mode op).1.Inv := by
  cases op with
  | create owner x y width height canvas => exact hs.kwmCreateWindow owner x y width height canvas
  | createDesktop owner canvas => exact hs.kwmCreateDesktop owner mode canvas
  | setTitle task id title => exact hs.kwmSetTitle task id title
  | activate id => exact hs.kwmActivateWindow id
  | update task id src => exact hs.kwmUpdateWindow task id src
  | updateRect task id x y width height src =>
    exact hs.kwmUpdateWindowRect task id x y width height src
  | setOpaque task id => exact hs.kwmSetWindowOpaque task id
  | destroy id => exact hs.kwmDestroyWindow id
  | destroyOf task => exact hs.kwmDestroyWindowsOf task
  | destroyAll => exact hs.kwmDestroyAllWindows
  | hover p => exact hs.mouseHover p
  | mouseUp => exact hs.mouseUp
  | drag p => exact hs.mouseDrag mode p
  | mouseDown p => exact hs.mouseDown p
  | mouse p down up => exact hs.kwmProcessMouse mode p down up
  | shortcut alt released tab => exact hs.kwmHandleShortcut alt released tab

end Steps

theorem Inv.run {ops : List KwmOp} (run : Run (KwmStep mode) init ops s) : s.Inv := by
  refine run.invariant ?_ inv_init
  rintro s op _ hs rfl
  exact hs.perform mode op

/-! ### The window an operation brings to the front -/

def clickTarget (s : Kwm) (p : Point) : Option Slot :=
  (s.kwmHitTest p).filter fun w => !(s.wins w).desktop

def broughtToFront (mode : Nat × Nat) (s : Kwm) : KwmOp → Option Slot
  | .create _ x y width height canvas =>
    if createOk x y width height && canvas then s.firstFree else none
  | .activate id => (slotOf id).filter s.isNormal
  | .mouseDown p => s.clickTarget p
  | .mouse p down up =>
    if !up && !(s.mouseDrag mode p).2 && down then s.clickTarget p else none
  | .shortcut alt released tab =>
    if !(s.altTabActive && !alt) && (alt && tab) && !released then s.cycleTarget else none
  | _ => none

theorem Raised.congr {t t' : Kwm} (h : Raised s s' w) (hs : t.wins = s.wins) (hs' : t'.wins = s'.wins) :
    Raised t t' w := by
  obtain ⟨hnormal, htop, hothers, horder⟩ := h
  constructor
  · rw [isNormal, hs']
    exact hnormal
  · intro v
    rw [isActive, z, z, hs']
    exact htop v
  · intro v
    rw [isActive, isActive, hs, hs']
    exact hothers v
  · intro u v
    rw [isActive, isActive, z, z, z, z, hs, hs']
    exact horder u v

theorem Inv.raised_mouseDown (hs : s.Inv) (h : s.clickTarget p = some w) :
    Raised s (s.mouseDown p).1 w := by
  obtain ⟨hhit, hd⟩ := filter_eq_some_iff.mp h
  rw [Bool.not_eq_true'] at hd
  have hn : s.isNormal w = true := isNormal_iff.mpr ⟨(kwmHitTest_active hhit).1, hd⟩
  refine (hs.raise hn).2.congr rfl ?_
  unfold Kwm.mouseDown
  rw [hhit]
  dsimp only
  rw [hd, if_neg Bool.false_ne_true]
  split <;> rfl

/-- Hover leaves what the later sections of a mouse event read. -/
theorem mouseDrag_mouseHover (mode : Nat × Nat) (s : Kwm) (p : Point) :
    ((s.mouseHover p).1.mouseDrag mode p).2 = (s.mouseDrag mode p).2 := by
  unfold mouseDrag mouseHover
  dsimp only
  split
  · rfl
  · split <;> rfl

theorem mouseDrag_unconsumed (h : (s.mouseDrag mode p).2 = false) :
    (s.mouseDrag mode p).1 = (s, []) := by
  unfold mouseDrag at h ⊢
  split at h
  · rfl
  next w hw =>
    split at h
    next hoff => rw [if_pos hoff]
    · exact nomatch h

theorem Inv.raised_perform (hs : s.Inv) {op : KwmOp} (h : s.broughtToFront mode op = some w) :
    Raised s (s.perform mode op).1 w := by
  cases op with
  | create owner x y width height canvas =>
    simp only [broughtToFront] at h
    split at h
    next hok =>
      have hok := (Bool.and_eq_true _ _).mp hok
      have hfail : ¬ (createOk x y width height = false ∨ canvas = false) := by
        rw [hok.1, hok.2]
        decide
      simp only [Kwm.perform, Kwm.kwmCreateWindow, if_neg hfail, h]
      exact (hs.create (firstFree_inactive h) rfl rfl).2
    · exact nomatch h
  | activate id =>
    obtain ⟨hslot, hn⟩ := filter_eq_some_iff.mp h
    have hgo : ¬ s.isNormal w = false := by
      rw [hn]
      decide
    simp only [Kwm.perform, Kwm.kwmActivateWindow, hslot, if_neg hgo]
    exact (hs.raise hn).2
  | mouseDown p => exact hs.raised_mouseDown h
  | mouse p down up =>
    simp only [broughtToFront] at h
    split at h
    next hgo =>
      simp only [Bool.and_eq_true, Bool.not_eq_true'] at hgo
      obtain ⟨⟨rfl, hdrag⟩, rfl⟩ := hgo
      have hdrag' := (mouseDrag_mouseHover mode s p).trans hdrag
      have hsame := mouseDrag_unconsumed hdrag'
      have hraised := (hs.mouseHover p).raised_mouseDown (p := p) h
      simp only [Kwm.perform, Kwm.kwmProcessMouse, hdrag', hsame]
      exact hraised.congr rfl rfl
    · exact nomatch h
  | shortcut alt released tab =>
    simp only [broughtToFront] at h
    split at h
    next hgo =>
      simp only [Bool.and_eq_true, Bool.not_eq_true'] at hgo
      obtain ⟨⟨hfirst, rfl, rfl⟩, rfl⟩ := hgo
      have hcycle : s.kwmCycleFocus = {s.kwmBringToFront w with focusedWin := some w} := by
        unfold Kwm.kwmCycleFocus
        rw [h]
      simp only [Kwm.perform, Kwm.kwmHandleShortcut, hfirst, Bool.and_self,
        Bool.false_eq_true, if_false, if_true, hcycle]
      exact (hs.raise (cycleTarget_normal h)).2.congr rfl rfl
    · exact nomatch h
  | createDesktop | setTitle | update | updateRect | setOpaque | destroy | destroyOf | destroyAll
  | hover | mouseUp | drag => exact nomatch h

/-! ### The paint order -/

/-- `v` is painted before `w`: by z value, and by slot among equals. -/
def Before (s : Kwm) (v w : Slot) : Prop := s.z v < s.z w ∨ s.z v = s.z w ∧ v < w

instance (s : Kwm) (v w : Slot) : Decidable (s.Before v w) := by
  unfold Before
  infer_instance

theorem Before.asymm {u v : Slot} (h : s.Before u v) : ¬ s.Before v u := by
  rintro (h' | ⟨hz', h'⟩) <;> rcases h with h | ⟨hz, h⟩
  · exact lt_asymm h h'
  · exact h'.ne hz.symm
  · exact h.ne hz'.symm
  · exact lt_asymm h h'

/-- The double loop of `composite_windows_in_rect`, by z value and slot. -/
def paintOrder (s : Kwm) : List Slot :=
  (range (s.nextZIndex + 1)).flatMap fun zi =>
    (finRange 16).filter fun w => (s.wins w).active && decide (s.z w = zi)

theorem mem_paintOrder : w ∈ s.paintOrder ↔ s.isActive w ∧ s.z w ≤ s.nextZIndex := by
  simp only [paintOrder, List.mem_flatMap, List.mem_range, List.mem_filter, List.mem_finRange,
    true_and, Bool.and_eq_true, decide_eq_true_eq]
  constructor
  · rintro ⟨zi, hzi, ha, rfl⟩
    exact ⟨ha, by omega⟩
  · rintro ⟨ha, hz⟩
    exact ⟨s.z w, by omega, ha, rfl⟩

theorem paintOrder_sorted (s : Kwm) : s.paintOrder.Pairwise s.Before := by
  rw [paintOrder, pairwise_flatMap]
  constructor
  · intro zi _
    refine ((pairwise_lt_finRange 16).filter _).imp_of_mem ?_
    intro u v hu hv hlt
    have hu := (mem_filter.mp hu).2
    have hv := (mem_filter.mp hv).2
    simp only [Bool.and_eq_true, decide_eq_true_eq] at hu hv
    exact .inr ⟨hu.2.trans hv.2.symm, hlt⟩
  · refine pairwise_lt_range.imp ?_
    intro i j hij u hu v hv
    have hu := (mem_filter.mp hu).2
    have hv := (mem_filter.mp hv).2
    simp only [Bool.and_eq_true, decide_eq_true_eq] at hu hv
    exact .inl (by omega)

theorem Stacked.z_le (hs : s.Stacked) (hw : s.isActive w) : s.z w ≤ s.nextZIndex := by
  cases hd : (s.wins w).desktop with
  | true =>
    rw [hs.desktop trivial hw hd]
    exact Nat.zero_le _
  | false => exact (hs.normal trivial (isNormal_iff.mpr ⟨hw, hd⟩)).2.le

def lastPainted (s : Kwm) (p : Point) : Option Slot :=
  (s.paintOrder.filter fun w => decide (p ∈ (s.wins w).frame)).getLast?

theorem getLast?_eq_of_before {l : List Slot} (hl : l.Pairwise s.Before) (hw : w ∈ l)
    (hlast : ∀ v ∈ l, v ≠ w → s.Before v w) : l.getLast? = some w := by
  obtain ⟨l₁, l₂, rfl⟩ := append_of_mem hw
  cases l₂ with
  | nil => exact getLast?_concat
  | cons v l₂ =>
    have hbefore : s.Before w v := (pairwise_cons.mp (pairwise_append.mp hl).2.1).1 v (.head _)
    have hne : v ≠ w := by
      rintro rfl
      exact hbefore.asymm hbefore
    have hmem : v ∈ l₁ ++ w :: v :: l₂ := mem_append_right _ (.tail _ (.head _))
    exact absurd (hlast v hmem hne) hbefore.asymm

theorem Stacked.kwmHitTest_eq (hs : s.Stacked) (p : Point) : s.kwmHitTest p = s.lastPainted p := by
  have hmem : ∀ v, v ∈ s.paintOrder.filter (fun w => decide (p ∈ (s.wins w).frame)) ↔
      s.isActive v ∧ p ∈ (s.wins v).frame := by
    intro v
    rw [mem_filter, mem_paintOrder, decide_eq_true_eq]
    exact ⟨fun h => ⟨h.1.1, h.2⟩, fun h => ⟨⟨h.1, hs.z_le h.1⟩, h.2⟩⟩
  unfold lastPainted
  cases hhit : s.kwmHitTest p with
  | none =>
    symm
    rw [getLast?_eq_none_iff, eq_nil_iff_forall_not_mem]
    intro v hv
    have := scanMax_none hhit v (mem_finRange v) ((hmem v).mp hv)
    omega
  | some w =>
    obtain ⟨-, hw, -, hmax⟩ := scanMax_some hhit
    symm
    apply getLast?_eq_of_before (s.paintOrder_sorted.filter _) ((hmem w).mpr hw)
    intro v hv hne
    have hv := (hmem v).mp hv
    have hle : (s.z v : Int) ≤ s.z w := hmax v (mem_finRange v) hv
    have hzne : s.z v ≠ s.z w := fun heq =>
      hne (hs.distinct trivial trivial hv.1 hw.1 heq)
    exact .inl (by omega)

structure Consistent (s : Kwm) : Prop where
  distinct : ∀ u v, s.isNormal u = true → s.isNormal v = true → s.z u = s.z v → u = v
  bounds : ∀ v, s.isNormal v = true → 1 ≤ s.z v ∧ s.z v ≤ s.nextZIndex - 1
  counter : s.nextZIndex ≤ 16 + 1
  oneDesktop : ∀ u v, s.isActive u → s.isActive v → (s.wins u).desktop = true →
    (s.wins v).desktop = true → u = v
  desktop : ∀ v, s.isActive v → (s.wins v).desktop = true → s.z v = 0
  focused : ∀ v, s.focusedWin = some v → s.isNormal v = true
  dragged : ∀ v, s.draggedWin = some v → s.isNormal v = true

theorem Inv.consistent (hs : s.Inv) : s.Consistent := by
  constructor
  case distinct =>
    intro u v hu hv
    exact hs.distinct trivial trivial (isNormal_iff.mp hu).1 (isNormal_iff.mp hv).1
  case bounds =>
    intro v hv
    have := hs.normal trivial hv
    omega
  case counter => exact hs.next
  case oneDesktop =>
    intro u v hu hv hdu hdv
    apply hs.distinct trivial trivial hu hv
    rw [hs.desktop trivial hu hdu, hs.desktop trivial hv hdv]
  case desktop => exact fun v hv hd => hs.desktop trivial hv hd
  case focused => exact fun v => hs.focused
  case dragged => exact fun v => hs.dragged

/-- In every run the table is consistent, an operation that brings a window to the front
puts exactly that window on top of the others, which keep their order, and the hit test
finds the window that is painted last at the point. -/
theorem window_manager_consistent {ops : List KwmOp} (run : Run (KwmStep mode) init ops s) :
    s.Consistent ∧ (∀ op w, s.broughtToFront mode op = some w → Raised s (s.perform mode op).1 w) ∧
      ∀ p, s.kwmHitTest p = s.lastPainted p :=
  ⟨(Inv.run run).consistent, fun _ _ h => (Inv.run run).raised_perform h,
    (Inv.run run).kwmHitTest_eq⟩

def twoWindows : List KwmOp := [.create 1 0 0 100 100 true, .create 2 50 50 100 100 true]

theorem window_manager_consistent_two :
    let s := twoWindows.foldl (fun s op => (s.perform (800, 600) op).1) init
    s.Consistent ∧ s.broughtToFront (800, 600) (.activate 0) = some 0 ∧
      Raised s (s.perform (800, 600) (.activate 0)).1 0 ∧
      s.kwmHitTest (60, 60) = s.lastPainted (60, 60) := by
  intro s
  have run : Run (KwmStep (800, 600)) init twoWindows s := Run.foldl (by intro _ _ _; rfl) _
  have hfront : s.broughtToFront (800, 600) (.activate 0) = some 0 := by
    decide +kernel
  obtain ⟨hs, hraised, hhit⟩ := window_manager_consistent run
  exact ⟨hs, hfront, hraised _ _ hfront, hhit _⟩

end Kwm

end Kyuzen.Gfx
