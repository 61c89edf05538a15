import Kyuzen.Gfx.Compose

/-!
Every operation of the window manager marks what it changes on the screen: outside
the marks the same windows are visible, they look the same, and they are stacked in
the same order.
-/

namespace Kyuzen.Gfx

open List

def Win.look (win : Win) : Win := {win with zIndex := 0, ownerTask := 0, fullyOpaque := false}

namespace Kwm

variable {u v : Slot} {font : Font} {r : Rect} {fb fb' : Buffer} {id task : Int} {q : Point}
    {win : Win} {src : Canvas}

variable {s s' s'' : Kwm} {p : Point} {w : Slot} {mode : Nat × Nat}

/-- `w` may show at `p`, with its frame or its shadow. -/
def Visible (s : Kwm) (p : Point) (w : Slot) : Prop := s.isActive w ∧ p ∈ destroyBounds (s.wins w)

/-- `w` is painted at `p` alike in both states. -/
def SamePaint (s s' : Kwm) (p : Point) (w : Slot) : Prop :=
  ∀ {font : Font} {r : Rect} {fb fb' : Buffer}, p ∈ r → (fb p).rgb = (fb' p).rgb →
    (s.naiveWindow font r fb w p).rgb = (s'.naiveWindow font r fb' w p).rgb

structure Unchanged (s s' : Kwm) (p : Point) : Prop where
  visible : ∀ w, s.Visible p w ↔ s'.Visible p w
  order : ∀ u v, s.Visible p u → s.Visible p v → s'.Before u v → s.Before u v
  paint : ∀ w, s.Visible p w → SamePaint s s' p w

theorem SamePaint.refl (s : Kwm) (p : Point) (w : Slot) : SamePaint s s p w :=
  fun hp h => (isPaint_paintWindow _ _ _ _).congr hp hp h

theorem Unchanged.refl (s : Kwm) (p : Point) : Unchanged s s p :=
  ⟨fun _ => Iff.rfl, fun _ _ _ _ h => h, fun w _ => SamePaint.refl s p w⟩

theorem Unchanged.trans (h : Unchanged s s' p) (h' : Unchanged s' s'' p) : Unchanged s s'' p where
  visible w := (h.visible w).trans (h'.visible w)
  order u v hu hv hbefore :=
    h.order u v hu hv (h'.order u v ((h.visible u).mp hu) ((h.visible v).mp hv) hbefore)
  paint w hw _ _ _ _ hp hfb := (h.paint w hw hp hfb).trans (h'.paint w ((h.visible w).mp hw) hp rfl)

theorem Unchanged.congr (h : Unchanged s s' p) (hwins : s''.wins = s'.wins)
    (hfocus : s''.focusedWin = s'.focusedWin) (hhover : s''.hoveredClose = s'.hoveredClose) :
    Unchanged s s'' p := by
  obtain ⟨hvisible, horder, hpaint⟩ := h
  constructor
  · intro w
    rw [hvisible w, Visible, Visible, isActive, isActive, hwins]
  · intro u v
    rw [Before, z, z, hwins]
    exact horder u v
  · intro w hw font r fb fb' hp hfb
    rw [hpaint w hw hp hfb, naiveWindow, naiveWindow, hwins, hfocus, hhover]

/-! ### The naive composition at a pixel -/

theorem naiveWindow_hidden (h : p ∉ destroyBounds (s.wins w)) :
    s.naiveWindow font r fb w p = fb p :=
  (isPaint_paintWindow _ _ _ _).area h

/-- Windows that do not show at `p` can be left out. -/
theorem foldl_naive_filter (hp : p ∈ r) (l : List Slot) (h : (fb p).rgb = (fb' p).rgb) :
    (l.foldl (s.naiveWindow font r) fb p).rgb =
      ((l.filter fun w => decide (p ∈ destroyBounds (s.wins w))).foldl
        (s.naiveWindow font r) fb' p).rgb := by
  induction l generalizing fb fb' with
  | nil => exact h
  | cons w l ih =>
    by_cases hw : p ∈ destroyBounds (s.wins w)
    · rw [filter_cons, if_pos (decide_eq_true hw)]
      exact ih (SamePaint.refl s p w hp h)
    · rw [filter_cons, if_neg (fun h => hw (of_decide_eq_true h))]
      apply ih
      rw [naiveWindow_hidden hw]
      exact h

theorem foldl_samePaint (hp : p ∈ r) (l : List Slot) (hl : ∀ w ∈ l, SamePaint s s' p w)
    (h : (fb p).rgb = (fb' p).rgb) :
    (l.foldl (s.naiveWindow font r) fb p).rgb = (l.foldl (s'.naiveWindow font r) fb' p).rgb := by
  induction l generalizing fb fb' with
  | nil => exact h
  | cons w l ih =>
    apply ih fun v hv => hl v (.tail _ hv)
    exact hl w (.head _) hp h

theorem mem_shown : w ∈ s.naiveOrder.filter (fun w => decide (p ∈ destroyBounds (s.wins w))) ↔
    s.Visible p w := by
  rw [mem_filter, mem_naiveOrder, decide_eq_true_eq]
  rfl

theorem Unchanged.naiveCompose (h : Unchanged s s' p) {base back : Buffer} (hp : p ∈ r) :
    (s.naiveCompose font mode base r back p).rgb =
      (s'.naiveCompose font mode base r back p).rgb := by
  have hlist : s.naiveOrder.filter (fun w => decide (p ∈ destroyBounds (s.wins w))) =
      s'.naiveOrder.filter (fun w => decide (p ∈ destroyBounds (s'.wins w))) := by
    apply order_unique (s.naiveOrder_sorted.filter _) (s'.naiveOrder_sorted.filter _)
    · intro w
      rw [mem_shown, mem_shown]
      exact h.visible w
    · intro u v hu hv
      exact h.order u v (mem_shown.mp hu) (mem_shown.mp hv)
  unfold Kwm.naiveCompose
  rw [foldl_naive_filter hp s.naiveOrder rfl, foldl_naive_filter hp s'.naiveOrder rfl, ← hlist]
  exact foldl_samePaint hp _ (fun w hw => h.paint w (mem_shown.mp hw)) rfl

/-! ### Windows that look the same -/

theorem visible_of_look (h : (s'.wins v).look = (s.wins v).look) :
    s'.Visible p v ↔ s.Visible p v := by
  have hactive : (s'.wins v).look.active = (s.wins v).look.active := congrArg Win.active h
  have hbounds : destroyBounds (s'.wins v).look = destroyBounds (s.wins v).look :=
    congrArg destroyBounds h
  exact and_congr (iff_of_eq (congrArg (· = true) hactive)) (iff_of_eq (congrArg (p ∈ ·) hbounds))

theorem naiveWindow_look (font : Font) (s : Kwm) (r : Rect) (fb : Buffer) (w : Slot) :
    s.naiveWindow font r fb w = paintWindow font (s.wins w).look (decide (s.focusedWin = some w))
      (decide (s.hoveredClose = some w)) r fb :=
  rfl

theorem samePaint_of_look (hlook : (s'.wins w).look = (s.wins w).look)
    (hfocus : s'.focusedWin = some w ↔ s.focusedWin = some w)
    (hhover : s'.hoveredClose = some w ↔ s.hoveredClose = some w) : SamePaint s s' p w := by
  intro font r fb fb' hp hfb
  rw [naiveWindow_look, naiveWindow_look, hlook, decide_eq_decide.mpr hfocus,
    decide_eq_decide.mpr hhover]
  exact (isPaint_paintWindow _ _ _ _).congr hp hp hfb

/-- A slot keeps its look, or it does not show at `p` before and after. -/
def Still (s s' : Kwm) (p : Point) (v : Slot) : Prop :=
  (s.Visible p v ↔ s'.Visible p v) ∧ (s.Visible p v → SamePaint s s' p v)

theorem Still.same (hlook : (s'.wins v).look = (s.wins v).look)
    (hfocus : s'.focusedWin = some v ↔ s.focusedWin = some v)
    (hhover : s'.hoveredClose = some v ↔ s.hoveredClose = some v) : Still s s' p v :=
  ⟨(visible_of_look hlook).symm, fun _ => samePaint_of_look hlook hfocus hhover⟩

theorem Still.hidden (h : ¬ s.Visible p v) (h' : ¬ s'.Visible p v) : Still s s' p v :=
  ⟨iff_of_false h h', fun hv => absurd hv h⟩

theorem Still.marked (hlook : (s'.wins v).look = (s.wins v).look) (h : ¬ s'.Visible p v) :
    Still s s' p v :=
  .hidden (fun hv => h ((visible_of_look hlook).mpr hv)) h

theorem Unchanged.of_still (h : ∀ v, Still s s' p v)
    (horder : ∀ u v, s.Visible p u → s.Visible p v → s'.Before u v → s.Before u v) :
    Unchanged s s' p :=
  ⟨fun v => (h v).1, horder, fun v => (h v).2⟩

theorem before_of_z (hu : s'.z u = s.z u) (hv : s'.z v = s.z v) (h : s'.Before u v) :
    s.Before u v := by
  rw [Before, hu, hv] at h
  exact h

theorem Raised.before (h : Raised s s' w) (hs' : s'.Stacked) (hu : u ≠ w) (hv : v ≠ w)
    (hau : s.isActive u) (hav : s.isActive v) (hbefore : s'.Before u v) : s.Before u v := by
  left
  apply (h.order u v hu hv hau hav).mp
  rcases hbefore with hlt | ⟨heq, hlt⟩
  · exact hlt
  · have := hs'.distinct trivial trivial ((h.others u hu).mpr hau) ((h.others v hv).mpr hav) heq
    exact absurd this hlt.ne

theorem not_visible_of_frameDirty (h : ¬ Covers (s.frameDirty v) p) : ¬ s.Visible p v := by
  intro hv
  apply h
  rw [frameDirty, if_pos hv.1]
  exact covers_singleton.mpr hv.2

theorem not_visible_of_frameDirtyOf {o : Option Slot} (h : ¬ Covers (s.frameDirtyOf o) p)
    (ho : o = some v) : ¬ s.Visible p v := by
  subst ho
  exact not_visible_of_frameDirty h

/-- The part of the marks for the window that had the focus. -/
theorem not_visible_of_oldFocus (hv : v ≠ w)
    (h : ¬ Covers (if s.focusedWin = some w then [] else s'.frameDirtyOf s.focusedWin) p)
    (ho : s.focusedWin = some v) : ¬ s'.Visible p v := by
  rw [if_neg fun hw => hv (Option.some.inj (ho.symm.trans hw))] at h
  exact not_visible_of_frameDirtyOf h ho

/-! ### Operations -/

theorem look_kwmBringToFront (s : Kwm) (w v : Slot) :
    ((s.kwmBringToFront w).wins v).look = (s.wins v).look := by
  rw [wins_kwmBringToFront]
  rfl

/-- A window comes to the front and gets the focus; it and the one that had the focus are
marked. -/
theorem Raised.unchanged (h : Raised s s' w) (hs' : s'.Stacked)
    (hlook : ∀ v ≠ w, (s'.wins v).look = (s.wins v).look) (hbefore : ¬ s.Visible p w)
    (hafter : ¬ s'.Visible p w) (hfocus : s'.focusedWin = some w)
    (hhover : s'.hoveredClose = s.hoveredClose)
    (hold : ¬ Covers (if s.focusedWin = some w then [] else s'.frameDirtyOf s.focusedWin) p) :
    Unchanged s s' p := by
  refine .of_still (fun v => ?_) fun u v hu hv => ?_
  · by_cases hvw : v = w
    · rw [hvw]
      exact .hidden hbefore hafter
    · by_cases hv : s.focusedWin = some v
      · exact .marked (hlook v hvw) (not_visible_of_oldFocus hvw hold hv)
      · refine .same (hlook v hvw) (iff_of_false (fun h => ?_) hv) (by rw [hhover])
        exact hvw (Option.some.inj (hfocus.symm.trans h)).symm
  · have hne : ∀ {v}, s.Visible p v → v ≠ w := fun hv h => hbefore (h ▸ hv)
    exact h.before hs' (hne hu) (hne hv) hu.1 hv.1

theorem Inv.unchanged_raise (hs : s.Inv) (hw : s.isNormal w = true)
    (hmarks : ¬ Covers ({s.kwmBringToFront w with focusedWin := some w}.frameDirty w ++
      if s.focusedWin = some w then []
      else {s.kwmBringToFront w with focusedWin := some w}.frameDirtyOf s.focusedWin) p) :
    Unchanged s {s.kwmBringToFront w with focusedWin := some w} p := by
  obtain ⟨hinv, hraised⟩ := hs.raise hw
  rw [covers_append, not_or] at hmarks
  have hafter := not_visible_of_frameDirty hmarks.1
  have hlook := look_kwmBringToFront s w
  refine hraised.unchanged hinv.toStacked (fun v _ => hlook v) (fun hv => hafter ?_) hafter rfl
    (refs_kwmBringToFront s w).2.2.1 hmarks.2
  exact (visible_of_look (hlook w)).mpr hv

theorem Inv.unchanged_create (hs : s.Inv) (hw : ¬ s.isActive w) (ha : win.active = true)
    (hd : win.desktop = false)
    (hmarks : ¬ Covers ({(s.setWin w win).kwmBringToFront w with focusedWin := some w}.frameDirty w ++
      [win.content] ++ if s.focusedWin = some w then []
      else {(s.setWin w win).kwmBringToFront w with focusedWin := some w}.frameDirtyOf
        s.focusedWin) p) :
    Unchanged s {(s.setWin w win).kwmBringToFront w with focusedWin := some w} p := by
  obtain ⟨hinv, hraised⟩ := hs.create hw ha hd
  rw [covers_append, covers_append, not_or, not_or] at hmarks
  refine hraised.unchanged hinv.toStacked (fun v hv => ?_) (fun hv => hw hv.1)
    (not_visible_of_frameDirty hmarks.1.1) rfl (refs_kwmBringToFront (s.setWin w win) w).2.2.1 hmarks.2
  rw [look_kwmBringToFront, wins_setWin_ne hv]

theorem unchanged_setWin (hz : win.zIndex = s.z w) (h : Still s (s.setWin w win) p w) :
    Unchanged s (s.setWin w win) p := by
  have hz' : ∀ v, (s.setWin w win).z v = s.z v := by
    intro v
    by_cases hvw : v = w
    · rw [hvw, z, wins_setWin_self]
      exact hz
    · rw [z, wins_setWin_ne hvw]
  refine .of_still (fun v => ?_) fun u v _ _ => before_of_z (hz' u) (hz' v)
  by_cases hvw : v = w
  · rw [hvw]
    exact h
  · exact .same (by rw [wins_setWin_ne hvw]) Iff.rfl Iff.rfl

theorem unchanged_kwmSetTitle {title : List UInt8}
    (h : ¬ Covers (s.kwmSetTitle task id title).2 p) :
    Unchanged s (s.kwmSetTitle task id title).1 p := by
  unfold kwmSetTitle at h ⊢
  split at h
  · exact .refl s p
  next w hw =>
    have hhidden := not_visible_of_frameDirty h
    refine unchanged_setWin rfl (.hidden (fun hv => hhidden ?_) hhidden)
    rw [Visible, isActive, wins_setWin_self]
    exact hv

theorem paintWindow_congr {win' : Win} {focused hovered : Bool}
    (hshadow : paintShadow win' = paintShadow win)
    (htitlebar : paintTitlebar font win' focused hovered = paintTitlebar font win focused hovered)
    (hcontent : win'.content = win.content) (hpixel : p ∈ win.content → win'.pixel p = win.pixel p)
    (hp : p ∈ r) (hfb : (fb p).rgb = (fb' p).rgb) :
    (paintWindow font win focused hovered r fb p).rgb =
      (paintWindow font win' focused hovered r fb' p).rgb := by
  rw [paintWindow, paintWindow, htitlebar, hshadow]
  apply (isPaint_paintTitlebar font win focused hovered).congr hp hp
  have hbelow := (isPaint_paintShadow win).congr hp hp hfb
  by_cases hc : p ∈ win.content
  · rw [paintContent_in hc hp, paintContent_in (hcontent ▸ hc) hp, hpixel hc]
    simp only [mixPixel, Bool.false_eq_true, if_false]
    split
    · rfl
    · exact hbelow
  · rw [(isPaint_paintContent win).area hc, (isPaint_paintContent win').area (hcontent ▸ hc)]
    exact hbelow

theorem unchanged_commitUpload {x y width height : Nat}
    (h : ¬ Covers (s.commitUpload w src x y width height).2 p) :
    Unchanged s (s.commitUpload w src x y width height).1 p := by
  have hout : p ∉ (⟨(s.wins w).x + x, (s.wins w).y + (s.wins w).titlebar + y, width, height⟩ : Rect) :=
    fun hp => h (covers_singleton.mpr hp)
  refine unchanged_setWin rfl ⟨?_, fun _ => ?_⟩
  · rw [Visible, Visible, isActive, isActive, wins_setWin_self]
    rfl
  intro font r fb fb' hp hfb
  rw [naiveWindow, naiveWindow, wins_setWin_self]
  refine paintWindow_congr rfl rfl rfl (fun hc => ?_) hp hfb
  refine if_neg fun hin => hout ?_
  dsimp only [Win.titlebar] at hin
  simp only [Rect.mem_def, Win.content, Win.titlebar] at hc ⊢
  omega

theorem unchanged_kwmUpdateWindow (h : ¬ Covers (s.kwmUpdateWindow task id src).2 p) :
    Unchanged s (s.kwmUpdateWindow task id src).1 p := by
  unfold kwmUpdateWindow at h ⊢
  split at h
  · exact .refl s p
  next w hw =>
    exact unchanged_commitUpload h

theorem unchanged_kwmUpdateWindowRect {x y : Int} {width height : Nat}
    (h : ¬ Covers (s.kwmUpdateWindowRect task id x y width height src).2 p) :
    Unchanged s (s.kwmUpdateWindowRect task id x y width height src).1 p := by
  unfold kwmUpdateWindowRect at h ⊢
  split
  · exact .refl s p
  next hgo =>
    rw [if_neg hgo] at h
    split at h
    · exact .refl s p
    next w hw =>
      split
      · exact .refl s p
      next hin =>
        rw [if_neg hin] at h
        exact unchanged_commitUpload h

theorem unchanged_kwmSetWindowOpaque (s : Kwm) (p : Point) (task id : Int) :
    Unchanged s (s.kwmSetWindowOpaque task id) p := by
  unfold kwmSetWindowOpaque
  split
  · exact .refl s p
  · refine unchanged_setWin rfl (.same ?_ Iff.rfl Iff.rfl)
    rw [wins_setWin_self]
    rfl

/-! ### Destruction -/

theorem titlebar_le (win : Win) : win.titlebar ≤ kwmTitlebarH := by
  unfold Win.titlebar
  split
  · exact Nat.zero_le _
  · exact le_rfl

/-- The area that `kwm_destroy_window` marks, with a titlebar even for the desktop. -/
theorem not_visible_of_destroyArea {marks : List Rect}
    (h : ¬ Covers (frameDirtyArea (s.wins w).x (s.wins w).y (s.wins w).width
      ((s.wins w).height + kwmTitlebarH) :: marks) p) : ¬ s.Visible p w := by
  intro hv
  apply h
  refine covers_cons.mpr (.inl ?_)
  have hbounds := hv.2
  have htb := titlebar_le (s.wins w)
  simp only [destroyBounds, frameDirtyArea, Rect.mem_def] at hbounds ⊢
  omega

theorem hoveredClose_kwmFreeSlot (hv : v ≠ w) :
    (s.kwmFreeSlot w).hoveredClose = some v ↔ s.hoveredClose = some v := by
  simp only [kwmFreeSlot]
  split
  next hw =>
    rw [hw]
    exact iff_of_false (fun h => by cases h) fun h => hv (Option.some.inj h).symm
  · rfl

/-- A slot is freed where its window does not show, and the focus is elsewhere or goes to
a window that does not show either. -/
theorem unchanged_kwmFreeSlot (hw : ¬ s.Visible p w) (hwins : s'.wins = (s.kwmFreeSlot w).wins)
    (hhover : s'.hoveredClose = (s.kwmFreeSlot w).hoveredClose)
    (hfocus : ∀ v ≠ w, (s'.focusedWin = some v ↔ s.focusedWin = some v) ∨ ¬ s'.Visible p v) :
    Unchanged s s' p := by
  have hsame : ∀ {v}, v ≠ w → s'.wins v = s.wins v := by
    intro v hv
    rw [hwins, wins_kwmFreeSlot_ne hv]
  refine .of_still (fun v => ?_) fun u v hu hv => ?_
  · by_cases hvw : v = w
    · rw [hvw]
      refine .hidden hw fun hv => isActive_kwmFreeSlot_self s w ?_
      rw [isActive, ← hwins]
      exact hv.1
    · have hlook : (s'.wins v).look = (s.wins v).look := by rw [hsame hvw]
      rcases hfocus v hvw with hfocus | hhidden
      · refine .same hlook hfocus ?_
        rw [hhover]
        exact hoveredClose_kwmFreeSlot hvw
      · exact .marked hlook hhidden
  · have hne : ∀ {v}, s.Visible p v → v ≠ w := fun hv h => hw (h ▸ hv)
    exact before_of_z (by rw [z, hsame (hne hu)]) (by rw [z, hsame (hne hv)])

theorem unchanged_kwmDestroyWindow (h : ¬ Covers (s.kwmDestroyWindow id).2 p) :
    Unchanged s (s.kwmDestroyWindow id).1 p := by
  unfold kwmDestroyWindow at h ⊢
  cases hslot : slotOf id with
  | none => exact .refl s p
  | some w =>
    rw [hslot] at h
    dsimp only at h ⊢
    split_ifs at h ⊢ with hoff hfocus
    · exact .refl s p
    · refine unchanged_kwmFreeSlot (not_visible_of_destroyArea h) rfl rfl fun v hv => ?_
      by_cases hnew : (s.kwmFreeSlot w).kwmRefocus.focusedWin = some v
      · right
        exact not_visible_of_frameDirtyOf (fun hm => h (covers_cons.mpr (.inr hm))) hnew
      · refine .inl (iff_of_false hnew fun hold => ?_)
        exact hv (Option.some.inj (hfocus.symm.trans hold)).symm
    · exact unchanged_kwmFreeSlot (not_visible_of_destroyArea h) rfl rfl fun _ _ => .inl Iff.rfl

variable {acc' : Kwm × List Rect} {gone : Win → Bool}

section
variable (h : Destroyed gone (finRange 16) (s, []) acc') (hmarks : ¬ Covers acc'.2 p)
include h hmarks

/-- The slots after the loop of a destruction, up to the focus. -/
theorem Destroyed.still (v : Slot) : ¬ s.Visible p v ∧ ¬ acc'.1.Visible p v ∨
      acc'.1.wins v = s.wins v ∧ (acc'.1.hoveredClose = some v ↔ s.hoveredClose = some v) := by
  rcases h.wins v with hv | hv
  · by_cases hactive : acc'.1.isActive v
    · refine .inr ⟨hv.1, h.hovered, fun hh => ?_⟩
      exact (h.hoverKept hh).resolve_right fun hoff => hoff hactive
    · refine .inl ⟨fun hvis => hactive ?_, fun hvis => hactive hvis.1⟩
      rw [isActive, hv.1]
      exact hvis.1
  · exact .inl ⟨fun hvis => hmarks ⟨_, hv.2.2.2.2, hvis.2⟩, fun hvis => hv.2.2.2.1 hvis.1⟩

theorem Destroyed.before
    (hu : s.Visible p u) (hv : s.Visible p v) (hbefore : acc'.1.Before u v) : s.Before u v := by
  have hz : ∀ {v}, s.Visible p v → acc'.1.z v = s.z v := by
    intro v hv
    have := (h.still hmarks v).resolve_left fun h => h.1 hv
    rw [z, this.1]
  exact before_of_z (hz hu) (hz hv) hbefore

end

theorem unchanged_kwmDestroyWindowsOf (h : ¬ Covers (s.kwmDestroyWindowsOf task).2 p) :
    Unchanged s (s.kwmDestroyWindowsOf task).1 p := by
  have hdone := destroyed_destroyWins s fun win => decide (win.ownerTask = task)
  unfold kwmDestroyWindowsOf at h ⊢
  generalize s.destroyWins (fun win => decide (win.ownerTask = task)) = acc at hdone h ⊢
  split_ifs at h ⊢ with hfocus
  · rw [covers_append, not_or] at h
    refine .of_still (fun v => ?_) fun u v hu hv => hdone.before h.1 hu hv
    rcases hdone.still h.1 v with hv | ⟨hwin, hhover⟩
    · exact .hidden hv.1 hv.2
    have hlook : (acc.1.kwmRefocus.wins v).look = (s.wins v).look := congrArg Win.look hwin
    by_cases hnew : acc.1.kwmRefocus.focusedWin = some v
    · exact .marked hlook (not_visible_of_frameDirtyOf h.2 hnew)
    by_cases hold : s.focusedWin = some v
    · -- the focus was on a window that is gone
      rw [focusDestroyed, hold] at hfocus
      have hgone := (Bool.and_eq_true _ _).mp hfocus
      rcases hdone.wins v with hv | hv
      · exact absurd (hv.2 (mem_finRange v) hgone.1) fun hno =>
          by cases hno.symm.trans hgone.2
      · exact .hidden (fun hvis => h.1 ⟨_, hv.2.2.2.2, hvis.2⟩) fun hvis => hv.2.2.2.1 hvis.1
    · exact .same hlook (iff_of_false hnew hold) hhover
  · refine .of_still (fun v => ?_) fun u v hu hv => hdone.before h hu hv
    rcases hdone.still h v with hv | ⟨hwin, hhover⟩
    · exact .hidden hv.1 hv.2
    · exact .same (congrArg Win.look hwin) (by rw [hdone.refs.1]) hhover

theorem unchanged_kwmDestroyAllWindows (h : ¬ Covers s.kwmDestroyAllWindows.2 p) :
    Unchanged s s.kwmDestroyAllWindows.1 p := by
  have hdone := destroyed_destroyWins s fun _ => true
  have hhidden : ∀ v, ¬ s.Visible p v ∧ ¬ s.kwmDestroyAllWindows.1.Visible p v := by
    intro v
    rcases hdone.wins v with hv | hv
    · have hoff : ¬ s.isActive v := fun ha => nomatch hv.2 (mem_finRange v) ha
      refine ⟨fun hvis => hoff hvis.1, fun hvis => hoff ?_⟩
      have := hvis.1
      rw [isActive, show s.kwmDestroyAllWindows.1.wins v = s.wins v from hv.1] at this
      exact this
    · exact ⟨fun hvis => h ⟨_, hv.2.2.2.2, hvis.2⟩, fun hvis => hv.2.2.2.1 hvis.1⟩
  exact .of_still (fun v => .hidden (hhidden v).1 (hhidden v).2) fun u _ hu => absurd hu (hhidden u).1

/-! ### Mouse and keyboard -/

theorem unchanged_mouseHover (h : ¬ Covers (s.mouseHover q).2 p) :
    Unchanged s (s.mouseHover q).1 p := by
  unfold mouseHover at h ⊢
  dsimp only at h ⊢
  refine .of_still (fun v => ?_) fun u v _ _ => before_of_z rfl rfl
  by_cases hsame : s.hoveredClose = s.closeUnder q
  · exact .same rfl Iff.rfl (by rw [← hsame])
  rw [if_neg hsame, covers_append, not_or] at h
  by_cases hold : s.hoveredClose = some v
  · exact .marked rfl (not_visible_of_frameDirtyOf h.1 hold)
  · by_cases hnew : s.closeUnder q = some v
    · exact .marked rfl (not_visible_of_frameDirtyOf h.2 hnew)
    · exact .same rfl Iff.rfl (iff_of_false hnew hold)

section
variable (hs : s.Inv)
include hs

theorem Inv.unchanged_mouseDrag (h : ¬ Covers (s.mouseDrag mode q).1.2 p) :
    Unchanged s (s.mouseDrag mode q).1.1 p := by
  unfold Kwm.mouseDrag at h ⊢
  cases hdrag : s.draggedWin with
  | none => exact .refl s p
  | some w =>
    rw [hdrag] at h
    dsimp only at h ⊢
    have hn := hs.dragged hdrag
    have htb : (s.wins w).titlebar = kwmTitlebarH := by
      rw [Win.titlebar, (isNormal_iff.mp hn).2, if_neg Bool.false_ne_true]
    have hon : ¬ (s.wins w).active = false := by
      rw [(isNormal_iff.mp hn).1]
      decide
    rw [if_neg hon] at h ⊢
    rw [covers_cons, covers_singleton, not_or] at h
    refine unchanged_setWin rfl (.hidden (fun hv => h.1 ?_) fun hv => h.2 ?_)
    · have := hv.2
      rw [destroyBounds, htb] at this
      exact this
    have hnew : p ∈ frameDirtyArea (dragClamp (q.1 - s.dragOffset.1) (s.wins w).width mode.1)
        (dragClamp (q.2 - s.dragOffset.2) ((s.wins w).height + kwmTitlebarH) mode.2)
        (s.wins w).width ((s.wins w).height + (s.wins w).titlebar) := by
      have := hv.2
      rw [wins_setWin_self] at this
      exact this
    rw [htb] at hnew
    exact hnew

theorem Inv.unchanged_mouseDown (h : ¬ Covers (s.mouseDown q).2 p) :
    Unchanged s (s.mouseDown q).1 p := by
  unfold Kwm.mouseDown at h ⊢
  cases hhit : s.kwmHitTest q with
  | none =>
    rw [hhit] at h
    refine .of_still (fun v => ?_) fun u v _ _ => before_of_z rfl rfl
    by_cases hold : s.focusedWin = some v
    · exact .marked rfl (not_visible_of_frameDirtyOf h hold)
    · exact .same rfl (iff_of_false nofun hold) Iff.rfl
  | some w =>
    rw [hhit] at h
    dsimp only at h ⊢
    revert h
    split
    · exact fun _ => .refl s p
    next hd =>
      have hn : s.isNormal w = true :=
        isNormal_iff.mpr ⟨(kwmHitTest_active hhit).1, Bool.eq_false_of_not_eq_true hd⟩
      split
      · exact fun h => (hs.unchanged_raise hn h).congr rfl rfl rfl
      · exact hs.unchanged_raise hn

theorem Inv.unchanged_kwmProcessMouse {down up : Bool}
    (h : ¬ Covers (s.kwmProcessMouse mode q down up).2 p) :
    Unchanged s (s.kwmProcessMouse mode q down up).1 p := by
  unfold Kwm.kwmProcessMouse at h ⊢
  dsimp only at h ⊢
  have hhover := hs.mouseHover q
  split_ifs at h ⊢ with hup hdrag
  · exact (unchanged_mouseHover h).congr rfl rfl rfl
  · rw [covers_append, not_or] at h
    exact (unchanged_mouseHover h.1).trans (hhover.unchanged_mouseDrag h.2)
  all_goals
    have hsame := mouseDrag_unconsumed (Bool.eq_false_of_not_eq_true hdrag)
    simp only [hsame] at h ⊢
  · rw [covers_append, not_or] at h
    exact (unchanged_mouseHover h.1).trans (hhover.unchanged_mouseDown h.2)
  · exact unchanged_mouseHover h

theorem Inv.unchanged_kwmHandleShortcut {alt released tab : Bool}
    (h : ¬ Covers (s.kwmHandleShortcut alt released tab).2 p) :
    Unchanged s (s.kwmHandleShortcut alt released tab).1 p := by
  unfold Kwm.kwmHandleShortcut at h ⊢
  split_ifs at h ⊢
  · exact (Unchanged.refl s p).congr rfl rfl rfl
  · exact .refl s p
  · cases htarget : s.cycleTarget with
    | some w =>
      have hcycle : s.kwmCycleFocus = {s.kwmBringToFront w with focusedWin := some w} := by
        unfold Kwm.kwmCycleFocus
        rw [htarget]
      rw [hcycle] at h ⊢
      exact (hs.unchanged_raise (cycleTarget_normal htarget) h).congr rfl rfl rfl
    | none =>
      have hcycle : s.kwmCycleFocus = {s with focusedWin := none} := by
        unfold Kwm.kwmCycleFocus
        rw [htarget]
      rw [hcycle] at h ⊢
      rw [covers_append, not_or] at h
      refine .of_still (fun v => ?_) fun u v _ _ => before_of_z rfl rfl
      by_cases hold : s.focusedWin = some v
      · have hmarks := h.2
        rw [if_neg (by rw [hold]; exact nofun)] at hmarks
        exact .marked rfl (not_visible_of_frameDirtyOf hmarks hold)
      · exact .same rfl (iff_of_false nofun hold) Iff.rfl
  · exact .refl s p

theorem Inv.unchanged_perform {op : KwmOp} (hp : p ∈ screenRect mode)
    (h : ¬ Covers (s.perform mode op).2 p) : Unchanged s (s.perform mode op).1 p := by
  cases op with
  | create owner x y width height canvas =>
    simp only [Kwm.perform, Kwm.kwmCreateWindow] at h ⊢
    split_ifs at h ⊢
    · exact .refl s p
    split at h
    · exact .refl s p
    next w hw => exact hs.unchanged_create (firstFree_inactive hw) rfl rfl h
  | createDesktop owner canvas =>
    simp only [Kwm.perform, Kwm.kwmCreateDesktop] at h ⊢
    split_ifs at h ⊢
    · exact .refl s p
    · exact .refl s p
    split at h
    · exact .refl s p
    · exact absurd (covers_singleton.mpr hp) h
  | setTitle task id title => exact unchanged_kwmSetTitle h
  | activate id =>
    simp only [Kwm.perform, Kwm.kwmActivateWindow] at h ⊢
    split at h
    · exact .refl s p
    next w hw =>
      revert h
      split
      · exact fun _ => .refl s p
      next hon => exact hs.unchanged_raise (Bool.eq_true_of_not_eq_false hon)
  | update task id src => exact unchanged_kwmUpdateWindow h
  | updateRect task id x y width height src => exact unchanged_kwmUpdateWindowRect h
  | setOpaque task id => exact unchanged_kwmSetWindowOpaque s p task id
  | destroy id => exact unchanged_kwmDestroyWindow h
  | destroyOf task => exact unchanged_kwmDestroyWindowsOf h
  | destroyAll => exact unchanged_kwmDestroyAllWindows h
  | hover q => exact unchanged_mouseHover h
  | mouseUp => exact (Unchanged.refl s p).congr rfl rfl rfl
  | drag q => exact hs.unchanged_mouseDrag h
  | mouseDown q => exact hs.unchanged_mouseDown h
  | mouse q down up => exact hs.unchanged_kwmProcessMouse h
  | shortcut alt released tab => exact hs.unchanged_kwmHandleShortcut h

end

/-- A pixel of the screen whose colour an operation changes is in a rectangle that the
operation marks. -/
theorem changes_are_marked (font : Font) (mode : Nat × Nat) {ops : List KwmOp}
    (run : Run (KwmStep mode) init ops s) (op : KwmOp) (base back : Buffer)
    (hp : p ∈ screenRect mode)
    (hchange : (s.naiveCompose font mode base (screenRect mode) back p).rgb ≠
      ((s.perform mode op).1.naiveCompose font mode base (screenRect mode) back p).rgb) :
    Covers (s.perform mode op).2 p := by
  by_contra h
  exact hchange (((Inv.run run).unchanged_perform hp h).naiveCompose hp)

/-- An empty window shows its edge; when it is destroyed, the base canvas is back. -/
theorem changes_are_marked_destroyed :
    let s := (init.perform (800, 600) (.create 1 10 10 4 4 true)).1
    let base : Buffer := fun _ => ⟨0, 0, 0, 0⟩
    (s.naiveCompose (fun _ _ => 0) (800, 600) base (screenRect (800, 600)) base (9, 20)).rgb ≠
        ((s.perform (800, 600) (.destroy 0)).1.naiveCompose (fun _ _ => 0) (800, 600) base
          (screenRect (800, 600)) base (9, 20)).rgb ∧
      Covers (s.perform (800, 600) (.destroy 0)).2 (9, 20) := by
  intro s base
  have run : Run (KwmStep (800, 600)) init [.create 1 10 10 4 4 true] s := .cons rfl (.nil _)
  have hchange : (s.naiveCompose (fun _ _ => 0) (800, 600) base (screenRect (800, 600)) base (9, 20)).rgb ≠
      ((s.perform (800, 600) (.destroy 0)).1.naiveCompose (fun _ _ => 0) (800, 600) base
        (screenRect (800, 600)) base (9, 20)).rgb := by
    decide +kernel
  exact ⟨hchange, changes_are_marked _ _ run _ base base (by decide) hchange⟩

end Kwm

end Kyuzen.Gfx
