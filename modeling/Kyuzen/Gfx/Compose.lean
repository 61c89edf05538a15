import Kyuzen.Gfx.KwmOps
import Kyuzen.Gfx.Opaque
import Kyuzen.Gfx.Paint

/-!
Composition of one dirty rectangle: the base copy that skips what opaque windows
cover, and the windows without the content that opaque windows in front of them
hide, against the composition that paints everything.
-/

namespace Kyuzen.Gfx

open List

/-! ### Rectangles without a part -/

/-- The pieces of `R` outside `C`: above, below, left and right. -/
def rectPieces (R C : Rect) : List Rect :=
  match rectIntersect R C with
  | none => [R]
  | some I =>
    (if R.y < I.y then [⟨R.x, R.y, R.width, (I.y - R.y).toNat⟩] else []) ++
    (if I.y + I.height < R.y + R.height then
      [⟨R.x, I.y + I.height, R.width, (R.y + R.height - (I.y + I.height)).toNat⟩] else []) ++
    (if R.x < I.x then [⟨R.x, I.y, (I.x - R.x).toNat, I.height⟩] else []) ++
    (if I.x + I.width < R.x + R.width then
      [⟨I.x + I.width, I.y, (R.x + R.width - (I.x + I.width)).toNat, I.height⟩] else [])

/-- Appending in `rect_subtract`, to at most `KWM_MAX_OCCLUSION_RECTS`. -/
def occlusionPush (out : List Rect) (q : Rect) : Option (List Rect) :=
  if 8 ≤ out.length then none else some (out ++ [q])

/-- `split_push`, to at most `KWM_MAX_SPLIT_RECTS`. -/
def splitPush (out : List Rect) (q : Rect) : Option (List Rect) :=
  if q.width = 0 ∨ q.height = 0 then some out
  else if 12 ≤ out.length then none
  else some (out ++ [q])

/-- All rectangles of `l` without `C`, unless the bound of `push` is hit. -/
def subtractAll (push : List Rect → Rect → Option (List Rect)) (l : List Rect) (C : Rect) :
    Option (List Rect) :=
  (l.flatMap (rectPieces · C)).foldlM push []

section Pieces

variable {R C I : Rect} {p : Point} {l out : List Rect}

theorem covers_singleton {r : Rect} : Covers [r] p ↔ p ∈ r := by
  rw [covers_cons, or_iff_left covers_nil]

theorem covers_ite {c : Prop} [Decidable c] {q : Rect} :
    Covers (if c then [q] else []) p ↔ c ∧ p ∈ q := by
  split
  next h => rw [covers_singleton, and_iff_right h]
  next h => exact iff_of_false covers_nil fun hc => h hc.1

theorem rectIntersect_within (h : rectIntersect R C = some I) :
    R.x ≤ I.x ∧ I.x + I.width ≤ R.x + R.width ∧ R.y ≤ I.y ∧ I.y + I.height ≤ R.y + R.height := by
  unfold rectIntersect at h
  dsimp only at h
  split at h
  · exact nomatch h
  · obtain rfl := Option.some.inj h
    dsimp only
    omega

theorem covers_rectPieces : Covers (rectPieces R C) p ↔ p ∈ R ∧ p ∉ C := by
  unfold rectPieces
  cases h : rectIntersect R C with
  | none => rw [covers_singleton, iff_self_and]; exact not_mem_of_rectIntersect h
  | some I =>
    have hI : p ∈ R ∧ p ∉ C ↔ p ∈ R ∧ p ∉ I := by
      rw [mem_rectIntersect h]
      tauto
    have hwithin := rectIntersect_within h
    rw [hI]
    simp only [covers_append, covers_ite, Rect.mem_def]
    omega

/-- `push` appends its rectangle, up to pixels it has not. -/
def Pushes (push : List Rect → Rect → Option (List Rect)) : Prop :=
  ∀ {out q out' p}, push out q = some out' → (Covers out' p ↔ Covers out p ∨ p ∈ q)

theorem pushes_occlusionPush : Pushes occlusionPush := by
  intro out q out' p h
  unfold occlusionPush at h
  split at h
  · exact nomatch h
  · obtain rfl := Option.some.inj h
    rw [covers_append, covers_singleton]

theorem pushes_splitPush : Pushes splitPush := by
  intro out q out' p h
  unfold splitPush at h
  split at h
  next hempty =>
    obtain rfl := Option.some.inj h
    have : p ∉ q := by
      simp only [Rect.mem_def]
      omega
    rw [or_iff_left this]
  · split at h
    · exact nomatch h
    · obtain rfl := Option.some.inj h
      rw [covers_append, covers_singleton]

variable {push : List Rect → Rect → Option (List Rect)}

theorem Pushes.foldlM (hpush : Pushes push) {acc : List Rect} (h : l.foldlM push acc = some out) :
    Covers out p ↔ Covers acc p ∨ Covers l p := by
  induction l generalizing acc with
  | nil =>
    obtain rfl := Option.some.inj h
    rw [or_iff_left covers_nil]
  | cons q l ih =>
    rw [foldlM_cons] at h
    obtain ⟨acc', hacc', hrest⟩ := Option.bind_eq_some_iff.mp h
    rw [ih hrest, hpush hacc', covers_cons, or_assoc]

theorem Pushes.subtractAll (hpush : Pushes push) (h : subtractAll push l C = some out) :
    Covers out p ↔ Covers l p ∧ p ∉ C := by
  rw [hpush.foldlM h, or_iff_right covers_nil]
  constructor
  · rintro ⟨q, hq, hp⟩
    obtain ⟨R, hR, hqR⟩ := mem_flatMap.mp hq
    have := covers_rectPieces.mp ⟨q, hqR, hp⟩
    exact ⟨⟨R, hR, this.1⟩, this.2⟩
  · rintro ⟨⟨R, hR, hpR⟩, hC⟩
    obtain ⟨q, hq, hp⟩ := covers_rectPieces.mpr ⟨hpR, hC⟩
    exact ⟨q, mem_flatMap.mpr ⟨R, hR, hq⟩, hp⟩

end Pieces

/-! ### The base copy -/

def screenRect (mode : Nat × Nat) : Rect := ⟨0, 0, mode.1, mode.2⟩

/-- `blit_rect_db` between buffers of the size of the screen. -/
def blitRectDb (mode : Nat × Nat) (src : Buffer) (r : Rect) (dst : Buffer) : Buffer := fun p =>
  if p ∈ r ∧ p ∈ screenRect mode then src p else dst p

namespace Kwm

variable {fb : Buffer} {font : Font} {l : List Slot}

/-- A window whose content may stand for what is below it. -/
def isCover (s : Kwm) (w : Slot) : Prop :=
  s.isActive w ∧ (s.wins w).fullyOpaque = true ∧ s.z w ≤ s.nextZIndex

instance (s : Kwm) : DecidablePred s.isCover := fun _ => by
  unfold isCover
  infer_instance

def coverScore (crect : Rect) (remain : List Rect) : Nat :=
  (remain.map fun R =>
    match rectIntersect crect R with
    | some t => t.width * t.height
    | none => 0).sum

/-- A whole rectangle of `remain` is covered. -/
def coverFull (crect : Rect) (remain : List Rect) : Bool :=
  remain.any fun R => (rectIntersect crect R).isSome && rectContains crect R

def bestCover (s : Kwm) (remain : List Rect) : Option Slot :=
  scanMax s.isCover (fun w => coverScore (s.wins w).content remain) 0 (finRange 16)

/-- The loop of `base_blit_for_region`, for `steps` more windows. -/
def splitRemain (s : Kwm) : Nat → List Rect → List Rect
  | 0, remain => remain
  | steps + 1, remain =>
    match s.bestCover remain with
    | none => remain
    | some w =>
      let best := (s.wins w).content
      if coverScore best remain < 1024 ∧ coverFull best remain = false then remain
      else
        match subtractAll splitPush remain best with
        | none => remain
        | some out => s.splitRemain steps out

def baseBlitForRegion (mode : Nat × Nat) (s : Kwm) (base : Buffer) (r : Rect) (back : Buffer) :
    Buffer :=
  (s.splitRemain 4 [r]).foldl (fun fb q => blitRectDb mode base q fb) back

/-! ### The windows -/

/-- The windows `occ_slot` of `composite_windows_in_rect`. -/
def occluders (s : Kwm) (r : Rect) : List Slot :=
  (finRange 16).filter fun v =>
    decide (s.isCover v) && (rectIntersect (s.wins v).content r).isSome

/-- The part of `clip` that no opaque window in front of `w` hides, or all of it when the
bound is hit. -/
def visibleRects (s : Kwm) (r : Rect) (w : Slot) (clip : Rect) : List Rect :=
  (((s.occluders r).filter fun v => decide (s.Before w v)).foldlM
    (fun vis v => subtractAll occlusionPush vis (s.wins v).content) [clip]).getD [clip]

def compositeContent (s : Kwm) (r : Rect) (w : Slot) (fb : Buffer) : Buffer :=
  match rectIntersect (s.wins w).content r with
  | none => fb
  | some clip =>
    (s.visibleRects r w clip).foldl
      (fun fb c => mixContent (s.wins w) (s.wins w).fullyOpaque c fb) fb

def titlebarOf (font : Font) (s : Kwm) (w : Slot) (r : Rect) (fb : Buffer) : Buffer :=
  paintTitlebar font (s.wins w) (decide (s.focusedWin = some w)) (decide (s.hoveredClose = some w)) r fb

def compositeWindow (font : Font) (s : Kwm) (r : Rect) (fb : Buffer) (w : Slot) : Buffer :=
  s.titlebarOf font w r (s.compositeContent r w (paintShadow (s.wins w) r fb))

def compositeWindowsInRect (font : Font) (s : Kwm) (r : Rect) (fb : Buffer) : Buffer :=
  s.paintOrder.foldl (s.compositeWindow font r) fb

/-! ### The composition that leaves nothing out -/

def naiveOrder (s : Kwm) : List Slot :=
  ((finRange 16).filter fun w => (s.wins w).active).insertionSort
    fun v w => toLex (s.z v, v) ≤ toLex (s.z w, w)

def naiveWindow (font : Font) (s : Kwm) (r : Rect) (fb : Buffer) (w : Slot) : Buffer :=
  paintWindow font (s.wins w) (decide (s.focusedWin = some w)) (decide (s.hoveredClose = some w)) r fb

/-- The base canvas over `r`, then every window with all its parts. -/
def naiveCompose (font : Font) (mode : Nat × Nat) (s : Kwm) (base : Buffer) (r : Rect) (back : Buffer) :
    Buffer :=
  s.naiveOrder.foldl (s.naiveWindow font r) (blitRectDb mode base r back)

variable {s s' : Kwm} {w : Slot} {r : Rect} {p : Point}

theorem mem_naiveOrder : w ∈ s.naiveOrder ↔ s.isActive w := by
  rw [naiveOrder, mem_insertionSort, mem_filter, and_iff_right (mem_finRange w)]

theorem Before.irrefl (w : Slot) : ¬ s.Before w w := fun h => h.asymm h

theorem naiveOrder_sorted (s : Kwm) : s.naiveOrder.Pairwise s.Before := by
  let le (v w : Slot) : Prop := toLex (s.z v, v) ≤ toLex (s.z w, w)
  have : Std.Total le := ⟨fun _ _ => le_total _ _⟩
  have : IsTrans Slot le := ⟨fun _ _ _ => le_trans⟩
  have hnodup : s.naiveOrder.Nodup :=
    (perm_insertionSort _ _).nodup_iff.mpr ((nodup_finRange 16).filter _)
  have hle : s.naiveOrder.Pairwise le := pairwise_insertionSort _ _
  refine (hle.and hnodup).imp ?_
  rintro u v ⟨h, hne⟩
  rcases Prod.Lex.toLex_le_toLex.mp h with hlt | ⟨heq, hle⟩
  · exact .inl hlt
  · exact .inr ⟨heq, lt_of_le_of_ne hle hne⟩

/-- Two sorted lists of the same windows, in states that order these alike. -/
theorem order_unique {l' : List Slot} (hl : l.Pairwise s.Before) (hl' : l'.Pairwise s'.Before)
    (hmem : ∀ w, w ∈ l ↔ w ∈ l') (hbefore : ∀ u v, u ∈ l → v ∈ l → s'.Before u v → s.Before u v) :
    l = l' := by
  have hnodup : l.Nodup := hl.imp fun {u v} h (heq : u = v) => Before.irrefl v (heq ▸ h)
  have hnodup' : l'.Nodup := hl'.imp fun {u v} h (heq : u = v) => Before.irrefl v (heq ▸ h)
  have hperm : l.Perm l' := (perm_ext_iff_of_nodup hnodup hnodup').mpr hmem
  have hl'' : l'.Pairwise s.Before :=
    hl'.imp_of_mem fun {u v} hu hv => hbefore u v ((hmem u).mpr hu) ((hmem v).mpr hv)
  exact hperm.eq_of_pairwise (fun _ _ _ _ h h' => absurd h' h.asymm) hl hl''

theorem paintOrder_eq (hz : ∀ w, s.isActive w → s.z w ≤ s.nextZIndex) :
    s.paintOrder = s.naiveOrder := by
  refine order_unique s.paintOrder_sorted s.naiveOrder_sorted (fun w => ?_) fun _ _ _ _ h => h
  rw [mem_paintOrder, mem_naiveOrder]
  exact ⟨fun h => h.1, fun h => ⟨h, hz w h⟩⟩

/-! ### What the base copy leaves -/

variable {remain : List Rect} {draw : Buffer → Rect → Buffer} {clip : Rect} {win : Win} {fb' : Buffer}

theorem splitRemain_covers (steps : Nat)
    (h : Covers remain p) (hout : ∀ w, s.isCover w → p ∉ (s.wins w).content) :
    Covers (s.splitRemain steps remain) p := by
  induction steps generalizing remain with
  | zero => exact h
  | succ steps ih =>
    rw [splitRemain]
    split
    · exact h
    next w hw =>
      dsimp only
      split
      · exact h
      split
      · exact h
      next out hsub =>
        apply ih
        exact (pushes_splitPush.subtractAll hsub).mpr ⟨h, hout w (scanMax_some hw).2.1⟩

theorem splitRemain_within (steps : Nat)
    (h : Covers (s.splitRemain steps remain) p) : Covers remain p := by
  induction steps generalizing remain with
  | zero => exact h
  | succ steps ih =>
    rw [splitRemain] at h
    split at h
    · exact h
    next w hw =>
      dsimp only at h
      split at h
      · exact h
      split at h
      · exact h
      next out hsub => exact ((pushes_splitPush.subtractAll hsub).mp (ih h)).1

theorem foldl_draw_out {l : List Rect}
    (hdraw : ∀ {fb c}, p ∉ c → draw fb c p = fb p) (h : ¬ Covers l p) :
    l.foldl draw fb p = fb p := by
  induction l generalizing fb with
  | nil => rfl
  | cons q l ih =>
    rw [covers_cons, not_or] at h
    rw [foldl_cons, ih h.2, hdraw h.1]

/-- Where a rectangle turns `v` into `v'` and leaves `v'`, it does not matter how many of
them contain a pixel. -/
theorem foldl_draw_in {l : List Rect} {v v' : Color} (hout : ∀ {fb c}, p ∉ c → draw fb c p = fb p)
    (hin : ∀ {fb c}, p ∈ c → fb p = v ∨ fb p = v' → draw fb c p = v')
    (h : Covers l p ∧ fb p = v ∨ fb p = v') : l.foldl draw fb p = v' := by
  induction l generalizing fb with
  | nil => exact h.resolve_left fun h => covers_nil h.1
  | cons q l ih =>
    rw [foldl_cons]
    apply ih
    by_cases hq : p ∈ q
    · exact .inr (hin hq (h.imp_left And.right))
    · rw [hout hq]
      exact h.imp_left fun h => ⟨(covers_cons.mp h.1).resolve_left hq, h.2⟩

/-! ### What a window leaves -/

theorem foldl_visible {vis out : List Rect}
    (h : l.foldlM (fun vis v => subtractAll occlusionPush vis (s.wins v).content) vis = some out) :
    Covers out p ↔ Covers vis p ∧ ∀ v ∈ l, p ∉ (s.wins v).content := by
  induction l generalizing vis with
  | nil =>
    obtain rfl := Option.some.inj h
    exact ⟨fun h => ⟨h, nofun⟩, fun h => h.1⟩
  | cons v l ih =>
    rw [foldlM_cons] at h
    obtain ⟨vis', hvis', hrest⟩ := Option.bind_eq_some_iff.mp h
    rw [ih hrest, pushes_occlusionPush.subtractAll hvis', forall_mem_cons, and_assoc]

theorem visibleRects_within (h : Covers (s.visibleRects r w clip) p) : p ∈ clip := by
  unfold visibleRects at h
  cases hvis : ((s.occluders r).filter fun v => decide (s.Before w v)).foldlM
      (fun vis v => subtractAll occlusionPush vis (s.wins v).content) [clip] with
  | none =>
    rw [hvis] at h
    exact covers_singleton.mp h
  | some out =>
    rw [hvis] at h
    exact covers_singleton.mp ((foldl_visible hvis).mp h).1

theorem visibleRects_covers (hp : p ∈ clip)
    (hfront : ∀ v, s.isCover v → s.Before w v → p ∉ (s.wins v).content) :
    Covers (s.visibleRects r w clip) p := by
  unfold visibleRects
  cases hvis : ((s.occluders r).filter fun v => decide (s.Before w v)).foldlM
      (fun vis v => subtractAll occlusionPush vis (s.wins v).content) [clip] with
  | none => exact covers_singleton.mpr hp
  | some out =>
    refine (foldl_visible hvis).mpr ⟨covers_singleton.mpr hp, fun v hv => ?_⟩
    obtain ⟨hocc, hbefore⟩ := mem_filter.mp hv
    have hcover := (Bool.and_eq_true _ _).mp (mem_filter.mp hocc).2
    exact hfront v (of_decide_eq_true hcover.1) (of_decide_eq_true hbefore)

theorem mixPixel_idem (px : Color) (bulk : Bool) (v : Color) :
    mixPixel px bulk (mixPixel px bulk v) = mixPixel px bulk v := by
  unfold mixPixel
  split
  · rfl
  · split <;> rfl

theorem compositeContent_out (h : ¬ (p ∈ (s.wins w).content ∧ p ∈ r)) :
    s.compositeContent r w fb p = fb p := by
  unfold compositeContent
  cases hclip : rectIntersect (s.wins w).content r with
  | none => rfl
  | some clip =>
    refine foldl_draw_out (fun hp => if_neg hp) fun hcov => h ?_
    exact (mem_rectIntersect hclip).mp (visibleRects_within hcov)

theorem compositeContent_in (hc : p ∈ (s.wins w).content) (hp : p ∈ r)
    (hfront : ∀ v, s.isCover v → s.Before w v → p ∉ (s.wins v).content) :
    s.compositeContent r w fb p =
      mixPixel ((s.wins w).pixel p) (s.wins w).fullyOpaque (fb p) := by
  unfold compositeContent
  cases hclip : rectIntersect (s.wins w).content r with
  | none => exact absurd hp (not_mem_of_rectIntersect hclip hc)
  | some clip =>
    have hclip := (mem_rectIntersect hclip).mpr ⟨hc, hp⟩
    refine foldl_draw_in (fun hp => if_neg hp) (fun hp hv => (if_pos hp).trans ?_)
      (.inl ⟨visibleRects_covers hclip hfront, rfl⟩)
    rcases hv with hv | hv
    · rw [hv]
    · rw [hv, mixPixel_idem]

theorem paintContent_in (hc : p ∈ win.content) (hp : p ∈ r) :
    paintContent win r fb p = mixPixel (win.pixel p) false (fb p) := by
  unfold paintContent
  cases hclip : rectIntersect win.content r with
  | none => exact absurd hp (not_mem_of_rectIntersect hclip hc)
  | some clip => exact if_pos ((mem_rectIntersect hclip).mpr ⟨hc, hp⟩)

theorem pixel_alpha (hwin : win.AllOpaque) (hc : p ∈ win.content) : (win.pixel p).a ≠ 0 := by
  simp only [Rect.mem_def, Win.content] at hc
  exact hwin _ _ (by omega) (by omega)

theorem compositeWindow_out (hp : p ∉ r) : s.compositeWindow font r fb w p = fb p := by
  rw [compositeWindow, titlebarOf, (isPaint_paintTitlebar _ _ _ _).out hp,
    compositeContent_out fun h => hp h.2, (isPaint_paintShadow _).out hp]

/-- Where no opaque window in front of `w` covers a pixel, `w` leaves the colour that it
leaves when all of it is painted. -/
theorem compositeWindow_rgb (hp : p ∈ r)
    (hfront : ∀ v, s.isCover v → s.Before w v → p ∉ (s.wins v).content)
    (hflag : (s.wins w).fullyOpaque = true → (s.wins w).AllOpaque)
    (h : (s.wins w).fullyOpaque = true ∧ p ∈ (s.wins w).content ∨ (fb p).rgb = (fb' p).rgb) :
    (s.compositeWindow font r fb w p).rgb = (s.naiveWindow font r fb' w p).rgb := by
  apply (isPaint_paintTitlebar _ _ _ _).congr hp hp
  by_cases hc : p ∈ (s.wins w).content
  · rw [compositeContent_in hc hp hfront, paintContent_in hc hp]
    cases hop : (s.wins w).fullyOpaque with
    | true =>
      simp only [mixPixel, if_true, Bool.false_eq_true, if_false,
        if_pos (pixel_alpha (hflag hop) hc)]
      rfl
    | false =>
      rw [hop] at h
      have hfb := h.resolve_left fun h => by cases h.1
      have hshadow := (isPaint_paintShadow (s.wins w)).congr hp hp hfb
      simp only [mixPixel, Bool.false_eq_true, if_false]
      split
      · rfl
      · exact hshadow
  · rw [compositeContent_out fun h => hc h.1, (isPaint_paintContent _).area hc]
    exact (isPaint_paintShadow _).congr hp hp (h.resolve_left fun h => hc h.2)

/-- From a point of the paint order on: the colours agree now, or an opaque window that is
still to come decides. -/
theorem foldl_composite_rgb (hp : p ∈ r)
    (hflag : ∀ w, s.isActive w → (s.wins w).fullyOpaque = true → (s.wins w).AllOpaque)
    (l : List Slot) (hl : l.Pairwise s.Before) (hactive : ∀ w ∈ l, s.isActive w)
    (hrest : ∀ w ∈ l, ∀ v, s.isCover v → s.Before w v → v ∈ l)
    (h : (fb p).rgb = (fb' p).rgb ∨
      ∃ w ∈ l, (s.wins w).fullyOpaque = true ∧ p ∈ (s.wins w).content) :
    (l.foldl (s.compositeWindow font r) fb p).rgb = (l.foldl (s.naiveWindow font r) fb' p).rgb := by
  induction l generalizing fb fb' with
  | nil => exact h.resolve_right fun ⟨_, hw, _⟩ => nomatch hw
  | cons w l ih =>
    obtain ⟨hw, hl'⟩ := pairwise_cons.mp hl
    have hrest' : ∀ u ∈ l, ∀ v, s.isCover v → s.Before u v → v ∈ l := by
      intro u hu v hv huv
      rcases mem_cons.mp (hrest u (.tail _ hu) v hv huv) with rfl | hmem
      · exact absurd huv (hw u hu).asymm
      · exact hmem
    rw [foldl_cons, foldl_cons]
    apply ih hl' (fun u hu => hactive u (.tail _ hu)) hrest'
    by_cases hlater : ∃ u ∈ l, (s.wins u).fullyOpaque = true ∧ p ∈ (s.wins u).content
    · exact .inr hlater
    left
    apply compositeWindow_rgb hp
    · intro v hv hwv hc
      have hmem := hrest w (.head _) v hv hwv
      rcases mem_cons.mp hmem with rfl | hmem
      · exact Before.irrefl v hwv
      · exact hlater ⟨v, hmem, hv.2.1, hc⟩
    · exact hflag w (hactive w (.head _))
    · rcases h with h | ⟨u, hu, hcov⟩
      · exact .inr h
      · rcases mem_cons.mp hu with rfl | hu
        · exact .inl hcov
        · exact absurd ⟨u, hu, hcov⟩ hlater

theorem foldl_composite_out (hp : p ∉ r) : l.foldl (s.compositeWindow font r) fb p = fb p := by
  induction l generalizing fb with
  | nil => rfl
  | cons w l ih => rw [foldl_cons, ih, compositeWindow_out hp]

/-- The composition of a rectangle leaves the colours of the composition that paints every
window in full over all of the base canvas, and nothing outside the rectangle changes. -/
theorem composition_exact (font : Font) (mode : Nat × Nat) {ops : List KwmOp}
    (run : Run (KwmStep mode) init ops s)
    (hflag : ∀ w, s.isActive w → (s.wins w).fullyOpaque = true → (s.wins w).AllOpaque)
    (base back : Buffer) (r : Rect) (hr : ∀ p, p ∈ r → p ∈ screenRect mode) :
    let out := s.compositeWindowsInRect font r (s.baseBlitForRegion mode base r back)
    (∀ p, p ∈ r → (out p).rgb = (s.naiveCompose font mode base r back p).rgb) ∧
      ∀ p, p ∉ r → out p = back p := by
  have hz : ∀ w, s.isActive w → s.z w ≤ s.nextZIndex := fun w hw => (Inv.run run).z_le hw
  have horder := paintOrder_eq hz
  refine ⟨fun p hp => ?_, fun p hp => ?_⟩
  · have hactive : ∀ w ∈ s.paintOrder, s.isActive w := fun w hw => (mem_paintOrder.mp hw).1
    rw [compositeWindowsInRect, naiveCompose, ← horder]
    apply foldl_composite_rgb hp hflag _ s.paintOrder_sorted hactive
    · exact fun _ _ v hv _ => mem_paintOrder.mpr ⟨hv.1, hv.2.2⟩
    by_cases hcov : ∃ w ∈ s.paintOrder, (s.wins w).fullyOpaque = true ∧ p ∈ (s.wins w).content
    · exact .inr hcov
    left
    have hremain : Covers (s.splitRemain 4 [r]) p := by
      apply splitRemain_covers 4 (covers_singleton.mpr hp)
      intro w hw hc
      exact hcov ⟨w, mem_paintOrder.mpr ⟨hw.1, hw.2.2⟩, hw.2.1, hc⟩
    have hbase : s.baseBlitForRegion mode base r back p = base p :=
      foldl_draw_in (fun hq => if_neg fun h => hq h.1) (fun hq _ => if_pos ⟨hq, hr p hp⟩)
        (.inl ⟨hremain, rfl⟩)
    rw [hbase, blitRectDb, if_pos ⟨hp, hr p hp⟩]
  · rw [compositeWindowsInRect, foldl_composite_out hp, baseBlitForRegion]
    refine foldl_draw_out (fun hq => if_neg fun h => hq h.1) fun h => hp ?_
    exact covers_singleton.mp (splitRemain_within 4 h)

/-- A window of solid colour, and over a part of it another one. -/
def solidAndOther : List KwmOp :=
  [.create 1 0 0 4 4 true, .update 1 0 Uploads.solid, .setOpaque 1 0, .create 2 2 2 4 4 true]

theorem composition_exact_two :
    let s := solidAndOther.foldl (fun s op => (s.perform (800, 600) op).1) init
    let base : Buffer := fun _ => ⟨1, 2, 3, 0⟩
    let back : Buffer := fun _ => ⟨9, 9, 9, 0⟩
    let out := s.compositeWindowsInRect (fun _ _ => 0) ⟨0, 30, 8, 8⟩
      (s.baseBlitForRegion (800, 600) base ⟨0, 30, 8, 8⟩ back)
    (s.wins 0).fullyOpaque = true ∧ (s.wins 1).active = true ∧
      (∀ p ∈ (⟨0, 30, 8, 8⟩ : Rect), (out p).rgb =
        (s.naiveCompose (fun _ _ => 0) (800, 600) base ⟨0, 30, 8, 8⟩ back p).rgb) ∧
      out (0, 0) = back (0, 0) := by
  intro s base back out
  have run : Run (KwmStep (800, 600)) init solidAndOther s := Run.foldl (by intro _ _ _; rfl) _
  have hrect : ∀ w, (s.wins w).fullyOpaque = true →
      canvasRectOpaque (s.wins w).canvas 0 0 (s.wins w).width (s.wins w).height = true := by
    decide +kernel
  have hflag : ∀ w, s.isActive w → (s.wins w).fullyOpaque = true → (s.wins w).AllOpaque :=
    fun w _ hw => Uploads.allOpaque_of_rect (hrect w hw)
  have hr : ∀ p ∈ (⟨0, 30, 8, 8⟩ : Rect), p ∈ screenRect (800, 600) := by
    intro p hp
    simp only [Rect.mem_def, screenRect] at hp ⊢
    omega
  obtain ⟨hin, hout⟩ := composition_exact (fun _ _ => 0) (800, 600) run hflag base back _ hr
  exact ⟨by decide +kernel, by decide +kernel, hin, hout _ (by decide)⟩

end Kwm

end Kyuzen.Gfx
