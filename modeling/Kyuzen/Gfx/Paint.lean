import Kyuzen.Gfx.Kwm

/-!
The drawing primitives of `compositor.c` and the parts of a window made of them.
All of them are confined to their clip and change a pixel by its own colour only;
`IsPaint` says so once, and is closed under sequences and loops.
-/

namespace Kyuzen.Gfx

open List Kwm

abbrev Buffer := Point → Color

def Color.rgb (c : Color) : UInt8 × UInt8 × UInt8 := (c.r, c.g, c.b)

def colorHex (r g b : UInt8) : Color := ⟨r, g, b, 255⟩

def xrgbPx (c : Color) : Color := {c with a := 0}

def colorWithAlpha (c : Color) (a : Nat) : Color := {c with a := UInt8.ofNat a}

def colorOpaque (c : Color) : Color := {c with a := 255}

def blendChannel (s d a : UInt8) : UInt8 :=
  UInt8.ofNat ((s.toNat * a.toNat + d.toNat * (255 - a.toNat)) / 255)

def colorBlendAlpha (src dst : Color) : Color :=
  if src.a = 0 then dst
  else if dst.a = 0 then {src with a := 255}
  else if src.a = 255 then src
  else ⟨blendChannel src.r dst.r src.a, blendChannel src.g dst.g src.a,
    blendChannel src.b dst.b src.a, 255⟩

/-- The pixel that a blend of `c` with coverage `a` leaves. -/
def blendOver (c : Color) (a : Nat) (dst : Color) : Color :=
  xrgbPx (colorBlendAlpha (colorWithAlpha c a) (colorOpaque dst))

/-! ### Primitives -/

def fillRectClip (area : Rect) (color : Color) (clip : Rect) (fb : Buffer) : Buffer :=
  match rectIntersect area clip with
  | none => fb
  | some c => fun p => if p ∈ c then xrgbPx color else fb p

def blendPx (q : Point) (c : Color) (a : Nat) (clip : Rect) (fb : Buffer) : Buffer :=
  if a = 0 then fb
  else if q ∉ clip then fb
  else fun p => if p = q then blendOver c a (fb p) else fb p

def blendRectClip (area : Rect) (c : Color) (a : Nat) (clip : Rect) (fb : Buffer) : Buffer :=
  if a = 0 then fb
  else
    match rectIntersect area clip with
    | none => fb
    | some k => fun p => if p ∈ k then blendOver c a (fb p) else fb p

def plot (q : Point) (color : Color) (clip : Rect) (fb : Buffer) : Buffer :=
  if q ∈ clip then fun p => if p = q then xrgbPx color else fb p else fb

/-- `aa_cov`: 4 × 4 samples in a rounded corner. -/
def aaCov (px py x y : Int) (w h rt rb : Nat) : Nat :=
  let samples (r : Nat) (cy : Int) : Nat :=
    let cx? : Option Int :=
      if px < x + r then some (x + r) else if x + w - r ≤ px then some (x + w - r) else none
    match cx? with
    | none => 255
    | some cx =>
      let hit := ([1, 3, 5, 7].flatMap fun sy => [1, 3, 5, 7].map fun sx => (sx, sy)).countP
        fun (sx, sy) =>
          decide ((px * 8 + sx - cx * 8) ^ 2 + (py * 8 + sy - cy * 8) ^ 2 ≤ ((r * 8) * (r * 8) : Int))
      hit * 255 / 16
  if 0 < rt ∧ py < y + rt then samples rt (y + rt)
  else if 0 < rb ∧ y + h - rb ≤ py then samples rb (y + h - rb)
  else 255

/-- Row `i` of `round_grad_fill`. -/
def roundGradRow (a : Rect) (top bot : Color) (rt rb i : Nat) (clip : Rect) (fb : Buffer) : Buffer :=
  let iy := a.y + i
  let cv := i * 255 / (if 1 < a.height then a.height - 1 else 1)
  let c := if top = bot then top else colorBlendAlpha (colorWithAlpha bot cv) top
  let r := if rt ≠ 0 ∧ i < rt then rt else if rb ≠ 0 ∧ a.height ≤ i + rb then rb else 0
  if r = 0 then fillRectClip ⟨a.x, iy, a.width, 1⟩ c clip fb
  else
    (range r).foldl (fun fb (k : Nat) =>
        let right := a.x + a.width - 1 - k
        blendPx (right, iy) c (aaCov right iy a.x a.y a.width a.height rt rb) clip
          (blendPx (a.x + k, iy) c (aaCov (a.x + k) iy a.x a.y a.width a.height rt rb) clip fb))
      (fillRectClip ⟨a.x + r, iy, a.width - 2 * r, 1⟩ c clip fb)

def roundGradFill (a : Rect) (top bot : Color) (rt rb : Nat) (clip : Rect) (fb : Buffer) : Buffer :=
  if a.width = 0 ∨ a.height = 0 then fb
  else
    (range a.height).foldl
      (fun fb i => roundGradRow a top bot (min rt (a.width / 2)) (min rb (a.width / 2)) i clip fb) fb

/-- The rings of the shadow, from the innermost one, with their alpha. -/
def shadowRings : List (Nat × Nat) := [(1, 58), (2, 46), (3, 34), (4, 24), (5, 15), (6, 8)]

/-- Ring `k` of the shadow, 3 pixels down. -/
def shadowRing (frame : Rect) (k a : Nat) (clip : Rect) (fb : Buffer) : Buffer :=
  let s : Rect := ⟨frame.x - k, frame.y - k + 3, frame.width + 2 * k, frame.height + 2 * k⟩
  let black := colorHex 0 0 0
  let fb := blendRectClip ⟨s.x, s.y, s.width, 1⟩ black a clip fb
  let fb := blendRectClip ⟨s.x, s.y + s.height - 1, s.width, 1⟩ black a clip fb
  let fb := blendRectClip ⟨s.x, s.y + 1, 1, s.height - 2⟩ black a clip fb
  blendRectClip ⟨s.x + s.width - 1, s.y + 1, 1, s.height - 2⟩ black a clip fb

def frameShadow (frame : Rect) (clip : Rect) (fb : Buffer) : Buffer :=
  shadowRings.foldl (fun fb ring => shadowRing frame ring.1 ring.2 clip fb) fb

def kwmEdgeColor : Color := colorHex 0x9A 0x9A 0x9A

def frameEdge (frame : Rect) (clip : Rect) (fb : Buffer) : Buffer :=
  let fb := blendRectClip ⟨frame.x - 1, frame.y, 1, frame.height⟩ kwmEdgeColor 70 clip fb
  let fb := blendRectClip ⟨frame.x + frame.width, frame.y, 1, frame.height⟩ kwmEdgeColor 70 clip fb
  blendRectClip ⟨frame.x - 1, frame.y + frame.height, frame.width + 2, 1⟩ kwmEdgeColor 70 clip fb

def titlebarLine (x0 y0 x1 y1 : Int) (color : Color) (clip : Rect) (fb : Buffer) : Buffer :=
  let dx := x1 - x0
  let dy := y1 - y0
  let steps := max (max dx.natAbs dy.natAbs) 1
  (range (steps + 1)).foldl
    (fun fb (i : Nat) => plot (x0 + (dx * i).tdiv steps, y0 + (dy * i).tdiv steps) color clip fb) fb

/-- The rows of a glyph of `font8x16`. -/
abbrev Font := UInt8 → Nat → UInt8

def glyph (font : Font) (c : UInt8) (x y : Int) (color : Color) (clip : Rect) (fb : Buffer) : Buffer :=
  (range 16).foldl (fun fb (row : Nat) =>
    (range 8).foldl (fun fb (col : Nat) =>
      if font c row &&& (0x80 >>> UInt8.ofNat col) = 0 then fb
      else plot (x + col, y + row) color clip fb) fb) fb

def titlebarText (font : Font) (y maxX : Int) (color : Color) (clip : Rect) :
    List UInt8 → Int → Buffer → Buffer
  | [], _, fb => fb
  | c :: str, x, fb =>
    if x + 8 ≤ maxX then
      titlebarText font y maxX color clip str (x + 8)
        (if 127 < c then fb else glyph font c x y color clip fb)
    else fb

/-! ### The parts of a window -/

/-- Shadow and edge, which the desktop has not. -/
def paintShadow (win : Win) (clip : Rect) (fb : Buffer) : Buffer :=
  if win.desktop then fb else frameEdge win.frame clip (frameShadow win.frame clip fb)

def Win.pixel (win : Win) (p : Point) : Color :=
  win.canvas (p.1 - win.x).toNat (p.2 - (win.y + win.titlebar)).toNat

/-- What `mix_content` leaves in a pixel. -/
def mixPixel (px : Color) (bulk : Bool) (dst : Color) : Color :=
  if bulk then px else if px.a ≠ 0 then xrgbPx px else dst

def mixContent (win : Win) (bulk : Bool) (c : Rect) (fb : Buffer) : Buffer := fun p =>
  if p ∈ c then mixPixel (win.pixel p) bulk (fb p) else fb p

def paintContent (win : Win) (clip : Rect) (fb : Buffer) : Buffer :=
  match rectIntersect win.content clip with
  | none => fb
  | some c => mixContent win false c fb

def titlebarColor (focused : Bool) : Color :=
  if focused then colorHex 0x2D 0x2D 0x2D else colorHex 0x25 0x25 0x26

def paintControls (font : Font) (win : Win) (hovered : Bool) (clip : Rect) (fb : Buffer) : Buffer :=
  let cb : Rect := ⟨win.x + win.width - kwmCloseBtnW, win.y, kwmCloseBtnW, kwmTitlebarH⟩
  let ico := if hovered then colorHex 0xFF 0xFF 0xFF else colorHex 0xA0 0xA0 0xA0
  let ccx := cb.x + 23
  let ccy := win.y + 16
  let fb := if hovered then fillRectClip cb (colorHex 0xE8 0x11 0x23) clip fb else fb
  let fb := titlebarLine (ccx - 5) (ccy - 5) (ccx + 5) (ccy + 5) ico clip fb
  let fb := titlebarLine (ccx + 5) (ccy - 5) (ccx - 5) (ccy + 5) ico clip fb
  titlebarText font (win.y + 8) (win.x + win.width - kwmCloseBtnW - 8) (colorHex 0xD4 0xD4 0xD4) clip
    win.title (win.x + 12) fb

def Win.titlebarRect (win : Win) : Rect := ⟨win.x, win.y, win.width, kwmTitlebarH⟩

def paintTitlebar (font : Font) (win : Win) (focused hovered : Bool) (clip : Rect) (fb : Buffer) :
    Buffer :=
  if win.desktop then fb
  else
    match rectIntersect win.titlebarRect clip with
    | none => fb
    | some c =>
      paintControls font win hovered c
        (roundGradFill win.titlebarRect (titlebarColor focused) (titlebarColor focused) 8 0 clip fb)

def paintWindow (font : Font) (win : Win) (focused hovered : Bool) (clip : Rect) (fb : Buffer) :
    Buffer :=
  paintTitlebar font win focused hovered clip (paintContent win clip (paintShadow win clip fb))

/-! ### What painting does to a pixel -/

/-- A drawing operation stays in its clip and in `area`, and gives a pixel a colour that
depends on the colour of that pixel only. -/
structure IsPaint (area : Point → Prop) (op : Rect → Buffer → Buffer) : Prop where
  out : ∀ {clip fb p}, p ∉ clip → op clip fb p = fb p
  area : ∀ {clip fb p}, ¬ area p → op clip fb p = fb p
  congr : ∀ {clip clip' fb fb' p}, p ∈ clip → p ∈ clip' → (fb p).rgb = (fb' p).rgb →
    (op clip fb p).rgb = (op clip' fb' p).rgb

namespace IsPaint

variable {A B : Point → Prop} {op op' : Rect → Buffer → Buffer}

theorem id : IsPaint A fun _ fb => fb := ⟨fun _ => rfl, fun _ => rfl, fun _ _ h => h⟩

theorem mono (h : IsPaint A op) (hAB : ∀ p, A p → B p) : IsPaint B op :=
  {h with area := fun hp => h.area fun ha => hp (hAB _ ha)}

theorem comp (h : IsPaint A op) (h' : IsPaint A op') : IsPaint A fun clip fb => op' clip
    (op clip fb) where
  out hp := (h'.out hp).trans (h.out hp)
  area hp := (h'.area hp).trans (h.area hp)
  congr hp hp' hfb := h'.congr hp hp' (h.congr hp hp' hfb)

theorem ite {c : Prop} [Decidable c] (h : IsPaint A op) (h' : IsPaint A op') :
    IsPaint A fun clip fb => if c then op clip fb else op' clip fb := by
  by_cases hc : c
  · simp only [if_pos hc]
    exact h
  · simp only [if_neg hc]
    exact h'

theorem foldl {α : Type} {f : α → Rect → Buffer → Buffer} (l : List α)
    (h : ∀ a ∈ l, IsPaint A (f a)) : IsPaint A fun clip fb => l.foldl (fun fb a => f a clip fb) fb := by
  induction l with
  | nil => exact id
  | cons a l ih =>
    have ha := h a (.head _)
    exact ha.comp (ih fun b hb => h b (.tail _ hb))

/-- An operation on the part of the clip in `q`. -/
theorem intersect (q : Rect) (paint : Point → Color → Color)
    (hpaint : ∀ p v v', v.rgb = v'.rgb → (paint p v).rgb = (paint p v').rgb) :
    IsPaint (· ∈ q) fun clip fb =>
      match rectIntersect q clip with
      | none => fb
      | some c => fun p => if p ∈ c then paint p (fb p) else fb p := by
  have hval : ∀ (clip : Rect) (fb : Buffer) (p : Point), (match rectIntersect q clip with
        | none => fb
        | some c => fun p => if p ∈ c then paint p (fb p) else fb p) p =
        if p ∈ q ∧ p ∈ clip then paint p (fb p) else fb p := by
    intro clip fb p
    cases h : rectIntersect q clip with
    | none => rw [if_neg fun hp => not_mem_of_rectIntersect h hp.1 hp.2]
    | some c => simp only [mem_rectIntersect h]
  constructor
  case out =>
    intro clip fb p hp
    rw [hval, if_neg fun h => hp h.2]
  case area =>
    intro clip fb p hp
    rw [hval, if_neg fun h => hp h.1]
  case congr =>
    intro clip clip' fb fb' p hp hp' hfb
    rw [hval, hval]
    by_cases hq : p ∈ q
    · rw [if_pos ⟨hq, hp⟩, if_pos ⟨hq, hp'⟩]
      exact hpaint p _ _ hfb
    · rw [if_neg fun h => hq h.1, if_neg fun h => hq h.1]
      exact hfb

theorem single (q : Point) (paint : Color → Color)
    (hpaint : ∀ v v', v.rgb = v'.rgb → (paint v).rgb = (paint v').rgb) :
    IsPaint (· = q) fun clip fb =>
      if q ∈ clip then fun p => if p = q then paint (fb p) else fb p else fb := by
  constructor
  case out =>
    intro clip fb p hp
    split
    next hq => exact if_neg fun h : p = q => hp (h ▸ hq)
    · rfl
  case area =>
    intro clip fb p hp
    split
    · exact if_neg hp
    · rfl
  case congr =>
    intro clip clip' fb fb' p hp hp' hfb
    by_cases hpq : p = q
    · subst hpq
      rw [if_pos hp, if_pos hp', if_pos rfl, if_pos rfl]
      exact hpaint _ _ hfb
    have hsame : ∀ (c : Rect) (fb : Buffer),
        (if q ∈ c then fun p => if p = q then paint (fb p) else fb p else fb) p = fb p := by
      intro c fb
      split
      · exact if_neg hpq
      · rfl
    rw [hsame, hsame]
    exact hfb

end IsPaint

/-- Only the low 24 bits of the pixel below count in a blend. -/
theorem blendOver_rgb {c v v' : Color} {a : Nat} (h : v.rgb = v'.rgb) :
    blendOver c a v = blendOver c a v' := by
  have hv : colorOpaque v = colorOpaque v' := by
    simp only [Color.rgb, Prod.mk.injEq] at h
    simp only [colorOpaque, h.1, h.2.1, h.2.2]
  rw [blendOver, blendOver, hv]

section Primitives

variable (area : Rect) (q : Point) (color : Color) (a : Nat)

open IsPaint

theorem isPaint_fillRectClip : IsPaint (· ∈ area) (fillRectClip area color) :=
  intersect area (fun _ _ => xrgbPx color) fun _ _ _ _ => rfl

theorem isPaint_blendRectClip : IsPaint (· ∈ area) (blendRectClip area color a) := by
  unfold blendRectClip
  apply IsPaint.ite .id
  apply intersect area (fun _ => blendOver color a)
  intro p v v' h
  rw [blendOver_rgb h]

theorem isPaint_blendPx : IsPaint (· = q) (blendPx q color a) := by
  have hblend : ∀ v v' : Color, v.rgb = v'.rgb → (blendOver color a v).rgb = (blendOver color a v').rgb := by
    intro v v' h
    rw [blendOver_rgb h]
  unfold blendPx
  apply IsPaint.ite .id
  simp only [ite_not]
  exact single q (blendOver color a) hblend

theorem isPaint_plot : IsPaint (· = q) (plot q color) :=
  single q (fun _ => xrgbPx color) fun _ _ _ => rfl

end Primitives

theorem isPaint_roundGradRow {a : Rect} {rt rb i : Nat} (top bot : Color) (hrt : rt ≤ a.width / 2)
    (hrb : rb ≤ a.width / 2) (hi : i < a.height) :
    IsPaint (· ∈ a) (roundGradRow a top bot rt rb i) := by
  unfold roundGradRow
  dsimp only
  generalize hr : (if rt ≠ 0 ∧ i < rt then rt else if rb ≠ 0 ∧ a.height ≤ i + rb then rb else 0) = r
  have hr : r ≤ a.width / 2 := by
    rw [← hr]
    split
    · exact hrt
    split
    · exact hrb
    · exact Nat.zero_le _
  generalize (if top = bot then top else _ : Color) = c
  apply IsPaint.ite
  · apply (isPaint_fillRectClip _ c).mono
    intro p hp
    simp only [Rect.mem_def] at hp ⊢
    omega
  have hmid : IsPaint (· ∈ a)
      (fillRectClip ⟨a.x + r, a.y + i, a.width - 2 * r, 1⟩ c) := by
    apply (isPaint_fillRectClip _ c).mono
    intro p hp
    simp only [Rect.mem_def] at hp ⊢
    omega
  refine hmid.comp (IsPaint.foldl (range r) fun k hk => ?_)
  have hk := mem_range.mp hk
  have hpx : ∀ (x : Int) (cov : Nat), a.x ≤ x → x < a.x + a.width →
      IsPaint (· ∈ a) (blendPx (x, a.y + i) c cov) := by
    intro x cov hx hx'
    apply (isPaint_blendPx _ c cov).mono
    rintro p rfl
    simp only [Rect.mem_def]
    omega
  exact (hpx _ _ (by omega) (by omega)).comp (hpx _ _ (by omega) (by omega))

theorem isPaint_roundGradFill (a : Rect) (top bot : Color) (rt rb : Nat) :
    IsPaint (· ∈ a) (roundGradFill a top bot rt rb) := by
  unfold roundGradFill
  apply IsPaint.ite IsPaint.id
  apply IsPaint.foldl
  intro i hi
  exact isPaint_roundGradRow top bot (Nat.min_le_right _ _) (Nat.min_le_right _ _)
    (mem_range.mp hi)

/-- The visual bounds of a window: its frame with the shadow. -/
theorem isPaint_shadowRing {win : Win} {k : Nat} (a : Nat) (hk : 1 ≤ k) (hk' : k ≤ 6) :
    IsPaint (· ∈ destroyBounds win) (shadowRing win.frame k a) := by
  have hedge : ∀ area : Rect, (∀ p ∈ area, p ∈ destroyBounds win) →
      IsPaint (· ∈ destroyBounds win) (blendRectClip area (colorHex 0 0 0) a) :=
    fun area h => (isPaint_blendRectClip area _ a).mono h
  unfold shadowRing
  refine (((hedge _ ?_).comp (hedge _ ?_)).comp (hedge _ ?_)).comp (hedge _ ?_) <;>
  · intro p hp
    simp only [Rect.mem_def, destroyBounds, frameDirtyArea, kwmShadowMargin, Win.frame] at hp ⊢
    omega

theorem isPaint_frameEdge (win : Win) : IsPaint (· ∈ destroyBounds win) (frameEdge win.frame) := by
  have hedge : ∀ area : Rect, (∀ p ∈ area, p ∈ destroyBounds win) →
      IsPaint (· ∈ destroyBounds win) (blendRectClip area kwmEdgeColor 70) :=
    fun area h => (isPaint_blendRectClip area _ 70).mono h
  unfold frameEdge
  refine ((hedge _ ?_).comp (hedge _ ?_)).comp (hedge _ ?_) <;>
  · intro p hp
    simp only [Rect.mem_def, destroyBounds, frameDirtyArea, kwmShadowMargin, Win.frame] at hp ⊢
    omega

theorem isPaint_paintShadow (win : Win) : IsPaint (· ∈ Kwm.destroyBounds win) (paintShadow win) := by
  unfold paintShadow
  apply IsPaint.ite IsPaint.id
  apply IsPaint.comp _ (isPaint_frameEdge win)
  unfold frameShadow
  apply IsPaint.foldl
  intro ring hring
  have hk : ∀ ring ∈ shadowRings, 1 ≤ ring.1 ∧ ring.1 ≤ 6 := by decide
  exact isPaint_shadowRing _ (hk ring hring).1 (hk ring hring).2

theorem isPaint_paintContent (win : Win) : IsPaint (· ∈ win.content) (paintContent win) := by
  apply IsPaint.intersect win.content (fun p => mixPixel (win.pixel p) false)
  intro p v v' h
  simp only [mixPixel, Bool.false_eq_true, if_false]
  split
  · rfl
  · exact h

section Titlebar

variable (font : Font) (win : Win) (focused hovered : Bool)

theorem isPaint_titlebarLine (x0 y0 x1 y1 : Int) (color : Color) :
    IsPaint (fun _ => True) (titlebarLine x0 y0 x1 y1 color) := by
  unfold titlebarLine
  apply IsPaint.foldl
  intro i _
  exact (isPaint_plot _ color).mono fun _ _ => trivial

theorem isPaint_glyph (c : UInt8) (x y : Int) (color : Color) :
    IsPaint (fun _ => True) (glyph font c x y color) := by
  unfold glyph
  apply IsPaint.foldl
  intro row _
  apply IsPaint.foldl
  intro col _
  apply IsPaint.ite IsPaint.id
  exact (isPaint_plot _ color).mono fun _ _ => trivial

theorem isPaint_titlebarText (y maxX x : Int) (color : Color) (str : List UInt8) :
    IsPaint (fun _ => True) fun clip fb => titlebarText font y maxX color clip str x fb := by
  induction str generalizing x with
  | nil => exact IsPaint.id
  | cons c str ih =>
    simp only [titlebarText]
    apply IsPaint.ite _ IsPaint.id
    apply IsPaint.comp _ (ih (x + 8))
    exact IsPaint.ite IsPaint.id (isPaint_glyph font c x y color)

theorem isPaint_paintControls : IsPaint (fun _ => True) (paintControls font win hovered) := by
  have hback : IsPaint (fun _ => True) fun clip fb =>
      if hovered then
        fillRectClip ⟨win.x + win.width - kwmCloseBtnW, win.y, kwmCloseBtnW, kwmTitlebarH⟩
          (colorHex 0xE8 0x11 0x23) clip fb
      else fb :=
    IsPaint.ite ((isPaint_fillRectClip _ _).mono fun _ _ => trivial) IsPaint.id
  exact ((hback.comp (isPaint_titlebarLine _ _ _ _ _)).comp (isPaint_titlebarLine _ _ _ _ _)).comp
    (isPaint_titlebarText font _ _ _ _ win.title)

theorem isPaint_paintTitlebar :
    IsPaint (· ∈ win.titlebarRect) (paintTitlebar font win focused hovered) := by
  have hfill := isPaint_roundGradFill win.titlebarRect (titlebarColor focused)
    (titlebarColor focused) 8 0
  have hcontrols := isPaint_paintControls font win hovered
  unfold paintTitlebar
  apply IsPaint.ite IsPaint.id
  constructor
  case out =>
    intro clip fb p hp
    cases h : rectIntersect win.titlebarRect clip with
    | none => rfl
    | some c =>
      have hc : p ∉ c := fun hc => hp ((mem_rectIntersect h).mp hc).2
      exact (hcontrols.out hc).trans (hfill.out hp)
  case area =>
    intro clip fb p hp
    cases h : rectIntersect win.titlebarRect clip with
    | none => rfl
    | some c =>
      have hc : p ∉ c := fun hc => hp ((mem_rectIntersect h).mp hc).1
      exact (hcontrols.out hc).trans (hfill.area hp)
  case congr =>
    intro clip clip' fb fb' p hp hp' hfb
    by_cases htb : p ∈ win.titlebarRect
    · cases h : rectIntersect win.titlebarRect clip with
      | none => exact absurd hp (not_mem_of_rectIntersect h htb)
      | some c =>
        cases h' : rectIntersect win.titlebarRect clip' with
        | none => exact absurd hp' (not_mem_of_rectIntersect h' htb)
        | some c' =>
          exact hcontrols.congr ((mem_rectIntersect h).mpr ⟨htb, hp⟩)
            ((mem_rectIntersect h').mpr ⟨htb, hp'⟩) (hfill.congr hp hp' hfb)
    · have hsame : ∀ (r : Rect) (fb : Buffer),
          (match rectIntersect win.titlebarRect r with
            | none => fb
            | some c => paintControls font win hovered c (roundGradFill win.titlebarRect
                (titlebarColor focused) (titlebarColor focused) 8 0 r fb)) p = fb p := by
        intro r fb
        cases h : rectIntersect win.titlebarRect r with
        | none => rfl
        | some c =>
          have hc : p ∉ c := fun hc => htb ((mem_rectIntersect h).mp hc).1
          exact (hcontrols.out hc).trans (hfill.area htb)
      rw [hsame, hsame]
      exact hfb

theorem mem_bounds_of_content {p : Point} (h : p ∈ win.content) : p ∈ destroyBounds win := by
  simp only [Rect.mem_def, Win.content, destroyBounds, frameDirtyArea, kwmShadowMargin] at h ⊢
  omega

theorem isPaint_paintWindow :
    IsPaint (· ∈ Kwm.destroyBounds win) (paintWindow font win focused hovered) := by
  apply ((isPaint_paintShadow win).comp ((isPaint_paintContent win).mono _)).comp
  · cases hd : win.desktop with
    | true =>
      unfold paintTitlebar
      simp only [hd, if_true]
      exact IsPaint.id
    | false =>
      apply (isPaint_paintTitlebar font win focused hovered).mono
      intro p hp
      simp only [Rect.mem_def, Win.titlebarRect, Kwm.destroyBounds, frameDirtyArea,
        kwmShadowMargin, Win.titlebar, hd, Bool.false_eq_true, if_false] at hp ⊢
      omega
  · exact fun p => mem_bounds_of_content win

end Titlebar

end Kyuzen.Gfx
