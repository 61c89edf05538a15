import Kyuzen.Base.Best
import Kyuzen.Base.Run
import Kyuzen.Gfx.Rect

/-!
The window manager of `kwm.c`: the table of windows, the stacking order, focus,
drag and hover. Each operation comes with the rectangles it passes to
`screen_mark_dirty`, read in the state it leaves.
-/

namespace Kyuzen.Gfx

open List

/-- A `color_t`, and a pixel of a canvas: the word 0xAARRGGBB. -/
structure Color where
  r : UInt8
  g : UInt8
  b : UInt8
  a : UInt8
  deriving DecidableEq, Repr

/-- A slot of `MAX_WINDOWS`. -/
abbrev Slot := Fin 16

abbrev Canvas := Nat → Nat → Color

def kwmTitlebarH : Nat := 32
def kwmCloseBtnW : Nat := 46
def kwmShadowMargin : Nat := 6
def kwmMaxDimension : Nat := 4096
def kwmMaxCanvasBytes : Nat := 16 * 1024 * 1024

/-- `kwm_window_t`. A window has a canvas while it is active. -/
structure Win where
  active : Bool
  x : Int
  y : Int
  width : Nat
  height : Nat
  canvas : Canvas
  zIndex : Nat
  ownerTask : Int
  /-- `KWM_WIN_DESKTOP` -/
  desktop : Bool
  fullyOpaque : Bool
  title : List UInt8

namespace Win

/-- The height of the titlebar, which the desktop has not. -/
def titlebar (w : Win) : Nat := if w.desktop then 0 else kwmTitlebarH

def frame (w : Win) : Rect := ⟨w.x, w.y, w.width, w.height + w.titlebar⟩

/-- `window_content_rect` -/
def content (w : Win) : Rect := ⟨w.x, w.y + w.titlebar, w.width, w.height⟩

end Win

/-- `focused_win_id`, `dragged_win_id` and `hovered_close_win` are `none` for "no window". -/
structure Kwm where
  wins : Slot → Win
  nextZIndex : Nat
  draggedWin : Option Slot
  dragOffset : Point
  focusedWin : Option Slot
  hoveredClose : Option Slot
  altTabActive : Bool

/-- The area `frame_dirty_area` marks: the frame with its shadow. -/
def frameDirtyArea (x y : Int) (w h : Nat) : Rect :=
  ⟨x - kwmShadowMargin, y - kwmShadowMargin, w + 2 * kwmShadowMargin, h + 2 * kwmShadowMargin + 3⟩

/-- `win_id` as a slot. -/
def slotOf (id : Int) : Option Slot :=
  if h : 0 ≤ id ∧ id < 16 then some ⟨id.toNat, by omega⟩ else none

namespace Kwm

def noWin : Win := ⟨false, 0, 0, 0, 0, fun _ _ => ⟨0, 0, 0, 0⟩, 0, -1, false, false, []⟩

def init : Kwm := ⟨fun _ => noWin, 1, none, (0, 0), none, none, false⟩

def isNormal (s : Kwm) (w : Slot) : Bool := (s.wins w).active && !(s.wins w).desktop

def setWin (s : Kwm) (w : Slot) (x : Win) : Kwm := {s with wins := Function.update s.wins w x}

/-- `kwm_frame_dirty` -/
def frameDirty (s : Kwm) (w : Slot) : List Rect :=
  if (s.wins w).active then
    [frameDirtyArea (s.wins w).x (s.wins w).y (s.wins w).width
      ((s.wins w).height + (s.wins w).titlebar)]
  else []

/-- `if (i >= 0) kwm_frame_dirty(i)` -/
def frameDirtyOf (s : Kwm) : Option Slot → List Rect
  | some w => s.frameDirty w
  | none => []

/-- The array `order` of `kwm_normalize_zindex_locked` after its sort. -/
def normalOrder (s : Kwm) : List Slot :=
  insertionByKey (fun w => (s.wins w).zIndex) ((finRange 16).filter s.isNormal)

def kwmNormalizeZindex (s : Kwm) : Kwm :=
  let order := s.normalOrder
  {s with
    wins := fun w =>
      if w ∈ order then {s.wins w with zIndex := order.idxOf w + 1} else s.wins w
    nextZIndex := order.length + 1}

/-- `z_index = next_z_index++`, and the compaction when the counter is past the slots. -/
def kwmBringToFront (s : Kwm) (w : Slot) : Kwm :=
  let s' := {s.setWin w {s.wins w with zIndex := s.nextZIndex} with nextZIndex := s.nextZIndex + 1}
  if 16 < s'.nextZIndex then s'.kwmNormalizeZindex else s'

def kwmHitTest (s : Kwm) (p : Point) : Option Slot :=
  scanMax (fun w => (s.wins w).active = true ∧ p ∈ (s.wins w).frame)
    (fun w => (s.wins w).zIndex) (-1) (finRange 16)

def highestNormal (s : Kwm) (low : Int) : Option Slot :=
  scanMax (fun w => s.isNormal w = true) (fun w => (s.wins w).zIndex) low (finRange 16)

def kwmRefocus (s : Kwm) : Kwm := {s with focusedWin := s.highestNormal 0}

def kwmFreeSlot (s : Kwm) (w : Slot) : Kwm :=
  {s.setWin w {s.wins w with
      active := false, ownerTask := -1, desktop := false, fullyOpaque := false, title := []} with
    draggedWin := if s.draggedWin = some w then none else s.draggedWin
    hoveredClose := if s.hoveredClose = some w then none else s.hoveredClose}

def firstFree (s : Kwm) : Option Slot := (finRange 16).find? fun w => !(s.wins w).active

/-- The checks of `kwm_create_window`. -/
def createOk (x y : Int) (width height : Nat) : Bool :=
  decide (width ≠ 0 ∧ height ≠ 0 ∧ width ≤ kwmMaxDimension ∧ height ≤ kwmMaxDimension ∧
    width * height * 4 ≤ kwmMaxCanvasBytes ∧
    -2 ^ 31 ≤ x - kwmShadowMargin ∧ -2 ^ 31 ≤ y - kwmShadowMargin ∧
    x + width + kwmShadowMargin ≤ 2 ^ 31 - 1 ∧
    y + height + kwmTitlebarH + kwmShadowMargin + 3 ≤ 2 ^ 31 - 1)

/-- `kwm_create_window` by `owner`, where `canvas` tells whether the canvas was allocated. -/
def kwmCreateWindow (s : Kwm) (owner x y : Int) (width height : Nat) (canvas : Bool) :
    Kwm × List Rect :=
  if createOk x y width height = false ∨ canvas = false then (s, [])
  else
    match s.firstFree with
    | none => (s, [])
    | some w =>
      let win : Win :=
        ⟨true, x, y, width, height, fun _ _ => ⟨0, 0, 0, 0⟩, s.nextZIndex, owner, false, false, []⟩
      let s' := {(s.setWin w win).kwmBringToFront w with focusedWin := some w}
      (s', s'.frameDirty w ++ [win.content] ++
        if s.focusedWin = some w then [] else s'.frameDirtyOf s.focusedWin)

/-- `kwm_create_desktop` on a screen of the size of `mode`. -/
def kwmCreateDesktop (s : Kwm) (owner : Int) (mode : Nat × Nat) (canvas : Bool) : Kwm × List Rect :=
  if mode.1 = 0 ∨ mode.2 = 0 ∨ canvas = false then (s, [])
  else if (finRange 16).any (fun w => (s.wins w).active && (s.wins w).desktop) = true then (s, [])
  else
    match s.firstFree with
    | none => (s, [])
    | some w =>
      (s.setWin w ⟨true, 0, 0, mode.1, mode.2, fun _ _ => ⟨0, 0, 0, 0⟩, 0, owner, true, false, []⟩,
        [⟨0, 0, mode.1, mode.2⟩])

def ownedSlot (s : Kwm) (task id : Int) : Option Slot :=
  match slotOf id with
  | some w => if (s.wins w).active = true ∧ (s.wins w).ownerTask = task then some w else none
  | none => none

def kwmSetTitle (s : Kwm) (task id : Int) (title : List UInt8) : Kwm × List Rect :=
  match s.ownedSlot task id with
  | none => (s, [])
  | some w =>
    let s' := s.setWin w {s.wins w with title := (title.takeWhile (· ≠ 0)).take 31}
    (s', s'.frameDirty w)

def kwmActivateWindow (s : Kwm) (id : Int) : Kwm × List Rect :=
  match slotOf id with
  | none => (s, [])
  | some w =>
    if s.isNormal w = false then (s, [])
    else
      let s' := {s.kwmBringToFront w with focusedWin := some w}
      (s', s'.frameDirty w ++
        if s.focusedWin = some w then [] else s'.frameDirtyOf s.focusedWin)

/-- `canvas_rect_opaque` for the rectangle at column `x`, row `y`. -/
def canvasRectOpaque (canvas : Canvas) (x y width height : Nat) : Bool :=
  (range height).all fun row => (range width).all fun col =>
    decide ((canvas (x + col) (y + row)).a ≠ 0)

def copyRect (canvas src : Canvas) (x y width height : Nat) : Canvas := fun col row =>
  if x ≤ col ∧ col < x + width ∧ y ≤ row ∧ row < y + height then src col row else canvas col row

/-- The commit of an upload to the rectangle at `(x, y)` of the content of `w`. -/
def commitUpload (s : Kwm) (w : Slot) (src : Canvas) (x y width height : Nat) : Kwm × List Rect :=
  let win := s.wins w
  let canvas := copyRect win.canvas src x y width height
  (s.setWin w {win with
      canvas := canvas
      fullyOpaque := win.fullyOpaque && canvasRectOpaque canvas x y width height},
    [⟨win.x + x, win.y + win.titlebar + y, width, height⟩])

/-- `kwm_update_window` without another task in between. -/
def kwmUpdateWindow (s : Kwm) (task id : Int) (src : Canvas) : Kwm × List Rect :=
  match s.ownedSlot task id with
  | none => (s, [])
  | some w => s.commitUpload w src 0 0 (s.wins w).width (s.wins w).height

/-- `kwm_update_window_rect` without another task in between. -/
def kwmUpdateWindowRect (s : Kwm) (task id x y : Int) (width height : Nat) (src : Canvas) :
    Kwm × List Rect :=
  if x < 0 ∨ y < 0 ∨ width = 0 ∨ height = 0 then (s, [])
  else
    match s.ownedSlot task id with
    | none => (s, [])
    | some w =>
      if (s.wins w).width < x + width ∨ (s.wins w).height < y + height then (s, [])
      else s.commitUpload w src x.toNat y.toNat width height

def kwmSetWindowOpaque (s : Kwm) (task id : Int) : Kwm :=
  match s.ownedSlot task id with
  | none => s
  | some w =>
    s.setWin w {s.wins w with
      fullyOpaque := canvasRectOpaque (s.wins w).canvas 0 0 (s.wins w).width (s.wins w).height}

def kwmDestroyWindow (s : Kwm) (id : Int) : Kwm × List Rect :=
  match slotOf id with
  | none => (s, [])
  | some w =>
    let win := s.wins w
    if win.active = false then (s, [])
    else
      let freed := s.kwmFreeSlot w
      let area := frameDirtyArea win.x win.y win.width (win.height + kwmTitlebarH)
      if s.focusedWin = some w then
        let s' := freed.kwmRefocus
        (s', area :: s'.frameDirtyOf s'.focusedWin)
      else (freed, [area])

/-- The visual bounds that the loops of `kwm_destroy_windows_of` and
`kwm_destroy_all_windows` collect. -/
def destroyBounds (win : Win) : Rect :=
  frameDirtyArea win.x win.y win.width (win.height + win.titlebar)

/-- One turn of these loops, for the windows that `gone` picks. -/
def destroyNext (gone : Win → Bool) (acc : Kwm × List Rect) (w : Slot) : Kwm × List Rect :=
  if (acc.1.wins w).active && gone (acc.1.wins w) then
    (acc.1.kwmFreeSlot w, acc.2 ++ [destroyBounds (acc.1.wins w)])
  else acc

def destroyWins (s : Kwm) (gone : Win → Bool) : Kwm × List Rect :=
  (finRange 16).foldl (destroyNext gone) (s, [])

/-- `focus_destroyed`: the focused window is one of `task`. -/
def focusDestroyed (s : Kwm) (task : Int) : Bool :=
  match s.focusedWin with
  | some w => (s.wins w).active && decide ((s.wins w).ownerTask = task)
  | none => false

def kwmDestroyWindowsOf (s : Kwm) (task : Int) : Kwm × List Rect :=
  let acc := s.destroyWins fun win => decide (win.ownerTask = task)
  if s.focusDestroyed task then
    let s' := acc.1.kwmRefocus
    (s', acc.2 ++ s'.frameDirtyOf s'.focusedWin)
  else acc

def kwmDestroyAllWindows (s : Kwm) : Kwm × List Rect :=
  let acc := s.destroyWins fun _ => true
  ({acc.1 with focusedWin := none, nextZIndex := 1}, acc.2)

/-! ### The mouse -/

def closeUnder (s : Kwm) (p : Point) : Option Slot :=
  match s.kwmHitTest p with
  | none => none
  | some w =>
    if (s.wins w).desktop = false ∧ p.2 < (s.wins w).y + kwmTitlebarH ∧
        (s.wins w).x + (s.wins w).width - kwmCloseBtnW ≤ p.1 then some w
    else none

/-- The first section of `kwm_process_mouse`. -/
def mouseHover (s : Kwm) (p : Point) : Kwm × List Rect :=
  let s' := {s with hoveredClose := s.closeUnder p}
  (s', if s.hoveredClose = s'.hoveredClose then []
    else s'.frameDirtyOf s.hoveredClose ++ s'.frameDirtyOf s'.hoveredClose)

def mouseUp (s : Kwm) : Kwm := {s with draggedWin := none}

def dragClamp (new : Int) (size limit : Nat) : Int :=
  let new := if new < 0 then 0 else new
  if (limit : Int) < new + size then (limit : Int) - size else new

/-- The drag section; the second part tells whether it consumed the event. -/
def mouseDrag (s : Kwm) (mode : Nat × Nat) (p : Point) : (Kwm × List Rect) × Bool :=
  match s.draggedWin with
  | none => ((s, []), false)
  | some w =>
    if (s.wins w).active = false then ((s, []), false)
    else
      let win := s.wins w
      let fh := win.height + kwmTitlebarH
      let x := dragClamp (p.1 - s.dragOffset.1) win.width mode.1
      let y := dragClamp (p.2 - s.dragOffset.2) fh mode.2
      ((s.setWin w {win with x := x, y := y},
        [frameDirtyArea win.x win.y win.width fh, frameDirtyArea x y win.width fh]), true)

def mouseDown (s : Kwm) (p : Point) : Kwm × List Rect :=
  match s.kwmHitTest p with
  | none =>
    let s' := {s with focusedWin := none}
    (s', s'.frameDirtyOf s.focusedWin)
  | some w =>
    if (s.wins w).desktop then
      (s, s.frameDirty w ++ if s.focusedWin = some w then [] else s.frameDirtyOf s.focusedWin)
    else
      let front := {s.kwmBringToFront w with focusedWin := some w}
      let win := front.wins w
      let s' :=
        if win.y ≤ p.2 ∧ p.2 < win.y + kwmTitlebarH ∧ p.1 < win.x + win.width - kwmCloseBtnW then
          {front with draggedWin := some w, dragOffset := (p.1 - win.x, p.2 - win.y)}
        else front
      (s', s'.frameDirty w ++
        if s.focusedWin = some w then [] else s'.frameDirtyOf s.focusedWin)

/-- `kwm_process_mouse` without another task in between. -/
def kwmProcessMouse (s : Kwm) (mode : Nat × Nat) (p : Point) (down up : Bool) : Kwm × List Rect :=
  let (s₁, marks₁) := s.mouseHover p
  if up then (s₁.mouseUp, marks₁)
  else
    let ((s₂, marks₂), consumed) := s₁.mouseDrag mode p
    if consumed then (s₂, marks₁ ++ marks₂)
    else if down then
      let (s₃, marks₃) := s₂.mouseDown p
      (s₃, marks₁ ++ marks₃)
    else (s₂, marks₁)

/-! ### Alt-Tab -/

def lowestAbove (s : Kwm) (cur : Int) : Option Slot :=
  scanMin (fun w => s.isNormal w = true ∧ cur < (s.wins w).zIndex) (fun w => (s.wins w).zIndex)
    s.nextZIndex (finRange 16)

/-- `cur_z`, and -1 without a focus. -/
def curZ (s : Kwm) : Int :=
  match s.focusedWin with
  | some w => if (s.wins w).active then (s.wins w).zIndex else -1
  | none => -1

/-- The window Alt-Tab goes to: the next one above the focus, and from the highest on to
the lowest. -/
def cycleTarget (s : Kwm) : Option Slot :=
  if s.curZ < 0 then s.highestNormal (-1)
  else
    match s.lowestAbove s.curZ with
    | some w => some w
    | none => s.lowestAbove (-1)

def kwmCycleFocus (s : Kwm) : Kwm :=
  match s.cycleTarget with
  | some w => {s.kwmBringToFront w with focusedWin := some w}
  | none => {s with focusedWin := none}

/-- `kwm_handle_shortcut`, where `alt` and `tab` tell whether Alt is held and the key is
Tab. -/
def kwmHandleShortcut (s : Kwm) (alt released tab : Bool) : Kwm × List Rect :=
  if s.altTabActive && !alt then ({s with altTabActive := false}, [])
  else if alt && tab then
    if released then (s, [])
    else
      let s' := {s.kwmCycleFocus with altTabActive := true}
      (s', s'.frameDirtyOf s'.focusedWin ++
        if s.focusedWin = s'.focusedWin then [] else s'.frameDirtyOf s.focusedWin)
  else (s, [])

end Kwm

/-- The operations, with the sections of `kwm_process_mouse` one by one. -/
inductive KwmOp where
  | create (owner x y : Int) (width height : Nat) (canvas : Bool)
  | createDesktop (owner : Int) (canvas : Bool)
  | setTitle (task id : Int) (title : List UInt8)
  | activate (id : Int)
  | update (task id : Int) (src : Canvas)
  | updateRect (task id x y : Int) (width height : Nat) (src : Canvas)
  | setOpaque (task id : Int)
  | destroy (id : Int)
  | destroyOf (task : Int)
  | destroyAll
  | hover (p : Point)
  | mouseUp
  | drag (p : Point)
  | mouseDown (p : Point)
  | mouse (p : Point) (down up : Bool)
  | shortcut (alt released tab : Bool)

namespace Kwm

/-- An operation on a screen of the size of `mode`, with the rectangles it marks. -/
def perform (mode : Nat × Nat) (s : Kwm) : KwmOp → Kwm × List Rect
  | .create owner x y width height canvas => s.kwmCreateWindow owner x y width height canvas
  | .createDesktop owner canvas => s.kwmCreateDesktop owner mode canvas
  | .setTitle task id title => s.kwmSetTitle task id title
  | .activate id => s.kwmActivateWindow id
  | .update task id src => s.kwmUpdateWindow task id src
  | .updateRect task id x y width height src => s.kwmUpdateWindowRect task id x y width height src
  | .setOpaque task id => (s.kwmSetWindowOpaque task id, [])
  | .destroy id => s.kwmDestroyWindow id
  | .destroyOf task => s.kwmDestroyWindowsOf task
  | .destroyAll => s.kwmDestroyAllWindows
  | .hover p => s.mouseHover p
  | .mouseUp => (s.mouseUp, [])
  | .drag p => (s.mouseDrag mode p).1
  | .mouseDown p => s.mouseDown p
  | .mouse p down up => s.kwmProcessMouse mode p down up
  | .shortcut alt released tab => s.kwmHandleShortcut alt released tab

end Kwm

def KwmStep (mode : Nat × Nat) (s : Kwm) (op : KwmOp) (s' : Kwm) : Prop :=
  s' = (s.perform mode op).1

end Kyuzen.Gfx
