import Kyuzen.Gfx.Kwm

/-!
The opacity hint of a window next to the uploads of its owner: an upload takes a
snapshot under `kwm_lock`, copies its rows and scans them without the lock, and
commits the hint under the lock again, while compositor passes read hint and canvas
in between.
-/

namespace Kyuzen.Gfx

open Function Kwm

/-- Where a task is in `kwm_update_window`, `kwm_update_window_rect` or
`kwm_set_window_opaque`. -/
inductive UploadPhase where
  | idle
  /-- The rows `y .. y + row` of the rectangle are copied. -/
  | copying (w : Slot) (x y width height : Nat) (src : Canvas) (wasOpaque : Bool) (row : Nat)
  /-- The snapshot of `kwm_set_window_opaque` is taken. -/
  | scanning (w : Slot)
  /-- The scan is done, with the hint to commit. -/
  | committing (w : Slot) (hint : Bool)

structure Uploads where
  kwm : Kwm
  phase : Int → UploadPhase

inductive UploadOp where
  | update (task id : Int) (src : Canvas)
  | updateRect (task id x y : Int) (width height : Nat) (src : Canvas)
  | setOpaque (task id : Int)
  | copyRow (task : Int)
  | scan (task : Int)
  | commit (task : Int)
  /-- A compositor pass. -/
  | compose

namespace Uploads

def goto (s : Uploads) (task : Int) (phase : UploadPhase) : Uploads :=
  {s with phase := update s.phase task phase}

def setWin (s : Uploads) (w : Slot) (win : Win) : Uploads := {s with kwm := s.kwm.setWin w win}

/-- The snapshot section of an upload to a rectangle of `w`. -/
def snapshot (s : Uploads) (task : Int) (w : Slot) (x y width height : Nat) (src : Canvas) : Uploads :=
  s.goto task (.copying w x y width height src (s.kwm.wins w).fullyOpaque 0)

/-- A step of a task; a task that is not at that point does nothing. -/
def exec (s : Uploads) : UploadOp → Uploads
  | .update task id src =>
    match s.phase task, s.kwm.ownedSlot task id with
    | .idle, some w => s.snapshot task w 0 0 (s.kwm.wins w).width (s.kwm.wins w).height src
    | _, _ => s
  | .updateRect task id x y width height src =>
    match s.phase task, s.kwm.ownedSlot task id with
    | .idle, some w =>
      if x < 0 ∨ y < 0 ∨ width = 0 ∨ height = 0 then s
      else if (s.kwm.wins w).width < x + width ∨ (s.kwm.wins w).height < y + height then s
      else s.snapshot task w x.toNat y.toNat width height src
    | _, _ => s
  | .setOpaque task id =>
    match s.phase task, s.kwm.ownedSlot task id with
    | .idle, some w => s.goto task (.scanning w)
    | _, _ => s
  | .copyRow task =>
    match s.phase task with
    | .copying w x y width height src wasOpaque row =>
      if row < height then
        let win := s.kwm.wins w
        (s.setWin w {win with canvas := copyRect win.canvas src x (y + row) width 1}).goto task
          (.copying w x y width height src wasOpaque (row + 1))
      else s
    | _ => s
  | .scan task =>
    match s.phase task with
    | .copying w x y width height _ wasOpaque row =>
      if row = height then
        s.goto task (.committing w
          (wasOpaque && canvasRectOpaque (s.kwm.wins w).canvas x y width height))
      else s
    | .scanning w =>
      let win := s.kwm.wins w
      s.goto task (.committing w (canvasRectOpaque win.canvas 0 0 win.width win.height))
    | _ => s
  | .commit task =>
    match s.phase task with
    | .committing w hint =>
      let win := s.kwm.wins w
      let s' := s.goto task .idle
      if win.active = true ∧ win.ownerTask = task then s'.setWin w {win with fullyOpaque := hint}
      else s'
    | _ => s
  | .compose => s

end Uploads

def Win.AllOpaque (win : Win) : Prop :=
  ∀ col row, col < win.width → row < win.height → (win.canvas col row).a ≠ 0

/-- An operation on `w` has copied a row, or has scanned, and has not committed. -/
def UploadPhase.Uncommitted (w : Slot) : UploadPhase → Prop
  | .copying v _ _ _ _ _ _ row => v = w ∧ 0 < row
  | .committing v _ => v = w
  | _ => False

def UploadStep (s : Uploads) (op : UploadOp) (s' : Uploads) : Prop := s' = s.exec op

namespace Uploads

variable {win : Win} {phase : UploadPhase} {s : Uploads} {task : Int} {w : Slot}

/-- No task is in an operation, and no window has the hint, as it is created. -/
def Fresh (s : Uploads) : Prop :=
  (∀ task, s.phase task = .idle) ∧ ∀ w, (s.kwm.wins w).fullyOpaque = false

def Owns (kwm : Kwm) (task : Int) (w : Slot) : Prop :=
  (kwm.wins w).active = true ∧ (kwm.wins w).ownerTask = task

/-- What a task knows at a point of its operation. While it copies into a window with the hint,
the pixels outside of the rows it has copied are opaque. -/
def PhaseOk (kwm : Kwm) (task : Int) : UploadPhase → Prop
  | .idle => True
  | .copying w x y width _ _ wasOpaque row =>
    Owns kwm task w ∧ (wasOpaque = true → ∀ col line, col < (kwm.wins w).width →
      line < (kwm.wins w).height → ¬ (x ≤ col ∧ col < x + width ∧ y ≤ line ∧ line < y + row) →
      ((kwm.wins w).canvas col line).a ≠ 0)
  | .scanning w => Owns kwm task w
  | .committing w hint => Owns kwm task w ∧ (hint = true → (kwm.wins w).AllOpaque)

structure Sound (s : Uploads) : Prop where
  hint : ∀ w, (s.kwm.wins w).fullyOpaque = true →
    (s.kwm.wins w).AllOpaque ∨ (s.phase (s.kwm.wins w).ownerTask).Uncommitted w
  phases : ∀ task, PhaseOk s.kwm task (s.phase task)

theorem Fresh.sound (h : s.Fresh) : s.Sound where
  hint w hw := by
    rw [h.2 w] at hw
    cases hw
  phases task := by
    rw [h.1 task]
    trivial

theorem ownedSlot_owns {kwm : Kwm} {id : Int} (h : kwm.ownedSlot task id = some w) :
    Owns kwm task w := by
  unfold ownedSlot at h
  split at h
  · split at h
    next hown =>
      obtain rfl := Option.some.inj h
      exact hown
    · cases h
  · cases h

theorem canvasRectOpaque_iff {canvas : Canvas} {x y width height : Nat} :
    canvasRectOpaque canvas x y width height = true ↔
      ∀ row < height, ∀ col < width, (canvas (x + col) (y + row)).a ≠ 0 := by
  simp [canvasRectOpaque, List.all_eq_true, List.mem_range]

theorem allOpaque_of_rect (h : canvasRectOpaque win.canvas 0 0 win.width win.height = true) :
    win.AllOpaque := by
  intro col row hcol hrow
  have := canvasRectOpaque_iff.mp h row hrow col hcol
  rw [zero_add, zero_add] at this
  exact this

theorem wins_setWin_ne {v : Slot} (h : v ≠ w) : (s.setWin w win).kwm.wins v = s.kwm.wins v :=
  update_of_ne h _ _

theorem wins_setWin_self : (s.setWin w win).kwm.wins w = win := update_self _ _ _

/-- The task moves on to `phase`, and no window that it leaves with the hint depends on it. -/
theorem Sound.goto (hs : s.Sound) (h : PhaseOk s.kwm task phase)
    (hleft : ∀ w, (s.phase task).Uncommitted w → phase.Uncommitted w) :
    (s.goto task phase).Sound where
  hint v hv := by
    refine (hs.hint v hv).imp_right fun hopen => ?_
    show (update s.phase task phase (s.kwm.wins v).ownerTask).Uncommitted v
    by_cases ht : (s.kwm.wins v).ownerTask = task
    · rw [ht, update_self]
      exact hleft v (ht ▸ hopen)
    · rw [update_of_ne ht]
      exact hopen
  phases t := by
    simp only [Uploads.goto, update_apply]
    split
    next ht =>
      subst ht
      exact h
    · exact hs.phases t

theorem PhaseOk.setWin {kwm : Kwm} {t : Int} (h : PhaseOk kwm t phase)
    (hw : (kwm.wins w).ownerTask ≠ t) :
    PhaseOk (kwm.setWin w win) t phase := by
  have heq : ∀ {v}, Owns kwm t v → (kwm.setWin w win).wins v = kwm.wins v := fun {v} hv => by
    refine update_of_ne ?_ _ _
    rintro rfl
    exact hw hv.2
  cases phase with
  | idle => trivial
  | copying | committing =>
    rw [PhaseOk, Owns, heq h.1]
    exact h
  | scanning v =>
    rw [PhaseOk, Owns, heq h]
    exact h

/-- The owner of `w` writes it and moves on; its other windows do not depend on it. -/
theorem Sound.setWin (hs : s.Sound) (howner : (s.kwm.wins w).ownerTask = task)
    (hkeep : win.ownerTask = task)
    (hwin : win.fullyOpaque = true → win.AllOpaque ∨ phase.Uncommitted w)
    (hother : ∀ v ≠ w, ¬ (s.phase task).Uncommitted v)
    (hphase : PhaseOk (s.kwm.setWin w win) task phase) :
    ((s.setWin w win).goto task phase).Sound where
  hint v := by
    show ((s.setWin w win).kwm.wins v).fullyOpaque = true →
      ((s.setWin w win).kwm.wins v).AllOpaque ∨
        (update s.phase task phase ((s.setWin w win).kwm.wins v).ownerTask).Uncommitted v
    by_cases hv : v = w
    · subst hv
      rw [wins_setWin_self, hkeep, update_self]
      exact hwin
    · rw [wins_setWin_ne hv]
      refine fun hhint => (hs.hint v hhint).imp_right fun hopen => ?_
      by_cases ht : (s.kwm.wins v).ownerTask = task
      · exact absurd (ht ▸ hopen) (hother v hv)
      · rwa [update_of_ne ht]
  phases t := by
    simp only [Uploads.goto, update_apply]
    split
    next ht =>
      subst ht
      exact hphase
    next ht => exact (hs.phases t).setWin fun h => ht (h.symm.trans howner)

theorem Sound.snapshot (hs : s.Sound) (hidle : s.phase task = .idle) (hown : Owns s.kwm task w)
    (x y width height : Nat) (src : Canvas) : (s.snapshot task w x y width height src).Sound := by
  refine hs.goto ⟨hown, fun hhint col line hcol hline _ => ?_⟩ fun v h => ?_
  · refine (hs.hint w hhint).elim (fun h => h col line hcol hline) fun h => ?_
    rw [hown.2, hidle] at h
    exact h.elim
  · rw [hidle] at h
    exact h.elim

theorem Sound.copyRow (hs : s.Sound) : (s.exec (.copyRow task)).Sound := by
  have hphase := hs.phases task
  rw [exec]
  split
  next w x y width height src wasOpaque row h =>
    rw [h] at hphase
    obtain ⟨hown, hrest⟩ := hphase
    split
    · refine hs.setWin hown.2 hown.2 (fun _ => .inr ⟨rfl, Nat.succ_pos row⟩) (fun v hv hopen => ?_) ?_
      · rw [h] at hopen
        exact hv hopen.1.symm
      · simp only [PhaseOk, Owns, Kwm.setWin, update_self]
        refine ⟨hown, fun hwas col line hcol hline hout => ?_⟩
        -- the new row is among the copied ones
        rw [copyRect, if_neg (by omega)]
        exact hrest hwas col line hcol hline (by omega)
    · exact hs
  · exact hs

theorem Sound.scan (hs : s.Sound) : (s.exec (.scan task)).Sound := by
  have hphase := hs.phases task
  rw [exec]
  split
  next w x y width height src wasOpaque row h =>
    rw [h] at hphase
    obtain ⟨hown, hrest⟩ := hphase
    split
    next hend =>
      refine hs.goto ⟨hown, fun hhint col line hcol hline => ?_⟩ fun v hopen => ?_
      · obtain ⟨hwas, hscan⟩ := (Bool.and_eq_true _ _).mp hhint
        by_cases hin : x ≤ col ∧ col < x + width ∧ y ≤ line ∧ line < y + row
        · -- inside of the rectangle the scan has looked, outside nothing was copied
          have hpixel := canvasRectOpaque_iff.mp hscan (line - y) (by omega) (col - x) (by omega)
          rwa [Nat.add_sub_cancel' hin.1, Nat.add_sub_cancel' hin.2.2.1] at hpixel
        · exact hrest hwas col line hcol hline hin
      · rw [h] at hopen
        exact hopen.1
    · exact hs
  next w h =>
    rw [h] at hphase
    refine hs.goto ⟨hphase, allOpaque_of_rect⟩ fun v hopen => ?_
    rw [h] at hopen
    exact hopen.elim
  · exact hs

theorem Sound.commit (hs : s.Sound) : (s.exec (.commit task)).Sound := by
  have hphase := hs.phases task
  rw [exec]
  split
  next w hint h =>
    rw [h] at hphase
    obtain ⟨hown, hall⟩ := hphase
    dsimp only
    rw [if_pos (show (s.kwm.wins w).active = true ∧ _ from hown)]
    refine hs.setWin hown.2 hown.2 (fun hhint => .inl (hall hhint)) (fun v hv hopen => ?_) trivial
    rw [h] at hopen
    exact hv hopen.symm
  · exact hs

theorem Sound.exec (hs : s.Sound) (op : UploadOp) : (s.exec op).Sound := by
  cases op with
  | update | updateRect =>
    rw [Uploads.exec]
    repeat' split
    all_goals first | exact hs | exact hs.snapshot ‹_› (ownedSlot_owns ‹_›) ..
  | setOpaque task id =>
    rw [Uploads.exec]
    split
    next hidle hw =>
      refine hs.goto (ownedSlot_owns hw) fun v hopen => ?_
      rw [hidle] at hopen
      exact hopen.elim
    · exact hs
  | copyRow task => exact hs.copyRow
  | scan task => exact hs.scan
  | commit task => exact hs.commit
  | compose => exact hs

/-- A compositor pass that meets a window with the hint, and its owner not between the first
copied row of an upload to it and the commit, reads no transparent pixel. -/
theorem opacity_hint_sound {ops : List UploadOp} {s₀ : Uploads} (h₀ : s₀.Fresh)
    (run : Run UploadStep s₀ (ops ++ [.compose]) s) (w : Slot)
    (hpass : ¬ (s.phase (s.kwm.wins w).ownerTask).Uncommitted w)
    (hw : (s.kwm.wins w).fullyOpaque = true) : (s.kwm.wins w).AllOpaque := by
  have hs : s.Sound := by
    refine run.invariant ?_ h₀.sound
    rintro s op _ hs rfl
    exact hs.exec op
  exact (hs.hint w hw).resolve_right hpass

def onePixel : Uploads :=
  ⟨init.setWin 0 {noWin with active := true, width := 1, height := 1, ownerTask := 1},
    fun _ => .idle⟩

def solid : Canvas := fun _ _ => ⟨0, 0, 0, 255⟩

def clear : Canvas := fun _ _ => ⟨0, 0, 0, 0⟩

/-- An opaque upload, the hint, another upload under the hint, and a pass. -/
def hintAndUpload : List UploadOp :=
  [.update 1 0 solid, .copyRow 1, .scan 1, .commit 1, .setOpaque 1 0, .scan 1, .commit 1,
    .updateRect 1 0 0 0 1 1 solid, .copyRow 1, .scan 1, .commit 1]

def hintThenClear : List UploadOp :=
  [.update 1 0 solid, .copyRow 1, .scan 1, .commit 1, .setOpaque 1 0, .scan 1, .commit 1,
    .update 1 0 clear, .copyRow 1, .compose]

theorem onePixel_fresh : onePixel.Fresh := by
  refine ⟨fun _ => rfl, fun w => ?_⟩
  simp only [onePixel, Kwm.setWin, update_apply]
  split <;> rfl

theorem opacity_hint_sound_solid :
    ∃ s, Run UploadStep onePixel (hintAndUpload ++ [.compose]) s ∧
      (s.kwm.wins 0).fullyOpaque = true ∧ (s.kwm.wins 0).AllOpaque := by
  have hrun : Run UploadStep onePixel (hintAndUpload ++ [.compose])
      ((hintAndUpload ++ [UploadOp.compose]).foldl exec onePixel) :=
    Run.foldl (by intro _ _ _; rfl) _
  exact ⟨_, hrun, rfl, opacity_hint_sound onePixel_fresh hrun 0 id rfl⟩

/-- The pass at the end of the run reads the hint with a pixel of alpha 0. -/
theorem opacity_hint_stale : let s := hintThenClear.foldl exec onePixel
    onePixel.Fresh ∧ (s.kwm.wins 0).active = true ∧ (s.kwm.wins 0).fullyOpaque = true ∧
      0 < (s.kwm.wins 0).width ∧ 0 < (s.kwm.wins 0).height ∧ ((s.kwm.wins 0).canvas 0 0).a = 0 :=
  ⟨onePixel_fresh, rfl, rfl, by decide, by decide, rfl⟩

end Uploads

end Kyuzen.Gfx
