import Kyuzen.Base.Run
import Kyuzen.Gfx.Coalesce

/-!
Screen damage on its way through `compositor_flush`: `screen_mark_dirty` of any
task between any two sections of a flush, and the three lists that hold what is
not on the screen yet.
-/

namespace Kyuzen.Gfx

open List Bool

/-- Where a flush is. `left` is what a loop has still to handle. -/
inductive FlushPhase where
  | idle
  /-- `screen_restore_dirty(&g_inflight_dirty)` after a device error. -/
  | restore (left : List Rect)
  /-- The in-flight list is cleared next. -/
  | retire
  /-- `g_screen_dirty` is taken next. -/
  | take
  /-- The rectangles of the cursor are added next. -/
  | taken (dirty : List Rect)
  /-- `kwm_lock` is tried next. -/
  | lockKwm (dirty : List Rect)
  /-- `screen_restore_dirty(&dirty)` -/
  | putBack (left : List Rect)
  | compose (dirty left : List Rect)
  | present (left : List Rect)
  /-- The rejected rectangles are marked again. -/
  | remark (left : List Rect)
  /-- Without a main surface the regions are copied to the framebuffer. -/
  | blit (left : List Rect)
  deriving DecidableEq, Repr

/-- What a section of a flush gets back from the rest of the system. -/
structure FlushEnv where
  panicLocked : Bool
  fencePending : Bool
  /-- `err_count`, if `ghal_gpu_stats` succeeds. -/
  stats : Option Nat
  hwCursor : Bool
  mouse : Point
  kwmFree : Bool
  mainSurface : Bool
  fbBuffer : Bool
  /-- `ghal_present_checked` accepts. -/
  accepts : Bool
  /-- `GHAL_CAP_ASYNC_PRESENT` -/
  async : Bool
  /-- `ghal_present_fence` is not 0. -/
  fence : Bool
  deriving Repr

/-- The lists and variables of the compositor. For the pixels of the screen, `owed` are
those marked and not recomposited since, `pending` those recomposited since their mark and
not presented yet; `accepted` are the rectangles an asynchronous backend with readable
statistics accepted and has not completed. -/
structure Damage where
  screenDirty : List Rect
  inflightDirty : List Rect
  presentFence : Bool
  presentErrors : Nat
  statsValid : Bool
  lastCursor : Point
  phase : FlushPhase
  owed : Point → Bool
  pending : Point → Bool
  accepted : List Rect

inductive DamageOp where
  /-- `screen_mark_dirty` -/
  | mark (r : Rect)
  /-- `compositor_flush`, up to its first section. -/
  | flush (env : FlushEnv)
  /-- The next section of the running flush. -/
  | next (env : FlushEnv)
  deriving Repr

instance (l : List Rect) (p : Point) : Decidable (Covers l p) :=
  inferInstanceAs (Decidable (∃ r ∈ l, p ∈ r))

def presentUnionMaxInflation : Nat := 2

/-- The rectangles to present: those of the regions on the screen, or their bounding box
where that is not much more. -/
def presentRects (mode : Rect) (dirty : List Rect) : List Rect :=
  let rects := (dirty.filterMap fun r => rectIntersect r mode).take maxDirtyRegions
  match rects with
  | r :: r' :: rest =>
    let u := (r' :: rest).foldl rectUnion r
    let sum := (rects.map fun q => q.width * q.height).sum
    if u.width * u.height ≤ sum * presentUnionMaxInflation then [u] else rects
  | _ => rects

def cursorRect (p : Point) : Rect := ⟨p.1, p.2, 12, 16⟩

namespace Damage

def init : Damage where
  screenDirty := []
  inflightDirty := []
  presentFence := false
  presentErrors := 0
  statsValid := false
  lastCursor := (-1, -1)
  phase := .idle
  owed := fun _ => false
  pending := fun _ => false
  accepted := []

def goto (s : Damage) (phase : FlushPhase) : Damage := {s with phase := phase}

variable (mode : Rect)

def screenMarkDirty (s : Damage) (r : Rect) : Damage :=
  match rectIntersect r mode with
  | none => s
  | some c =>
    {s with
      screenDirty := dirtyRegionMark s.screenDirty c
      owed := fun p => s.owed p || decide (p ∈ c)}

/-- The start of `compositor_flush_frame`, up to the clearing of the in-flight list. -/
def flush (s : Damage) (env : FlushEnv) : Damage :=
  if env.panicLocked = true then s
  else if s.presentFence = true ∧ env.fencePending = true then s
  else if s.inflightDirty ≠ [] ∧ s.statsValid = true then
    match env.stats with
    | none => s
    | some errCount =>
      if errCount ≠ s.presentErrors then s.goto (.restore s.inflightDirty)
      else
        -- the batch is complete without an error
        {s.goto .retire with pending := fun p => s.pending p && !decide (Covers s.accepted p)}
  else s.goto .retire

/-- The regions a flush works on: with the cursor's old and new cell, unless the hardware
shows the cursor. -/
def withCursor (s : Damage) (env : FlushEnv) (dirty : List Rect) : List Rect :=
  if env.hwCursor = true then dirty
  else
    let dirty := if 0 ≤ s.lastCursor.1 then dirtyRegionMark dirty (cursorRect s.lastCursor) else dirty
    dirtyRegionMark dirty (cursorRect env.mouse)

/-- Behind the composition: statistics, upload, and the rectangles to present. -/
def upload (s : Damage) (env : FlushEnv) (dirty : List Rect) : Damage :=
  let s := {s with lastCursor := env.mouse}
  if env.mainSurface = true then
    {s with
      statsValid := env.stats.isSome
      presentErrors := env.stats.getD s.presentErrors
      phase := .present (presentRects mode dirty)}
  else if env.fbBuffer = true then s.goto (.blit dirty)
  else s.goto (.putBack dirty)

def accept (s : Damage) (env : FlushEnv) (r : Rect) (left : List Rect) : Damage :=
  let s' :=
    if env.async = true then
      {s with inflightDirty := dirtyRegionMark s.inflightDirty r, presentFence := env.fence}
    else s
  if env.async = true ∧ s.statsValid = true then
    {s' with accepted := r :: s.accepted, phase := .present left}
  else {s' with pending := fun p => s.pending p && !decide (p ∈ r), phase := .present left}

def next (s : Damage) (env : FlushEnv) : Damage :=
  match s.phase with
  | .idle => s
  | .restore (r :: left) => (s.screenMarkDirty mode r).goto (.restore left)
  | .restore [] => s.goto .retire
  | .retire => {s with presentFence := false, inflightDirty := [], accepted := [], phase := .take}
  | .take => {s with screenDirty := [], phase := .taken s.screenDirty}
  | .taken dirty =>
    let dirty' := s.withCursor env dirty
    if dirty' = [] then {s with lastCursor := env.mouse, phase := .idle}
    else s.goto (.lockKwm dirty')
  | .lockKwm dirty =>
    if env.kwmFree = true then s.goto (.compose dirty dirty) else s.goto (.putBack dirty)
  | .putBack (r :: left) => (s.screenMarkDirty mode r).goto (.putBack left)
  | .putBack [] => s.goto .idle
  | .compose dirty (r :: left) =>
    {s with
      owed := fun p => s.owed p && !decide (p ∈ r)
      pending := fun p => s.pending p || (s.owed p && decide (p ∈ r))
      phase := .compose dirty left}
  | .compose dirty [] => s.upload mode env dirty
  | .present (r :: left) =>
    if env.accepts = true then s.accept env r left else s.goto (.remark (r :: left))
  | .present [] => s.goto .idle
  | .remark (r :: left) => (s.screenMarkDirty mode r).goto (.remark left)
  | .remark [] => s.goto .idle
  | .blit (r :: left) =>
    {s with pending := fun p => s.pending p && !decide (p ∈ r), phase := .blit left}
  | .blit [] => s.goto .idle

def exec (s : Damage) : DamageOp → Damage
  | .mark r => s.screenMarkDirty mode r
  | .flush env => if s.phase = .idle then s.flush env else s
  | .next env => s.next mode env

end Damage

def DamageStep (mode : Rect) (s : Damage) (op : DamageOp) (s' : Damage) : Prop := s' = s.exec mode op

namespace FlushPhase

def held : FlushPhase → List Rect
  | .taken dirty | .lockKwm dirty | .compose dirty _ => dirty
  | .putBack left | .present left | .remark left | .blit left => left
  | _ => []

/-- Where a marked pixel that is not recomposited can be, besides `g_screen_dirty`. -/
def owedIn : FlushPhase → List Rect
  | .taken dirty | .lockKwm dirty => dirty
  | .putBack left | .compose _ left => left
  | _ => []

/-- Where a recomposited pixel can be, besides `g_screen_dirty`. -/
def pendingIn (accepted : List Rect) : FlushPhase → List Rect
  | .idle => accepted
  | .restore left => left
  | .taken dirty | .lockKwm dirty | .compose dirty _ => dirty
  | .putBack left | .blit left => left
  | .present left | .remark left => accepted ++ left
  | .retire | .take => []

def Within (inflight : List Rect) : FlushPhase → Prop
  | .restore left => left ⊆ inflight
  | .compose dirty left => left ⊆ dirty
  | _ => True

def settled : FlushPhase → Bool
  | .take | .taken _ | .lockKwm _ | .putBack _ | .compose _ _ | .blit _ => true
  | _ => false

end FlushPhase

namespace Damage

variable {r : Rect} {dirty : List Rect} {p : Point} {mode : Rect} {s : Damage}

/-- No mark is lost. -/
structure Kept (mode : Rect) (s : Damage) : Prop where
  onScreen : ∀ p, s.owed p = true ∨ s.pending p = true → p ∈ mode
  screenBound : s.screenDirty.length ≤ maxDirtyRegions
  inflightBound : s.inflightDirty.length ≤ maxDirtyRegions
  heldBound : s.phase.held.length ≤ maxDirtyRegions
  owed : ∀ p, s.owed p = true → Covers s.screenDirty p ∨ Covers s.phase.owedIn p
  pending : ∀ p, s.pending p = true →
    Covers s.screenDirty p ∨ Covers (s.phase.pendingIn s.accepted) p
  inflight : ∀ p, Covers s.accepted p → Covers s.inflightDirty p
  valid : s.statsValid = false → s.accepted = []
  settled : s.phase.settled = true → s.accepted = []
  within : s.phase.Within s.inflightDirty

theorem and_not_decide {b : Bool} {P : Prop} [Decidable P] :
    (b && !decide P) = true ↔ b = true ∧ ¬ P := by simp

theorem Kept.init (mode : Rect) : Kept mode init where
  onScreen _ h := (h.elim id id |> fun h => absurd h Bool.false_ne_true)
  screenBound := Nat.zero_le _
  inflightBound := Nat.zero_le _
  heldBound := Nat.zero_le _
  owed _ h := absurd h Bool.false_ne_true
  pending _ h := absurd h Bool.false_ne_true
  inflight _ h := absurd h covers_nil
  valid _ := rfl
  settled _ := rfl
  within := trivial

/-- `screen_mark_dirty` of another task, or of the flush itself. -/
theorem Kept.screenMarkDirty (hs : s.Kept mode) (r : Rect) : (s.screenMarkDirty mode r).Kept mode := by
  unfold Damage.screenMarkDirty
  split
  · exact hs
  next c hc =>
    have grows : ∀ p, Covers s.screenDirty p → Covers (dirtyRegionMark s.screenDirty c) p :=
      fun p h => dirtyRegionMark_covers hs.screenBound (.inl h)
    refine {hs with
        onScreen := ?_, screenBound := dirtyRegionMark_length c hs.screenBound, owed := ?_,
        pending := fun p h => (hs.pending p h).imp (grows p) id}
    · rintro p (h | h)
      · rcases or_eq_true_iff.mp h with h | h
        · exact hs.onScreen p (.inl h)
        · exact ((mem_rectIntersect hc).mp (of_decide_eq_true h)).2
      · exact hs.onScreen p (.inr h)
    · intro p h
      rcases or_eq_true_iff.mp h with h | h
      · exact (hs.owed p h).imp (grows p) id
      · exact .inl (dirtyRegionMark_covers hs.screenBound (.inr (of_decide_eq_true h)))

theorem covers_screenMarkDirty (hs : s.Kept mode) (hp : p ∈ mode)
    (h : Covers s.screenDirty p ∨ p ∈ r) : Covers (s.screenMarkDirty mode r).screenDirty p := by
  unfold Damage.screenMarkDirty
  split
  next hnone => exact h.resolve_right fun hr => not_mem_of_rectIntersect hnone hr hp
  next c hc =>
    exact dirtyRegionMark_covers hs.screenBound (h.imp id fun hr => (mem_rectIntersect hc).mpr ⟨hr, hp⟩)

section
variable {phase : FlushPhase} (hs : s.Kept mode) (hphase : s.phase = phase)
include hs hphase

theorem Kept.heldAt : phase.held.length ≤ maxDirtyRegions := hphase ▸ hs.heldBound

theorem Kept.owedAt (h : s.owed p = true) : Covers s.screenDirty p ∨ Covers phase.owedIn p :=
  hphase ▸ hs.owed p h

theorem Kept.pendingAt (h : s.pending p = true) :
    Covers s.screenDirty p ∨ Covers (phase.pendingIn s.accepted) p :=
  hphase ▸ hs.pending p h

theorem Kept.settledAt (h : phase.settled = true) : s.accepted = [] := hs.settled (hphase ▸ h)

theorem Kept.withinAt : phase.Within s.inflightDirty := hphase ▸ hs.within

end

theorem Kept.goto (hs : s.Kept mode) {phase old : FlushPhase} (hphase : s.phase = old)
    (hheld : phase.held.length ≤ maxDirtyRegions)
    (howed : ∀ p, Covers old.owedIn p → Covers phase.owedIn p)
    (hpending : ∀ p, Covers (old.pendingIn s.accepted) p → Covers (phase.pendingIn s.accepted) p)
    (hsettled : phase.settled = true → s.accepted = [])
    (hwithin : phase.Within s.inflightDirty) : (s.goto phase).Kept mode where
  __ := hs
  heldBound := hheld
  owed p h := (hs.owedAt hphase h).imp id (howed p)
  pending p h := (hs.pendingAt hphase h).imp id (hpending p)
  settled := hsettled
  within := hwithin

variable (mode) in
theorem phase_screenMarkDirty (s : Damage) (r : Rect) :
    (s.screenMarkDirty mode r).phase = s.phase ∧ (s.screenMarkDirty mode r).accepted = s.accepted ∧
      (s.screenMarkDirty mode r).inflightDirty = s.inflightDirty := by
  unfold screenMarkDirty
  split <;> exact ⟨rfl, rfl, rfl⟩

/-- One turn of a loop that marks the rectangles of a list again. -/
theorem Kept.markNext (hs : s.Kept mode) {phase old : FlushPhase} (hphase : s.phase = old)
    (hheld : phase.held.length ≤ maxDirtyRegions)
    (howed : ∀ p, Covers old.owedIn p → p ∈ r ∨ Covers phase.owedIn p)
    (hpending : ∀ p, Covers (old.pendingIn s.accepted) p →
      p ∈ r ∨ Covers (phase.pendingIn s.accepted) p)
    (hsettled : phase.settled = true → s.accepted = []) (hwithin : phase.Within s.inflightDirty) :
    ((s.screenMarkDirty mode r).goto phase).Kept mode := by
  obtain ⟨hphase', haccepted, hinflight⟩ := phase_screenMarkDirty mode s r
  have hmarked := hs.screenMarkDirty r
  have hcovers : ∀ p ∈ mode, p ∈ r → Covers (s.screenMarkDirty mode r).screenDirty p :=
    fun p hp hr => covers_screenMarkDirty hs hp (.inr hr)
  refine {hmarked with
      heldBound := hheld, owed := ?_, pending := ?_, settled := fun h => haccepted.trans (hsettled h),
      within := ?_}
  · intro p h
    rcases hmarked.owed p h with hin | hin
    · exact .inl hin
    · rw [hphase', hphase] at hin
      exact (howed p hin).imp (hcovers p (hmarked.onScreen p (.inl h))) id
  · intro p h
    rcases hmarked.pending p h with hin | hin
    · exact .inl hin
    · rw [hphase', hphase, haccepted] at hin
      refine (hpending p hin).imp (hcovers p (hmarked.onScreen p (.inr h))) fun h => ?_
      rw [← haccepted] at h
      exact h
  · rw [← hinflight] at hwithin
    exact hwithin

theorem Kept.flush (hs : s.Kept mode) (env : FlushEnv) (hidle : s.phase = .idle) :
    (s.flush env).Kept mode := by
  unfold Damage.flush
  split
  · exact hs
  split
  · exact hs
  split
  · split
    · exact hs
    split
    · exact hs.goto hidle (Nat.zero_le _) (fun _ h => h) hs.inflight
        nofun (List.Subset.refl _)
    refine {hs with
        onScreen := ?_, heldBound := Nat.zero_le _, owed := fun p h => (hs.owedAt hidle h :),
        pending := ?_, settled := nofun, within := trivial}
    · rintro p (h | h)
      · exact hs.onScreen p (.inl h)
      · exact hs.onScreen p (.inr (and_not_decide.mp h).1)
    · intro p h
      obtain ⟨h, hout⟩ := and_not_decide.mp h
      exact .inl ((hs.pendingAt hidle h).resolve_right hout)
  next hnone =>
    -- nothing that is accepted waits for the device
    have hempty : ∀ p, ¬ Covers s.accepted p := by
      intro p h
      by_cases hvalid : s.statsValid = true
      · have hnil : s.inflightDirty = [] := by
          by_contra hne
          exact hnone ⟨hne, hvalid⟩
        have := hs.inflight p h
        rw [hnil] at this
        exact covers_nil this
      · rw [hs.valid (eq_false_of_not_eq_true hvalid)] at h
        exact covers_nil h
    exact hs.goto hidle (Nat.zero_le _) (fun _ h => h) (fun p h => absurd h (hempty p))
      nofun trivial

theorem Kept.moveCursor (hs : s.Kept mode) (q : Point) : Kept mode {s with lastCursor := q} :=
  {hs with}

theorem withCursor_spec (s : Damage) (env : FlushEnv) (hle : dirty.length ≤ maxDirtyRegions) :
    (s.withCursor env dirty).length ≤ maxDirtyRegions ∧
      ∀ p, Covers dirty p → Covers (s.withCursor env dirty) p := by
  unfold withCursor
  split
  · exact ⟨hle, fun _ h => h⟩
  split
  · have hle' := dirtyRegionMark_length (cursorRect s.lastCursor) hle
    exact ⟨dirtyRegionMark_length _ hle', fun p h =>
      dirtyRegionMark_covers hle' (.inl (dirtyRegionMark_covers hle (.inl h)))⟩
  · exact ⟨dirtyRegionMark_length _ hle, fun p h => dirtyRegionMark_covers hle (.inl h)⟩

theorem covers_foldl_rectUnion {l : List Rect} (h : p ∈ r ∨ Covers l p) :
    p ∈ l.foldl rectUnion r := by
  induction l generalizing r with
  | nil => exact h.resolve_right covers_nil
  | cons q l ih =>
    rw [foldl_cons]
    apply ih
    rcases h with h | h
    · exact .inl (mem_rectUnion_left q h)
    · exact (covers_cons.mp h).imp (mem_rectUnion_right r) id

variable (mode) in
/-- What is presented covers the regions, on the screen. -/
theorem presentRects_spec (hle : dirty.length ≤ maxDirtyRegions) :
    (presentRects mode dirty).length ≤ maxDirtyRegions ∧
      ∀ p ∈ mode, Covers dirty p → Covers (presentRects mode dirty) p := by
  have hlength : (dirty.filterMap fun r => rectIntersect r mode).length ≤ maxDirtyRegions :=
    Nat.le_trans (length_filterMap_le _ _) hle
  have hcovers : ∀ p ∈ mode, Covers dirty p →
      Covers (dirty.filterMap fun r => rectIntersect r mode) p := by
    rintro p hp ⟨r, hr, hpr⟩
    cases hc : rectIntersect r mode with
    | none => exact absurd hp (not_mem_of_rectIntersect hc hpr)
    | some c => exact ⟨c, mem_filterMap.mpr ⟨r, hr, hc⟩, (mem_rectIntersect hc).mpr ⟨hpr, hp⟩⟩
  unfold presentRects
  rw [take_of_length_le hlength]
  generalize (dirty.filterMap fun r => rectIntersect r mode) = rects at hlength hcovers
  dsimp only
  split
  next r r' rest =>
    split
    · refine ⟨(by decide : 1 ≤ maxDirtyRegions), fun p hp h => ⟨_, mem_singleton.mpr rfl, ?_⟩⟩
      exact covers_foldl_rectUnion (covers_cons.mp (hcovers p hp h))
    · exact ⟨hlength, hcovers⟩
  · exact ⟨hlength, hcovers⟩

theorem Kept.upload (hs : s.Kept mode) (env : FlushEnv) (hphase : s.phase = .compose dirty []) :
    (s.upload mode env dirty).Kept mode := by
  have hle : dirty.length ≤ maxDirtyRegions := hs.heldAt hphase
  have haccepted : s.accepted = [] := hs.settledAt hphase rfl
  have howed : ∀ p, s.owed p = true → Covers s.screenDirty p :=
    fun p h => (hs.owedAt hphase h).resolve_right covers_nil
  have hpending : ∀ p, s.pending p = true → Covers s.screenDirty p ∨ Covers dirty p :=
    fun p h => hs.pendingAt hphase h
  unfold Damage.upload
  split
  · obtain ⟨hlength, hcovers⟩ := presentRects_spec mode hle
    refine {hs with
        heldBound := hlength, owed := fun p h => .inl (howed p h), pending := fun p h => ?_,
        valid := fun _ => haccepted, settled := nofun, within := trivial}
    refine (hpending p h).imp id fun hd => ?_
    exact covers_append.mpr (.inr (hcovers p (hs.onScreen p (.inr h)) hd))
  split <;> exact {hs with
      heldBound := hle, owed := fun p h => .inl (howed p h), pending := hpending,
      settled := fun _ => haccepted, within := trivial}

section Present

variable {r : Rect} {left : List Rect}

section
variable (hs : s.Kept mode) (hphase : s.phase = .present (r :: left))
include hs hphase

theorem Kept.left_length : left.length ≤ maxDirtyRegions :=
  Nat.le_of_succ_le (hs.heldAt hphase)

theorem Kept.owed_present {p : Point} (h : s.owed p = true) : Covers s.screenDirty p := by
  exact (hs.owedAt hphase h).resolve_right covers_nil

theorem Kept.pending_present {p : Point} (h : s.pending p = true) :
    Covers s.screenDirty p ∨ Covers s.accepted p ∨ p ∈ r ∨ Covers left p := by
  exact (hs.pendingAt hphase h).imp id fun h => (covers_append.mp h).imp id covers_cons.mp

theorem Kept.queued (fence : Bool) (hvalid : s.statsValid = true) : Kept mode {s with
      inflightDirty := dirtyRegionMark s.inflightDirty r
      presentFence := fence
      accepted := r :: s.accepted
      phase := .present left} where
  __ := hs
  inflightBound := dirtyRegionMark_length r hs.inflightBound
  heldBound := hs.left_length hphase
  owed _ h := .inl (hs.owed_present hphase h)
  pending p h := by
    refine (hs.pending_present hphase h).imp id fun h => covers_append.mpr ?_
    rcases h with h | h | h
    · exact .inl (covers_cons.mpr (.inr h))
    · exact .inl (covers_cons.mpr (.inl h))
    · exact .inr h
  inflight p h := by
    refine dirtyRegionMark_covers hs.inflightBound ?_
    rcases covers_cons.mp h with h | h
    · exact .inr h
    · exact .inl (hs.inflight p h)
  valid h := absurd (h.symm.trans hvalid) Bool.false_ne_true
  settled h := absurd h Bool.false_ne_true
  within := trivial

/-- The rectangle is on the screen once it is accepted. -/
theorem Kept.displayed (fence : Bool)
    {inflight : List Rect} (hbound : inflight.length ≤ maxDirtyRegions)
    (hgrows : ∀ p, Covers s.inflightDirty p → Covers inflight p) :
    Kept mode {s with
      inflightDirty := inflight
      presentFence := fence
      pending := fun p => s.pending p && !decide (p ∈ r)
      phase := .present left} where
  __ := hs
  onScreen p h := hs.onScreen p (h.imp id fun h => (and_not_decide.mp h).1)
  inflightBound := hbound
  heldBound := hs.left_length hphase
  owed _ h := .inl (hs.owed_present hphase h)
  pending p h := by
    obtain ⟨h, hout⟩ := and_not_decide.mp h
    refine (hs.pending_present hphase h).imp id fun h => covers_append.mpr ?_
    exact h.imp id fun h => h.resolve_left hout
  inflight p h := hgrows p (hs.inflight p h)
  settled h := absurd h Bool.false_ne_true
  within := trivial

end

theorem Kept.accept (hs : s.Kept mode) (env : FlushEnv)
    (hphase : s.phase = .present (r :: left)) : (s.accept env r left).Kept mode := by
  unfold Damage.accept
  split
  · split
    next hboth => exact hs.queued hphase env.fence hboth.2
    next =>
      refine hs.displayed hphase env.fence (dirtyRegionMark_length r hs.inflightBound) fun p h => ?_
      exact dirtyRegionMark_covers hs.inflightBound (.inl h)
  next hasync =>
    rw [if_neg fun h => hasync h.1]
    exact hs.displayed hphase s.presentFence hs.inflightBound fun _ h => h

end Present

section
variable (hs : s.Kept mode)
include hs

theorem Kept.composed {left : List Rect} (hphase : s.phase = .compose dirty (r :: left)) :
    Kept mode {s with
      owed := fun p => s.owed p && !decide (p ∈ r)
      pending := fun p => s.pending p || (s.owed p && decide (p ∈ r))
      phase := .compose dirty left} where
  __ := hs
  onScreen p h := by
    rcases h with h | h
    · exact hs.onScreen p (.inl (and_not_decide.mp h).1)
    · rcases or_eq_true_iff.mp h with h | h
      · exact hs.onScreen p (.inr h)
      · exact hs.onScreen p (.inl (and_eq_true_iff.mp h).1)
  heldBound := (hs.heldAt hphase :)
  owed p h := by
    obtain ⟨h, hout⟩ := and_not_decide.mp h
    exact (hs.owedAt hphase h).imp id fun h => (covers_cons.mp h).resolve_left hout
  pending p h := by
    rcases or_eq_true_iff.mp h with h | h
    · exact (hs.pendingAt hphase h :)
    · exact .inr ⟨r, hs.withinAt hphase (.head _), of_decide_eq_true (and_eq_true_iff.mp h).2⟩
  settled _ := hs.settledAt hphase rfl
  within _ hq := hs.withinAt hphase (.tail _ hq)

theorem Kept.blitted {left : List Rect} (hphase : s.phase = .blit (r :: left)) :
    Kept mode {s with pending := fun p => s.pending p && !decide (p ∈ r), phase := .blit left} where
  __ := hs
  onScreen p h := hs.onScreen p (h.imp id fun h => (and_not_decide.mp h).1)
  heldBound := Nat.le_of_succ_le (hs.heldAt hphase)
  owed _ h := (hs.owedAt hphase h :)
  pending p h := by
    obtain ⟨h, hout⟩ := and_not_decide.mp h
    exact (hs.pendingAt hphase h).imp id fun h => (covers_cons.mp h).resolve_left hout
  settled _ := hs.settledAt hphase rfl
  within := trivial

theorem Kept.retired (hphase : s.phase = .retire) :
    Kept mode {s with presentFence := false, inflightDirty := [], accepted := [], phase := .take} where
  __ := hs
  inflightBound := Nat.zero_le _
  heldBound := Nat.zero_le _
  owed _ h := (hs.owedAt hphase h :)
  pending _ h := (hs.pendingAt hphase h :)
  inflight _ h := absurd h covers_nil
  valid _ := rfl
  settled _ := rfl
  within := trivial

theorem Kept.takeDirty (hphase : s.phase = .take) :
    Kept mode {s with screenDirty := [], phase := .taken s.screenDirty} where
  __ := hs
  screenBound := Nat.zero_le _
  heldBound := hs.screenBound
  owed _ h := .inr ((hs.owedAt hphase h).resolve_right covers_nil)
  pending _ h := .inr ((hs.pendingAt hphase h).resolve_right covers_nil)
  settled _ := hs.settledAt hphase rfl
  within := trivial

theorem Kept.next (env : FlushEnv) : (s.next mode env).Kept mode := by
  unfold Damage.next
  split
  next => exact hs
  next r left hphase =>
    exact hs.markNext hphase (Nat.zero_le _) (fun _ h => .inr h) (fun _ h => covers_cons.mp h)
      nofun fun q hq => hs.withinAt hphase (.tail _ hq)
  next hphase =>
    exact hs.goto hphase (Nat.zero_le _) (fun _ h => h) (fun _ h => h)
      nofun trivial
  next hphase => exact hs.retired hphase
  next hphase => exact hs.takeDirty hphase
  next dirty hphase =>
    have hle : dirty.length ≤ maxDirtyRegions := hs.heldAt hphase
    obtain ⟨hlength, hcovers⟩ := s.withCursor_spec env hle
    dsimp only
    split
    next hnil =>
      -- nothing is held, so nothing is owed there
      rw [hnil] at hcovers
      have hidle : (s.goto .idle).Kept mode :=
        hs.goto hphase (Nat.zero_le _) hcovers (fun p h => absurd (hcovers p h) covers_nil)
          nofun trivial
      exact hidle.moveCursor env.mouse
    · exact hs.goto hphase hlength hcovers hcovers (fun _ => hs.settledAt hphase rfl) trivial
  next dirty hphase =>
    split
    · exact hs.goto hphase (hs.heldAt hphase :) (fun _ h => h) (fun _ h => h) (fun _ => hs.settledAt hphase rfl)
        (List.Subset.refl _)
    · exact hs.goto hphase (hs.heldAt hphase :) (fun _ h => h) (fun _ h => h) (fun _ => hs.settledAt hphase rfl) trivial
  next r left hphase =>
    exact hs.markNext hphase (Nat.le_of_succ_le (hs.heldAt hphase)) (fun _ h => covers_cons.mp h)
      (fun _ h => covers_cons.mp h) (fun _ => hs.settledAt hphase rfl) trivial
  next hphase =>
    exact hs.goto hphase (Nat.zero_le _) (fun _ h => h) (fun _ h => absurd h covers_nil)
      nofun trivial
  next dirty r left hphase => exact hs.composed hphase
  next dirty hphase => exact hs.upload env hphase
  next r left hphase =>
    split
    · exact hs.accept env hphase
    · exact hs.goto hphase (hs.heldAt hphase :) (fun _ h => h) (fun _ h => h)
        nofun trivial
  next hphase =>
    exact hs.goto hphase (Nat.zero_le _) (fun _ h => h)
      (fun _ h => (covers_append.mp h).resolve_right covers_nil)
      nofun trivial
  next r left hphase =>
    refine hs.markNext hphase (Nat.le_of_succ_le (hs.heldAt hphase)) (fun _ h => .inr h) ?_
      nofun trivial
    intro p h
    rcases covers_append.mp h with h | h
    · exact .inr (covers_append.mpr (.inl h))
    · exact (covers_cons.mp h).imp id fun h => covers_append.mpr (.inr h)
  next hphase =>
    exact hs.goto hphase (Nat.zero_le _) (fun _ h => h)
      (fun _ h => (covers_append.mp h).resolve_right covers_nil)
      nofun trivial
  next r left hphase => exact hs.blitted hphase
  next hphase =>
    exact hs.goto hphase (Nat.zero_le _) (fun _ h => h) (fun _ h => absurd h covers_nil)
      nofun trivial

theorem Kept.exec (op : DamageOp) : (s.exec mode op).Kept mode := by
  cases op with
  | mark r => exact hs.screenMarkDirty r
  | flush env =>
    rw [Damage.exec]
    split
    next hidle => exact hs.flush env hidle
    · exact hs
  | next env => exact hs.next env

/-- What is not presented is in one of the three lists. -/
theorem Kept.covered (h : s.owed p = true ∨ s.pending p = true) :
    Covers s.screenDirty p ∨ Covers s.inflightDirty p ∨ Covers s.phase.held p := by
  have howed := hs.owed p
  have hpending := hs.pending p
  have hwithin := hs.within
  have hinflight := hs.inflight p
  generalize s.phase = phase at howed hpending hwithin ⊢
  cases phase with
  | idle =>
    rcases h with h | h
    · exact .inl ((howed h).resolve_right covers_nil)
    · exact (hpending h).imp id fun h => .inl (hinflight h)
  | restore left =>
    rcases h with h | h
    · exact .inl ((howed h).resolve_right covers_nil)
    · exact (hpending h).imp id fun ⟨r, hr, hp⟩ => .inl ⟨r, hwithin hr, hp⟩
  | retire | take =>
    rcases h with h | h
    · exact .inl ((howed h).resolve_right covers_nil)
    · exact .inl ((hpending h).resolve_right covers_nil)
  | taken | lockKwm | putBack =>
    rcases h with h | h
    · exact (howed h).imp id .inr
    · exact (hpending h).imp id .inr
  | compose dirty left =>
    rcases h with h | h
    · exact (howed h).imp id fun ⟨r, hr, hp⟩ => .inr ⟨r, hwithin hr, hp⟩
    · exact (hpending h).imp id .inr
  | present | remark =>
    rcases h with h | h
    · exact .inl ((howed h).resolve_right covers_nil)
    · refine (hpending h).imp id fun h => ?_
      exact (covers_append.mp h).imp hinflight id
  | blit =>
    rcases h with h | h
    · exact .inl ((howed h).resolve_right covers_nil)
    · exact (hpending h).imp id .inr

end

end Damage

/-- In every state of every run, a pixel of the screen that was marked and is not presented
since, or recomposited since, is in `g_screen_dirty`, in `g_inflight_dirty` or in the list
that the running flush holds. -/
theorem damage_never_lost (width height : Nat) {ops : List DamageOp} {s : Damage}
    (hrun : Run (DamageStep ⟨0, 0, width, height⟩) Damage.init ops s) (p : Point)
    (h : s.owed p = true ∨ s.pending p = true) :
    Covers s.screenDirty p ∨ Covers s.inflightDirty p ∨ Covers s.phase.held p := by
  have hs : s.Kept ⟨0, 0, width, height⟩ := by
    apply hrun.invariant (I := Damage.Kept ⟨0, 0, width, height⟩) _ (.init _)
    rintro s op s' hs rfl
    exact hs.exec op
  exact hs.covered h

def rejecting : FlushEnv where
  panicLocked := false
  fencePending := false
  stats := some 0
  hwCursor := true
  mouse := (0, 0)
  kwmFree := true
  mainSurface := true
  fbBuffer := true
  accepts := false
  async := true
  fence := true

def rejectedFlush : List DamageOp :=
  [.mark ⟨0, 0, 1, 1⟩, .flush rejecting] ++ replicate 9 (.next rejecting)

theorem damage_never_lost_rejected :
    let s := rejectedFlush.foldl (Damage.exec ⟨0, 0, 4, 4⟩) Damage.init
    s.phase = .idle ∧ s.pending (0, 0) = true ∧
      (Covers s.screenDirty (0, 0) ∨ Covers s.inflightDirty (0, 0) ∨ Covers s.phase.held (0, 0)) := by
  intro s
  have hpending : s.pending (0, 0) = true := by decide
  have hrun : Run (DamageStep ⟨0, 0, 4, 4⟩) Damage.init rejectedFlush s :=
    Run.foldl (by intro _ _ _; rfl) _
  exact ⟨by decide, hpending, damage_never_lost 4 4 hrun (0, 0) (.inr hpending)⟩

end Kyuzen.Gfx
