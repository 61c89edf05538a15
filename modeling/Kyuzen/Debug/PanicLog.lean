import Kyuzen.Base.Bytes

/-!
The crash record of `panic_log.c` in a page that warm boots preserve. A boot
consumes the record before it writes its own, and a consumed record does not
hand its count on.
-/

namespace Kyuzen.Debug

open List

def panicLogSignature : Nat := 0xDEADC0DE
def panicLogConsumed : Nat := 0xDEADC0D1
def panicLogVersion : Nat := 1
/-- `sizeof(panic_log_t)`, with four bytes of padding. -/
def panicLogSize : Nat := 96

def version (l : Buf) : Nat := getLe l 0 4
def signature (l : Buf) : Nat := getLe l 4 4
def checksum (l : Buf) : Nat := getLe l 8 4
def crashCount (l : Buf) : Nat := getLe l 12 4

def logChecksum (l : Buf) : Nat :=
  (range panicLogSize).foldl (fun sum i =>
    if 8 ≤ i ∧ i < 12 then sum else (sum + (l i).toNat * (i + 1)) % 2 ^ 32) 0

def logStore (l : Buf) : Buf := putLe l 8 4 (logChecksum l)

/-- The arguments of `panic_log_write`; a null name is the empty one. -/
structure Crash where
  exceptionVector : Nat
  errorCode : Nat
  rip : Nat
  cr2 : Nat
  timestampMs : Nat
  taskId : Nat
  taskName : List UInt8
  kind : Nat

/-- `panic_log_init`: `g_log_ready`. -/
def panicLogInit (reservedPhys reservedLen : Nat) : Bool :=
  reservedPhys ≠ 0 ∧ panicLogSize ≤ reservedLen

/-- The count that `panic_log_write` goes on from. -/
def carried (l : Buf) : Nat :=
  if signature l = panicLogSignature ∧ checksum l = logChecksum l then crashCount l else 0

def panicLogWrite (ready : Bool) (l : Buf) (c : Crash) : Buf :=
  if !ready then l
  else
    let count := carried l
    let l := putLe l 0 4 panicLogVersion
    let l := putLe l 12 4 (count + 1)
    let l := putLe l 16 8 c.timestampMs
    let l := putLe l 24 8 c.exceptionVector
    let l := putLe l 32 8 c.errorCode
    let l := putLe l 40 8 c.rip
    let l := putLe l 48 8 c.cr2
    let l := putLe l 56 8 c.taskId
    let l := putLe l 64 4 c.kind
    let name := (c.taskName.takeWhile (· ≠ 0)).take 23
    let l := memcpy l 68 (name.getD · 0) 0 name.length
    let l := putLe l (68 + name.length) 1 0
    logStore (putLe l 4 4 panicLogSignature)

/-- `panic_check_previous_log`, without the report it prints. -/
def panicCheckPreviousLog (ready : Bool) (l : Buf) : Buf × Nat :=
  if !ready then (l, 0)
  else if signature l ≠ panicLogSignature then (l, 0)
  else if version l ≠ panicLogVersion ∨ checksum l ≠ logChecksum l then
    (putLe l 4 4 panicLogConsumed, 0)
  else (logStore (putLe l 4 4 panicLogConsumed), 1)

/-- A boot over the area with the panics it logs. -/
def boot (ready : Bool) (l : Buf) (crashes : List Crash) : Buf :=
  crashes.foldl (panicLogWrite ready) (panicCheckPreviousLog ready l).1

structure Valid (l : Buf) : Prop where
  signature : signature l = panicLogSignature
  version : version l = panicLogVersion
  checksum : checksum l = logChecksum l

variable {l : Buf}

theorem logChecksum_logStore (l : Buf) : logChecksum (logStore l) = logChecksum l := by
  unfold logChecksum
  refine foldl_ext _ _ _ fun sum i hi => ?_
  split
  · rfl
  next hout => rw [logStore, putLe_outside (by omega)]

theorem checksum_logStore (l : Buf) : checksum (logStore l) = logChecksum (logStore l) := by
  have hlt : logChecksum l < 2 ^ 32 := by
    refine foldlRecOn (motive := (· < 2 ^ 32)) _ _ (by decide) fun sum hsum i _ => ?_
    split
    · exact hsum
    · exact Nat.mod_lt _ (by decide)
  rw [logChecksum_logStore, checksum, logStore, getLe_putLe_of_lt hlt]

theorem panicLogWrite_spec (l : Buf) (c : Crash) : Valid (panicLogWrite true l c) ∧
    crashCount (panicLogWrite true l c) = (carried l + 1) % 2 ^ 32 := by
  have hname := length_take_le 23 (c.taskName.takeWhile (· ≠ 0))
  refine ⟨⟨?_, ?_, checksum_logStore _⟩, ?_⟩
  · exact (getLe_putLe_disjoint (by decide)).trans (getLe_putLe_of_lt (by decide))
  · change getLe (putLe _ 8 4 _) 0 4 = _
    simp (disch := omega) only [getLe_putLe_disjoint, getLe_memcpy_outside]
    exact getLe_putLe_of_lt (by decide)
  · change getLe (putLe _ 8 4 _) 12 4 = _
    simp (disch := omega) only [getLe_putLe_disjoint, getLe_memcpy_outside]
    exact getLe_putLe ..

theorem check_spec (l : Buf) : signature (panicCheckPreviousLog true l).1 ≠ panicLogSignature ∧
    ((panicCheckPreviousLog true l).2 = 1 ↔ Valid l) := by
  have hput : signature (putLe l 4 4 panicLogConsumed) ≠ panicLogSignature := by
    rw [signature, getLe_putLe_of_lt (by decide)]
    decide
  unfold panicCheckPreviousLog
  rw [if_neg (by decide)]
  split
  next h => exact ⟨h, iff_of_false nofun fun hv => h hv.signature⟩
  next h =>
    split
    next hbad =>
      exact ⟨hput, iff_of_false nofun fun hv => hbad.elim (· hv.version) (· hv.checksum)⟩
    next hok =>
      simp only [not_or, not_not] at h hok
      refine ⟨?_, iff_of_true rfl ⟨h, hok.1, hok.2⟩⟩
      rwa [logStore, signature, getLe_putLe_disjoint (by decide)]

theorem boot_concat (l : Buf) (crashes : List Crash) (c : Crash) :
    boot true l (crashes ++ [c]) = panicLogWrite true (boot true l crashes) c := by
  simp [boot]

theorem valid_boot {crashes : List Crash} : Valid (boot true l crashes) ↔ crashes ≠ [] := by
  rcases eq_nil_or_concat' crashes with rfl | ⟨crashes, c, rfl⟩
  · exact iff_of_false (fun h => (check_spec l).1 h.signature) (by simp)
  · rw [boot_concat]
    exact iff_of_true (panicLogWrite_spec _ c).1 (by simp)

/-- The count starts again in each boot. -/
theorem carried_boot (l : Buf) (crashes : List Crash) :
    carried (boot true l crashes) = crashes.length % 2 ^ 32 := by
  induction crashes using reverseRecOn with
  | nil => exact if_neg fun h => (check_spec l).1 h.1
  | append_singleton crashes c ih =>
    obtain ⟨hvalid, hcount⟩ := panicLogWrite_spec (boot true l crashes) c
    rw [boot_concat, carried, if_pos ⟨hvalid.signature, hvalid.checksum⟩, hcount, ih, length_append,
      Nat.mod_add_mod, length_singleton]

/-- `n` counts the panics of the earlier boots and of this one up to `c`. -/
theorem crash_count_iff {phys len : Nat} {area : Buf} (hinit : panicLogInit phys len = true)
    (harea : ¬ Valid area) (boots : List (List Crash)) (crashes : List Crash) (c : Crash) :
    let ready := panicLogInit phys len
    let l := boots.foldl (boot ready) area
    let n := boots.flatten.length + crashes.length + 1
    ((panicCheckPreviousLog ready l).2 = 1 ↔ ∃ b ∈ boots.getLast?, b ≠ []) ∧
      (crashCount (panicLogWrite ready (boot ready l crashes) c) = n ↔
        boots.flatten = [] ∧ n < 2 ^ 32) := by
  rw [hinit]
  dsimp only
  constructor
  · rw [(check_spec _).2]
    rcases eq_nil_or_concat' boots with rfl | ⟨boots, b, rfl⟩
    · simpa using harea
    · simp [valid_boot]
  · rw [(panicLogWrite_spec _ c).2, carried_boot, ← length_eq_zero_iff]
    omega

def blankArea : Buf := fun _ => 0

def sampleCrash : Crash := ⟨14, 2, 0x1000, 0, 5, 1, [105], 0⟩

theorem crash_count_blank :
    crashCount (panicLogWrite true (boot true blankArea [sampleCrash]) sampleCrash) = 2 :=
  (@crash_count_iff 0x4800000 4096 blankArea rfl (fun h => nomatch h.signature) []
    [sampleCrash] sampleCrash).2.mpr ⟨rfl, by decide⟩

/-- The panic after a warm boot is the second one and is stored as the first. -/
theorem second_boot_counts_one : ¬ Valid blankArea ∧ crashCount
    (panicLogWrite true (boot true (boot true blankArea [sampleCrash]) []) sampleCrash) = 1 := by
  refine ⟨fun h => (nomatch h.signature), ?_⟩
  rw [(panicLogWrite_spec _ _).2, carried_boot]
  rfl

end Kyuzen.Debug
