import Kyuzen.Kfs.Volume

/-!
`kfs_balloc.c`: the bitmaps in RAM and the allocation of runs of blocks.
-/

namespace Kyuzen.Kfs

open Bool Finset

def bmTest (m : Buf) (bit : Nat) : Bool :=
  (m (bit / 8)).toBitVec.getLsbD (bit % 8)

def bmSet (m : Buf) (bit : Nat) : Buf :=
  fun i => if i = bit / 8 then ⟨(m i).toBitVec ||| (1#8 <<< (bit % 8))⟩ else m i

def bmClear (m : Buf) (bit : Nat) : Buf :=
  fun i => if i = bit / 8 then ⟨(m i).toBitVec &&& ~~~(1#8 <<< (bit % 8))⟩ else m i

/-- The locals of the scan in `blk_alloc_run_nolock`. -/
structure RunScan where
  runStart : Nat
  runLen : Nat
  bestStart : Nat
  bestLen : Nat

/-- The scan from block `b` on, over `fuel` blocks. -/
def scanRuns (m : Buf) (want : Nat) : Nat → Nat → RunScan → RunScan
  | 0, _, s => s
  | fuel + 1, b, s =>
    if bmTest m b then scanRuns m want fuel (b + 1) {s with runLen := 0}
    else
      let runStart := if s.runLen = 0 then b else s.runStart
      let runLen := s.runLen + 1
      let s' : RunScan :=
        if runLen > s.bestLen then ⟨runStart, runLen, runStart, runLen⟩
        else ⟨runStart, runLen, s.bestStart, s.bestLen⟩
      if runLen ≥ want then s' else scanRuns m want fuel (b + 1) s'

/-- `for (b = start; b < start + n; b++) bm_set(m, b)`. -/
def bmSetRun (m : Buf) (start : Nat) : Nat → Buf
  | 0 => m
  | n + 1 => bmSet (bmSetRun m start n) (start + n)

/-- `blk_alloc_run_nolock`: the start of the run (0 = no space) and `*got`. -/
def blkAllocRunNolock (v : Vol) (want : Nat) : Nat × Nat × Vol :=
  if want = 0 then (0, 0, v)
  else
    let s := scanRuns v.bmMem want (v.sb.totalBlocks - v.dataStart) v.dataStart ⟨0, 0, 0, 0⟩
    if s.bestLen = 0 then (0, 0, v)
    else
      let n := if s.bestLen ≥ want then want else s.bestLen
      (s.bestStart, n,
        {v with
          bmMem := bmSetRun v.bmMem s.bestStart n
          bmDirty := true
          sb := {v.sb with freeBlocks := v.sb.freeBlocks - n}})

/-- The loop of `blk_free_run_nolock` over `n` blocks from `b` on. -/
def freeRunLoop (total : Nat) : Nat → Nat → Buf → Nat → Buf × Nat
  | 0, _, m, free => (m, free)
  | n + 1, b, m, free =>
    if b < total then
      if bmTest m b then freeRunLoop total n (b + 1) (bmClear m b) (free + 1)
      else freeRunLoop total n (b + 1) m free
    else (m, free)

def blkFreeRunNolock (v : Vol) (start count : Nat) : Vol :=
  let r := freeRunLoop v.sb.totalBlocks count start v.bmMem v.sb.freeBlocks
  {v with bmMem := r.1, bmDirty := true, sb := {v.sb with freeBlocks := r.2}}

/-! ## Single bits -/

variable {m : Buf} {b from_ want : Nat} {s : RunScan}

theorem bmTest_bmSet (m : Buf) (bit b : Nat) :
    bmTest (bmSet m bit) b = (decide (b = bit) || bmTest m b) := by
  unfold bmTest bmSet
  by_cases hbyte : b / 8 = bit / 8
  · have hmask : (1#8 <<< (bit % 8)).getLsbD (b % 8) = decide (b = bit) := by
      have hlt : b % 8 < 8 := Nat.mod_lt _ (by omega)
      have hiff : (b % 8 = bit % 8) ↔ b = bit := by omega
      rw [BitVec.getLsbD_shiftLeft, BitVec.getLsbD_one]
      by_cases heq : b = bit
      · subst heq
        simp [hlt]
      · have hne : b % 8 ≠ bit % 8 := fun h => heq (hiff.mp h)
        simp only [hlt, decide_true, Bool.true_and, heq, decide_false, and_eq_false_iff,
          not_eq_false', decide_eq_true_eq, decide_eq_false_iff_not]
        omega
    rw [if_pos hbyte]
    simp [BitVec.getLsbD_or, hmask, Bool.or_comm]
  · have hne : b ≠ bit := fun h => hbyte (by rw [h])
    rw [if_neg hbyte]
    simp [hne]

theorem bmTest_bmClear (m : Buf) (bit b : Nat) :
    bmTest (bmClear m bit) b = (!decide (b = bit) && bmTest m b) := by
  have hset := bmTest_bmSet (fun _ => 0) bit b
  unfold bmTest bmSet at hset
  unfold bmTest bmClear
  by_cases hbyte : b / 8 = bit / 8
  · have hlt : b % 8 < 8 := Nat.mod_lt _ (by omega)
    rw [if_pos hbyte] at hset ⊢
    simp only [BitVec.getLsbD_or] at hset
    have hmask : (1#8 <<< (bit % 8)).getLsbD (b % 8) = decide (b = bit) := by
      simpa using hset
    simp only [BitVec.getLsbD_and, BitVec.getLsbD_not, hmask, hlt, decide_true, Bool.true_and,
      Bool.and_comm]
  · have hne : b ≠ bit := fun h => hbyte (by rw [h])
    rw [if_neg hbyte]
    simp [hne]

theorem bmTest_bmSetRun (m : Buf) (start n b : Nat) :
    bmTest (bmSetRun m start n) b = (decide (start ≤ b ∧ b < start + n) || bmTest m b) := by
  induction n with
  | zero =>
    simp [bmSetRun]
  | succ n ih =>
    rw [bmSetRun, bmTest_bmSet, ih, ← Bool.or_assoc]
    congr 1
    rw [Bool.eq_iff_iff]
    simp only [or_eq_true, decide_eq_true_eq]
    omega

/-! ## Free blocks -/

/-- The clear bits below `total`. -/
def freeSet (m : Buf) (total : Nat) : Finset Nat :=
  (range total).filter fun b => bmTest m b = false

theorem mem_freeSet {total : Nat} : b ∈ freeSet m total ↔ b < total ∧ bmTest m b = false := by
  simp [freeSet]

def Vol.FreeExact (v : Vol) : Prop :=
  v.sb.freeBlocks = (freeSet v.bmMem v.sb.totalBlocks).card

def Vol.IsFree (v : Vol) (b : Nat) : Prop :=
  v.dataStart ≤ b ∧ b < v.sb.totalBlocks ∧ bmTest v.bmMem b = false

instance (v : Vol) (b : Nat) : Decidable (v.IsFree b) := inferInstanceAs (Decidable (_ ∧ _ ∧ _))

theorem card_freeSet_bmSetRun (m : Buf) (total start n : Nat)
    (hfree : ∀ b, start ≤ b → b < start + n → b < total ∧ bmTest m b = false) :
    (freeSet (bmSetRun m start n) total).card + n = (freeSet m total).card := by
  have hsplit : freeSet (bmSetRun m start n) total =
      freeSet m total \ Ico start (start + n) := by
    ext b
    simp only [mem_freeSet, bmTest_bmSetRun, mem_sdiff, mem_Ico,
      or_eq_false_iff, decide_eq_false_iff_not]
    tauto
  have hsub : Ico start (start + n) ⊆ freeSet m total := by
    intro b hb
    rw [mem_Ico] at hb
    exact mem_freeSet.mpr (hfree b hb.1 hb.2)
  have hcard := card_sdiff_add_card_eq_card hsub
  rw [hsplit]
  simpa using hcard

theorem card_freeSet_bmClear (m : Buf) (total bit : Nat) (hlt : bit < total)
    (hset : bmTest m bit = true) :
    (freeSet (bmClear m bit) total).card = (freeSet m total).card + 1 := by
  have hinsert : freeSet (bmClear m bit) total = insert bit (freeSet m total) := by
    ext b
    simp only [mem_freeSet, bmTest_bmClear, mem_insert, and_eq_false_iff,
      not_eq_false', decide_eq_true_eq]
    constructor
    · rintro ⟨hb, heq | hclear⟩
      · exact .inl heq
      · exact .inr ⟨hb, hclear⟩
    · rintro (rfl | ⟨hb, hclear⟩)
      · exact ⟨hlt, .inl rfl⟩
      · exact ⟨hb, .inr hclear⟩
  have hnot : bit ∉ freeSet m total := by
    simp [mem_freeSet, hset]
  rw [hinsert, card_insert_of_notMem hnot]

/-! ## The run scan -/

/-- What the scan knows at block `b`: the best run so far is free and lies in
the part already scanned, and so does the run that is open at `b`. -/
structure ScanInv (m : Buf) (from_ b want : Nat) (s : RunScan) : Prop where
  best_free : ∀ i, s.bestStart ≤ i → i < s.bestStart + s.bestLen → bmTest m i = false
  best_from : s.bestLen ≠ 0 → from_ ≤ s.bestStart
  best_end : s.bestLen ≠ 0 → s.bestStart + s.bestLen ≤ b
  open_free : ∀ i, s.runStart ≤ i → i < s.runStart + s.runLen → bmTest m i = false
  open_from : s.runLen ≠ 0 → from_ ≤ s.runStart
  open_end : s.runLen ≠ 0 → s.runStart + s.runLen = b
  open_le : s.runLen ≤ s.bestLen
  none_free : s.bestLen = 0 → ∀ i, from_ ≤ i → i < b → bmTest m i = true
  best_lt : s.bestLen < want

structure ScanDone (m : Buf) (from_ stop want : Nat) (s : RunScan) : Prop where
  best_free : ∀ i, s.bestStart ≤ i → i < s.bestStart + s.bestLen → bmTest m i = false
  best_from : s.bestLen ≠ 0 → from_ ≤ s.bestStart
  best_end : s.bestLen ≠ 0 → s.bestStart + s.bestLen ≤ stop
  none_free : s.bestLen = 0 → ∀ i, from_ ≤ i → i < stop → bmTest m i = true
  best_le : s.bestLen ≤ want

private theorem ScanInv.used (h : ScanInv m from_ b want s) (hb : bmTest m b = true) :
    ScanInv m from_ (b + 1) want {s with runLen := 0} where
  __ := h
  best_end hne := Nat.le_succ_of_le (h.best_end hne)
  open_free i hi hi' := by
    simp only at hi hi'
    omega
  open_from hne := absurd rfl hne
  open_end hne := absurd rfl hne
  open_le := Nat.zero_le _
  none_free hz i hi hi' := by
    rcases Nat.lt_succ_iff_lt_or_eq.mp hi' with hlt | rfl
    · exact h.none_free hz i hi hlt
    · exact hb

private def scanFree (b : Nat) (s : RunScan) : RunScan :=
  let runStart := if s.runLen = 0 then b else s.runStart
  if s.runLen + 1 > s.bestLen then ⟨runStart, s.runLen + 1, runStart, s.runLen + 1⟩
  else ⟨runStart, s.runLen + 1, s.bestStart, s.bestLen⟩

private theorem scanFree_runLen (b : Nat) (s : RunScan) : (scanFree b s).runLen = s.runLen + 1 := by
  unfold scanFree
  by_cases hbest : s.runLen + 1 > s.bestLen
  · simp [hbest]
  · simp [hbest]

private theorem scanFree_bestLen (b : Nat) (s : RunScan) :
    (scanFree b s).bestLen = max s.bestLen (s.runLen + 1) := by
  unfold scanFree
  by_cases hbest : s.runLen + 1 > s.bestLen
  · simp only [hbest, if_true]
    omega
  · simp only [hbest, if_false]
    omega

section
variable (h : ScanInv m from_ b want s) (hfrom : from_ ≤ b) (hb : bmTest m b = false)
include h hfrom hb

/-- The run that is open after one free block is free and ends behind it. -/
private theorem ScanInv.open_run : let start := if s.runLen = 0 then b else s.runStart
    from_ ≤ start ∧ start + (s.runLen + 1) = b + 1 ∧
      ∀ i, start ≤ i → i < start + (s.runLen + 1) → bmTest m i = false := by
  by_cases hz : s.runLen = 0
  · simp only [hz, if_true]
    refine ⟨hfrom, by simp, ?_⟩
    intro i hi hi'
    have : i = b := by omega
    rw [this, hb]
  · have hend := h.open_end hz
    simp only [hz, if_false]
    refine ⟨h.open_from hz, by omega, ?_⟩
    intro i hi hi'
    rcases Nat.lt_or_ge i (s.runStart + s.runLen) with hlt | hge
    · exact h.open_free i hi hlt
    · have : i = b := by omega
      rw [this, hb]

private theorem ScanInv.free : (s.runLen + 1 < want → ScanInv m from_ (b + 1) want (scanFree b s)) ∧
      (want ≤ s.runLen + 1 → ScanDone m from_ (b + 1) want (scanFree b s)) := by
  obtain ⟨hstart, hend, hopen⟩ := h.open_run hfrom hb
  have hle := h.open_le
  have hlt := h.best_lt
  unfold scanFree
  by_cases hbest : s.runLen + 1 > s.bestLen
  · simp only [hbest, if_true]
    constructor
    · intro hwant
      exact ⟨hopen, fun _ => hstart, fun _ => hend.le, hopen, fun _ => hstart, fun _ => hend,
        le_rfl, fun hz => by simp at hz, hwant⟩
    intro hwant
    exact ⟨hopen, fun _ => hstart, fun _ => hend.le, fun hz => by simp at hz,
      by simp only; omega⟩
  · have hkeep : s.bestLen ≠ 0 := by omega
    simp only [hbest, if_false]
    constructor
    · intro hwant
      exact ⟨h.best_free, h.best_from, fun hne => Nat.le_succ_of_le (h.best_end hne), hopen,
        fun _ => hstart, fun _ => hend, by simp only; omega,
        fun hz => absurd hz hkeep, h.best_lt⟩
    · intro hwant
      omega

end

/-- A whole scan keeps what it knows, whatever the bitmap holds. -/
theorem scanRuns_done (m : Buf) (want fuel from_ b : Nat) (s : RunScan)
    (hfrom : from_ ≤ b) (h : ScanInv m from_ b want s) :
    ScanDone m from_ (b + fuel) want (scanRuns m want fuel b s) := by
  induction fuel generalizing b s with
  | zero =>
    have hlt := h.best_lt
    exact {h with best_le := by simp only [scanRuns]; omega}
  | succ fuel ih =>
    rw [scanRuns]
    cases hb : bmTest m b with
    | true =>
      have hrec := ih (b + 1) {s with runLen := 0} (by omega) (h.used hb)
      simpa [add_assoc, add_comm 1] using hrec
    | false =>
      have hfree := h.free hfrom hb
      change ScanDone m from_ (b + (fuel + 1)) want
        (if s.runLen + 1 ≥ want then scanFree b s
          else scanRuns m want fuel (b + 1) (scanFree b s))
      split
      next hwant =>
        have hdone := hfree.2 hwant
        exact {hdone with
            best_end := fun hne => le_trans (hdone.best_end hne) (by omega),
            none_free := fun hz => absurd hz (by rw [scanFree_bestLen]; omega)}
      · have hrec := ih (b + 1) (scanFree b s) (by omega) (hfree.1 (by omega))
        simpa [add_assoc, add_comm 1] using hrec

/-- What the scan knows of all runs at block `b`: none that ends there is longer
than the open run, and none before is longer than the best one. -/
structure ScanMax (m : Buf) (from_ b : Nat) (s : RunScan) : Prop where
  open_max : ∀ start, from_ ≤ start → start ≤ b → (∀ i, start ≤ i → i < b → bmTest m i = false) →
    b - start ≤ s.runLen
  best_max : ∀ start n, from_ ≤ start → start + n ≤ b →
    (∀ i, start ≤ i → i < start + n → bmTest m i = false) → n ≤ s.bestLen
  open_le : s.runLen ≤ s.bestLen

private theorem ScanMax.used (h : ScanMax m from_ b s) (hb : bmTest m b = true) :
    ScanMax m from_ (b + 1) {s with runLen := 0} where
  open_max start hfrom hle hfree := by
    by_cases hlast : start ≤ b
    · rw [hfree b hlast (by omega)] at hb
      cases hb
    · omega
  best_max start n hfrom hle hfree := by
    by_cases hlast : start + n ≤ b
    · exact h.best_max start n hfrom hlast hfree
    · by_cases hin : start ≤ b
      · rw [hfree b hin (by omega)] at hb
        cases hb
      · omega
  open_le := Nat.zero_le _

private theorem ScanMax.free (h : ScanMax m from_ b s) : ScanMax m from_ (b + 1) (scanFree b s) := by
  have hopen : ∀ start, from_ ≤ start → start ≤ b + 1 →
      (∀ i, start ≤ i → i < b + 1 → bmTest m i = false) → b + 1 - start ≤ s.runLen + 1 := by
    intro start hfrom hstart hfree
    by_cases hlast : start ≤ b
    · have := h.open_max start hfrom hlast fun i hi hi' => hfree i hi (by omega)
      omega
    · omega
  refine ⟨fun start hfrom hstart hfree => ?_, fun start n hfrom hend hfree => ?_, ?_⟩
  · rw [scanFree_runLen]
    exact hopen start hfrom hstart hfree
  · rw [scanFree_bestLen]
    by_cases hlast : start + n ≤ b
    · have := h.best_max start n hfrom hlast hfree
      omega
    · have := hopen start hfrom (by omega) fun i hi hi' => hfree i hi (by omega)
      omega
  · rw [scanFree_runLen, scanFree_bestLen]
    omega

theorem scanRuns_max (want fuel b : Nat) (s : RunScan) (h : ScanMax m from_ b s) :
    want ≤ (scanRuns m want fuel b s).bestLen ∨
      ScanMax m from_ (b + fuel) (scanRuns m want fuel b s) := by
  induction fuel generalizing b s with
  | zero => exact .inr h
  | succ fuel ih =>
    rw [scanRuns]
    cases hb : bmTest m b with
    | true =>
      have hrec := ih (b + 1) {s with runLen := 0} (h.used hb)
      simpa [add_assoc, add_comm 1] using hrec
    | false =>
      have hfree := h.free
      change want ≤ (if s.runLen + 1 ≥ want then scanFree b s
          else scanRuns m want fuel (b + 1) (scanFree b s)).bestLen ∨ ScanMax m from_ (b + (fuel + 1))
        (if s.runLen + 1 ≥ want then scanFree b s
          else scanRuns m want fuel (b + 1) (scanFree b s))
      split
      · rw [scanFree_bestLen]
        exact .inl (by omega)
      · have hrec := ih (b + 1) (scanFree b s) hfree
        simpa [add_assoc, add_comm 1] using hrec

/-- No run as long as the best one starts before it. -/
def ScanFirst (m : Buf) (from_ : Nat) (s : RunScan) : Prop :=
  ∀ start, from_ ≤ start → (∀ i, start ≤ i → i < start + s.bestLen → bmTest m i = false) →
    s.bestLen ≠ 0 → s.bestStart ≤ start

private theorem ScanFirst.free (h : ScanFirst m from_ s) (hinv : ScanInv m from_ b want s)
    (hmax : ScanMax m from_ b s) (hfrom : from_ ≤ b) (hb : bmTest m b = false) :
    ScanFirst m from_ (scanFree b s) := by
  obtain ⟨-, hend, -⟩ := hinv.open_run hfrom hb
  unfold scanFree
  by_cases hbest : s.runLen + 1 > s.bestLen
  · simp only [hbest, if_true]
    intro start hstart hfree _
    -- an earlier run of that length would have been the best one already
    by_contra hlt
    have := hmax.best_max start (s.runLen + 1) hstart (by simp only at hlt; omega) hfree
    omega
  · simp only [hbest, if_false]
    exact h

/-- Of the runs of one length a whole scan finds the first. -/
theorem scanRuns_first (want fuel b : Nat) (s : RunScan) (hfrom : from_ ≤ b)
    (hinv : ScanInv m from_ b want s) (hmax : ScanMax m from_ b s) (hfirst : ScanFirst m from_ s) :
    ScanFirst m from_ (scanRuns m want fuel b s) := by
  induction fuel generalizing b s with
  | zero => exact hfirst
  | succ fuel ih =>
    rw [scanRuns]
    cases hb : bmTest m b with
    | true =>
      rw [if_pos rfl]
      exact ih (b + 1) _ (by omega) (hinv.used hb) (hmax.used hb) hfirst
    | false =>
      have hfree := hfirst.free hinv hmax hfrom hb
      change ScanFirst m from_ (if s.runLen + 1 ≥ want then scanFree b s
        else scanRuns m want fuel (b + 1) (scanFree b s))
      split
      · exact hfree
      · exact ih (b + 1) _ (by omega) ((hinv.free hfrom hb).1 (by omega)) hmax.free hfree

/-! ## Allocation and release -/

def Vol.take (v : Vol) (start n : Nat) : Vol :=
  {v with
    bmMem := bmSetRun v.bmMem start n
    bmDirty := true
    sb := {v.sb with freeBlocks := v.sb.freeBlocks - n}}

theorem scanInv_start (m : Buf) (b : Nat) (hwant : 0 < want) :
    ScanInv m b b want ⟨0, 0, 0, 0⟩ :=
  ⟨fun i _ hi => by simp at hi, absurd rfl, absurd rfl,
    fun i _ hi => by simp at hi, absurd rfl, absurd rfl,
    le_rfl, fun _ i hi hi' => by omega, hwant⟩

theorem scanMax_start (m : Buf) (b : Nat) : ScanMax m b b ⟨0, 0, 0, 0⟩ :=
  ⟨fun start hfrom hle _ => by simp only; omega,
    fun start n hfrom hle _ => by simp only; omega, le_rfl⟩

theorem Vol.scan_done (v : Vol) (hwant : 0 < want) :
    ScanDone v.bmMem v.dataStart (v.dataStart + (v.sb.totalBlocks - v.dataStart)) want
      (scanRuns v.bmMem want (v.sb.totalBlocks - v.dataStart) v.dataStart ⟨0, 0, 0, 0⟩) :=
  scanRuns_done v.bmMem want _ v.dataStart v.dataStart _ le_rfl (scanInv_start _ _ hwant)

def Vol.FreeRun (v : Vol) (start n : Nat) : Prop := ∀ b, start ≤ b → b < start + n → v.IsFree b

theorem Vol.IsFree.run {v : Vol} (h : v.IsFree b) : v.FreeRun b 1 := by
  intro b' hle hlt
  obtain rfl : b' = b := by omega
  exact h

theorem Vol.exists_longest (v : Vol) :
    ∃ longest, IsGreatest {n | ∃ start, v.FreeRun start n} longest := by
  have hbdd : BddAbove {n | ∃ start, v.FreeRun start n} := by
    refine ⟨v.sb.totalBlocks, ?_⟩
    rintro n ⟨start, hrun⟩
    by_contra hlt
    have hlast := (hrun (start + n - 1) (by omega) (by omega)).2.1
    omega
  have hzero : 0 ∈ {n | ∃ start, v.FreeRun start n} := ⟨0, fun b hb hb' => by omega⟩
  exact ⟨_, Nat.sSup_mem ⟨0, hzero⟩ hbdd, fun n hn => le_csSup hbdd hn⟩

/-- The first run of the wanted length, or else of the greatest length there is. -/
@[mk_iff] structure Vol.FirstFit (v : Vol) (want start n : Nat) : Prop where
  pos : 0 < n
  le : n ≤ want
  run : v.FreeRun start n
  longest : ∀ start' n', v.FreeRun start' n' → min want n' ≤ n
  first : ∀ start', v.FreeRun start' n → start ≤ start'

theorem Vol.FirstFit.unique {v : Vol} {start start' n n' : Nat} (h : v.FirstFit want start n)
    (h' : v.FirstFit want start' n') : start = start' ∧ n = n' := by
  have hle := h.longest start' n' h'.run
  have hle' := h'.longest start n h.run
  have hwant := h.le
  have hwant' := h'.le
  obtain rfl : n = n' := by omega
  exact ⟨le_antisymm (h.first start' h'.run) (h'.first start h.run), rfl⟩

theorem Vol.FirstFit.length_eq {v : Vol} {start n start' : Nat} (h : v.FirstFit want start n)
    (hrun : v.FreeRun start' want) : n = want := by
  have hlong := h.longest start' want hrun
  have hle := h.le
  omega

theorem blkAllocRunNolock_longest (v : Vol) (hwant : 0 < want) (hsome : ∃ b, v.IsFree b) :
    ∃ start n, blkAllocRunNolock v want = (start, n, v.take start n) ∧ v.FirstFit want start n := by
  have hdone := v.scan_done hwant
  have hmax := scanRuns_max want (v.sb.totalBlocks - v.dataStart) v.dataStart ⟨0, 0, 0, 0⟩
    (scanMax_start v.bmMem v.dataStart)
  have hfirst := scanRuns_first want (v.sb.totalBlocks - v.dataStart) v.dataStart _ le_rfl
    (scanInv_start v.bmMem v.dataStart hwant) (scanMax_start _ _) fun _ _ _ h => absurd rfl h
  unfold blkAllocRunNolock
  rw [if_neg (by omega)]
  generalize scanRuns v.bmMem want (v.sb.totalBlocks - v.dataStart) v.dataStart ⟨0, 0, 0, 0⟩ = s
    at hdone hmax hfirst
  have hle := hdone.best_le
  have hz : s.bestLen ≠ 0 := by
    intro hz
    obtain ⟨b, hfrom, hlt, hclear⟩ := hsome
    rw [hdone.none_free hz b hfrom (by omega)] at hclear
    cases hclear
  have hmin : (if s.bestLen ≥ want then want else s.bestLen) = s.bestLen := by
    split <;> omega
  have hfrom := hdone.best_from hz
  have hend := hdone.best_end hz
  refine ⟨s.bestStart, s.bestLen, by simp [hz, hmin, Vol.take], by omega, hle,
    fun b hb hb' => ⟨by omega, by omega, hdone.best_free b hb hb'⟩, fun start n hrun => ?_,
    fun start hrun => ?_⟩
  · rcases hmax with hfull | hmax
    · omega
    by_cases hn : n = 0
    · omega
    have hlow := hrun start (by omega) (by omega)
    have hlast := hrun (start + n - 1) (by omega) (by omega)
    have hbest := hmax.best_max start n hlow.1 (by have := hlast.2.1; omega)
      fun i hi hi' => (hrun i hi hi').2.2
    omega
  · exact hfirst start (hrun start le_rfl (by omega)).1 (fun i hi hi' => (hrun i hi hi').2.2) hz

theorem blkAllocRunNolock_full (v : Vol) (hwant : 0 < want) (hnone : ∀ b, ¬ v.IsFree b) :
    blkAllocRunNolock v want = (0, 0, v) := by
  have hdone := v.scan_done hwant
  unfold blkAllocRunNolock
  rw [if_neg (by omega)]
  generalize scanRuns v.bmMem want (v.sb.totalBlocks - v.dataStart) v.dataStart ⟨0, 0, 0, 0⟩ = s
    at hdone
  have hz : s.bestLen = 0 := by
    by_contra hz
    have hfrom := hdone.best_from hz
    have hend := hdone.best_end hz
    exact hnone s.bestStart
      ⟨hfrom, by omega, hdone.best_free s.bestStart le_rfl (by omega)⟩
  simp [hz]

/-- `blk_alloc_run_nolock` either finds the data area full and changes nothing,
or takes the run that fits first. -/
theorem blkAllocRunNolock_spec (v : Vol) (want : Nat) (hwant : 0 < want) (hdata : 0 < v.dataStart) :
    (blkAllocRunNolock v want = (0, 0, v) ∧ ∀ b, ¬ v.IsFree b) ∨
    ∃ start n, blkAllocRunNolock v want = (start, n, v.take start n) ∧ start ≠ 0 ∧
      v.FirstFit want start n := by
  by_cases hsome : ∃ b, v.IsFree b
  · right
    obtain ⟨start, n, hcall, hfit⟩ := blkAllocRunNolock_longest v hwant hsome
    have hpos := hfit.pos
    have hlow := (hfit.run start le_rfl (by omega)).1
    exact ⟨start, n, hcall, by omega, hfit⟩
  · have hnone := not_exists.mp hsome
    exact .inl ⟨blkAllocRunNolock_full v hwant hnone, hnone⟩

theorem bmTest_freeRunLoop (total n b : Nat) (m : Buf) (free x : Nat) :
    bmTest (freeRunLoop total n b m free).1 x =
      (!decide (b ≤ x ∧ x < b + n ∧ x < total) && bmTest m x) := by
  induction n generalizing b m free with
  | zero =>
    have hempty : decide (b ≤ x ∧ x < b + 0 ∧ x < total) = false := by
      rw [decide_eq_false_iff_not]
      omega
    rw [hempty]
    simp [freeRunLoop]
  | succ n ih =>
    rw [freeRunLoop]
    by_cases hb : b < total
    · rw [if_pos hb]
      cases hset : bmTest m b with
      | true =>
        rw [if_pos rfl, ih, bmTest_bmClear, ← Bool.and_assoc]
        congr 1
        rw [Bool.eq_iff_iff]
        simp only [and_eq_true, not_eq_true', decide_eq_false_iff_not]
        omega
      | false =>
        rw [if_neg (by simp), ih]
        by_cases hx : x = b
        · subst hx
          simp [hset]
        · congr 2
          rw [decide_eq_decide]
          omega
    · have hempty : decide (b ≤ x ∧ x < b + (n + 1) ∧ x < total) = false := by
        rw [decide_eq_false_iff_not]
        omega
      rw [if_neg hb, hempty]
      simp

theorem freeRunLoop_count (total n b : Nat) (m : Buf) (free : Nat)
    (hfree : free = (freeSet m total).card) :
    (freeRunLoop total n b m free).2 = (freeSet (freeRunLoop total n b m free).1 total).card := by
  induction n generalizing b m free with
  | zero => exact hfree
  | succ n ih =>
    rw [freeRunLoop]
    split
    next hb =>
      cases hset : bmTest m b with
      | true =>
        have hcard := card_freeSet_bmClear m total b hb hset
        exact ih (b + 1) (bmClear m b) (free + 1) (by omega)
      | false => exact ih (b + 1) m free hfree
    · exact hfree

theorem bmTest_blkFreeRunNolock (v : Vol) (start count b : Nat) :
    bmTest (blkFreeRunNolock v start count).bmMem b =
      (!decide (start ≤ b ∧ b < start + count ∧ b < v.sb.totalBlocks) && bmTest v.bmMem b) :=
  bmTest_freeRunLoop v.sb.totalBlocks count start v.bmMem v.sb.freeBlocks b

theorem blkFreeRunNolock_freeExact (v : Vol) (start count : Nat) (h : v.FreeExact) :
    (blkFreeRunNolock v start count).FreeExact :=
  freeRunLoop_count v.sb.totalBlocks count start v.bmMem _ h

theorem Vol.take_freeExact (v : Vol) (start n : Nat) (h : v.FreeExact)
    (hfree : ∀ b, start ≤ b → b < start + n → v.IsFree b) : (v.take start n).FreeExact := by
  have hcard := card_freeSet_bmSetRun v.bmMem v.sb.totalBlocks start n
    (fun b hb hb' => (hfree b hb hb').2)
  unfold Vol.FreeExact at h ⊢
  change v.sb.freeBlocks - n = (freeSet (bmSetRun v.bmMem start n) v.sb.totalBlocks).card
  omega

/-- `blk_alloc_run_nolock` takes the longest free run of the data area, cut to the
wanted length, and changes nothing exactly if no block of it is free. -/
theorem best_run_allocated (v : Vol) (want : Nat) : let r := blkAllocRunNolock v (want + 1)
    v.FreeRun r.1 r.2.1 ∧
      (∃ longest, IsGreatest {n | ∃ start, v.FreeRun start n} longest ∧ r.2.1 = min (want + 1) longest) ∧
      (r.1 = 0 ∧ r.2.2 = v ↔ ∀ b, ¬ v.IsFree b) ∧
      ((∃ b, v.IsFree b) → r.2.2 = {v with
          bmMem := r.2.2.bmMem
          bmDirty := true
          sb := {v.sb with freeBlocks := v.sb.freeBlocks - r.2.1}} ∧
        (∀ b, bmTest r.2.2.bmMem b = (decide (r.1 ≤ b ∧ b < r.1 + r.2.1) || bmTest v.bmMem b)) ∧
        (v.FreeExact → r.2.2.sb.freeBlocks + r.2.1 = v.sb.freeBlocks)) := by
  obtain ⟨longest, hlongest⟩ := v.exists_longest
  have hwant : 0 < want + 1 := want.succ_pos
  by_cases hsome : ∃ b, v.IsFree b
  · obtain ⟨start, n, hcall, hn, hle, hrun, hmax, -⟩ := blkAllocRunNolock_longest v hwant hsome
    have hbits := bmTest_bmSetRun v.bmMem start n
    have hfree := hrun start le_rfl (by omega)
    obtain ⟨start', hrun'⟩ := hlongest.1
    have hlow := hmax start' longest hrun'
    have hup := hlongest.2 ⟨start, hrun⟩
    rw [hcall]
    refine ⟨hrun, ⟨longest, hlongest, by dsimp only; omega⟩, ⟨fun hsame => ?_, fun hnone => ?_⟩,
      fun _ => ⟨rfl, hbits, fun hexact => ?_⟩⟩
    · -- the bit of the first block tells the two states apart
      have hbit := hbits start
      rw [show bmSetRun v.bmMem start n = v.bmMem from congrArg Vol.bmMem hsame.2, hfree.2.2] at hbit
      simp at hbit
      omega
    · exact absurd hsome (not_exists.mpr hnone)
    · have hcard := card_freeSet_bmSetRun v.bmMem v.sb.totalBlocks start n
        fun b hb hb' => (hrun b hb hb').2
      unfold Vol.FreeExact at hexact
      change v.sb.freeBlocks - n + n = v.sb.freeBlocks
      omega
  · have hnone := not_exists.mp hsome
    rw [blkAllocRunNolock_full v hwant hnone]
    refine ⟨fun b hb hb' => absurd hb' (not_lt.mpr hb), ⟨longest, hlongest, ?_⟩, ⟨fun _ => hnone, fun _ => ⟨rfl, rfl⟩⟩,
      fun h => absurd h hsome⟩
    obtain ⟨start, hrun⟩ := hlongest.1
    have hzero : longest = 0 := by
      by_contra hne
      exact hnone start (hrun start le_rfl (by omega))
    rw [hzero, Nat.min_zero]

end Kyuzen.Kfs
