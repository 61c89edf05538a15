import Kyuzen.Base.Run
import Kyuzen.Mm.Frames

/-!
`pmm_init_dynamic` of `pmm.c` and the runs of the page allocator after it. The
bitmap lies in the first usable region behind the kernel's zone that holds it.
-/

namespace Kyuzen.Mm

open Function List

/-- `struct limine_memmap_entry`; `usable` is the type `LIMINE_MEMMAP_USABLE`. -/
structure MemmapEntry where
  base : Nat
  length : Nat
  usable : Bool
  deriving DecidableEq, Repr

/-- `e->base + e->length`, a word of 64 bits. -/
def MemmapEntry.stop (e : MemmapEntry) : Nat := (e.base + e.length) % 2 ^ 64

def MemmapEntry.start (e : MemmapEntry) : Nat :=
  if e.base % 4096 ≠ 0 then pageOf ((e.base + 4095) % 2 ^ 64) else e.base

/-! ### Initialisation -/

/-- The first phase: the end of the highest usable region. -/
def highestAddr (entries : List MemmapEntry) : Nat :=
  entries.foldl (fun h e => if e.usable ∧ e.stop > h then e.stop else h) 0

def pagesNeeded (entries : List MemmapEntry) : Nat := highestAddr entries / 4096

def bitmapAllocBytes (entries : List MemmapEntry) : Nat :=
  pageOf ((pagesNeeded entries + 7) / 8 + 4095)

def placeBitmap (bytes : Nat) (e : MemmapEntry) : Option Nat :=
  if !e.usable then none
  else
    let base := if e.start < pmmKernelZoneEnd then pmmKernelZoneEnd else e.start
    if base ≥ e.stop then none
    else if e.stop - base ≥ bytes then some base
    else none

def bitmapPhys (entries : List MemmapEntry) : Option Nat :=
  entries.findSome? (placeBitmap (bitmapAllocBytes entries))

/-- `bitmap_set` or `bitmap_clear_bit` for each page of a list that the bitmap tracks. -/
def markPages (pages : Nat) (used : Bool) (bitmap : Nat → Bool) (l : List Nat) : Nat → Bool :=
  l.foldl (fun m page => if page < pages then update m page used else m) bitmap

/-- The pages of the loop `for (addr = start; addr < end; addr += PAGE_SIZE)`. -/
def MemmapEntry.pages (e : MemmapEntry) : List Nat :=
  range' (e.start / 4096) ((e.stop - e.start + 4095) / 4096)

/-- Step B: the usable pages are free. -/
def freeUsable (pages : Nat) (bitmap : Nat → Bool) (entries : List MemmapEntry) : Nat → Bool :=
  entries.foldl (fun m e => if e.usable then markPages pages false m e.pages else m) bitmap

def kernelLockPages : Nat := pmmKernelZoneEnd / 4096

def bitmapFrames (entries : List MemmapEntry) (phys : Nat) : List Nat :=
  range' (phys / 4096) (bitmapAllocBytes entries / 4096)

/-- The ownership map of the third phase. -/
def initialBitmap (entries : List MemmapEntry) (phys : Nat) : Nat → Bool :=
  let n := pagesNeeded entries
  let m := freeUsable n (fun _ => true) entries
  let m := markPages n true m (range kernelLockPages)
  markPages n true m (bitmapFrames entries phys)

/-- `pmm_init_dynamic`; without a result the machine halts. -/
def pmmInitDynamic (p : Phys) (entries : List MemmapEntry) : Option Phys :=
  if highestAddr entries = 0 then none
  else
    match bitmapPhys entries with
    | none => none
    | some phys =>
      let total := min (highestAddr entries / 4096) (pagesNeeded entries)
      let bitmap := initialBitmap entries phys
      some {p with
        bitmap := bitmap
        bitmapPages := pagesNeeded entries
        totalPages := total
        usedPages := (range total).countP bitmap
        nextFreeHint := kernelLockPages}

/-! ### The bits after the initialisation -/

section
variable {entries : List MemmapEntry} {p : Phys} {i : Nat}

theorem markPages_apply (n : Nat) (used : Bool) (m : Nat → Bool) (l : List Nat) (i : Nat) :
    markPages n used m l i = if i ∈ l ∧ i < n then used else m i := by
  unfold markPages
  induction l generalizing m with
  | nil => simp
  | cons page l ih =>
    rw [foldl_cons, ih]
    by_cases hi : i = page
    · subst hi
      by_cases hn : i < n
      · simp [hn]
      · simp [hn]
    · have hskip : (if page < n then update m page used else m) i = m i := by
        split
        · exact update_of_ne hi _ _
        · rfl
      rw [hskip]
      simp [hi]

def UsablePage (entries : List MemmapEntry) (i : Nat) : Prop :=
  ∃ e ∈ entries, e.usable = true ∧ e.base ≤ i * 4096 ∧ i * 4096 + 4096 ≤ e.base + e.length

/-- The usable regions are whole pages of the 64-bit address space. -/
def AlignedMap (entries : List MemmapEntry) : Prop :=
  ∀ e ∈ entries, e.usable = true →
    e.base % 4096 = 0 ∧ e.length % 4096 = 0 ∧ e.base + e.length ≤ 2 ^ 64

instance : Decidable (AlignedMap entries) := by
  unfold AlignedMap
  infer_instance

open MemmapEntry

theorem MemmapEntry.pages_usable {e : MemmapEntry} (hbase : e.base % 4096 = 0)
    (hlen : e.length % 4096 = 0) (hend : e.base + e.length ≤ 2 ^ 64) (hi : i ∈ e.pages) :
    e.base ≤ i * 4096 ∧ i * 4096 + 4096 ≤ e.base + e.length := by
  have hstart : e.start = e.base := by
    rw [start, if_neg (by simp [hbase])]
  rw [pages, hstart, mem_range'_1, stop] at hi
  omega

/-- Only pages of usable regions are ever freed by step B. -/
theorem freeUsable_false (hmap : AlignedMap entries) {n : Nat} {m : Nat → Bool}
    (h : freeUsable n m entries i = false) : m i = false ∨ UsablePage entries i := by
  unfold freeUsable at h
  induction entries generalizing m with
  | nil => exact .inl h
  | cons e rest ih =>
    rw [foldl_cons] at h
    have hrest : AlignedMap rest := fun e he => hmap e (.tail _ he)
    rcases ih hrest h with hm | ⟨e', he', hu⟩
    · split_ifs at hm with husable
      · rw [markPages_apply] at hm
        split at hm
        next hin =>
          obtain ⟨hbase, hlen, hend⟩ := hmap e (.head _) husable
          exact .inr ⟨e, (.head _), husable, pages_usable hbase hlen hend hin.1⟩
        · exact .inl hm
      · exact .inl hm
    · exact .inr ⟨e', mem_cons_of_mem _ he', hu⟩

/-- A page that `pmm_alloc_page` may give: usable, behind the kernel's zone and
not of the bitmap. -/
structure Giveable (entries : List MemmapEntry) (i : Nat) : Prop where
  usable : UsablePage entries i
  zone : pmmKernelZoneEnd ≤ i * 4096
  bitmap : ∀ phys, bitmapPhys entries = some phys → i ∉ bitmapFrames entries phys

theorem initialBitmap_giveable (hmap : AlignedMap entries) {phys : Nat}
    (hphys : bitmapPhys entries = some phys) (hi : i < pagesNeeded entries)
    (h : initialBitmap entries phys i = false) : Giveable entries i := by
  rw [initialBitmap, markPages_apply] at h
  split at h
  · cases h
  rename_i hframe
  rw [markPages_apply] at h
  split at h
  · cases h
  rename_i hzone
  refine ⟨?_, ?_, fun phys' hphys' => ?_⟩
  · rcases freeUsable_false hmap h with hall | hu
    · cases hall
    · exact hu
  · rw [mem_range, kernelLockPages] at hzone
    have hdvd : pmmKernelZoneEnd = pmmKernelZoneEnd / 4096 * 4096 := by decide
    rw [hdvd]
    exact Nat.mul_le_mul_right _ (by
      by_contra hlt
      exact hzone ⟨by omega, hi⟩)
  · rw [hphys] at hphys'
    injection hphys' with heq
    subst heq
    exact fun hmem => hframe ⟨hmem, hi⟩

theorem initialBitmap_zone {phys : Nat} (hi : i < pagesNeeded entries) (hlow : i < kernelLockPages) :
    initialBitmap entries phys i = true := by
  rw [initialBitmap, markPages_apply]
  split
  · rfl
  · rw [markPages_apply, if_pos ⟨mem_range.mpr hlow, hi⟩]

end

/-! ### The allocator over a memory map -/

/-- The counter, the hint and the bitmap fit together, and every free page may
be given. -/
structure PmmInv (entries : List MemmapEntry) (p : Phys) : Prop where
  pages : p.bitmapPages = pagesNeeded entries
  total : p.totalPages = p.bitmapPages
  counted : Counted p
  hint : ∀ i, i < p.nextFreeHint → i < p.totalPages → p.bitmap i = true
  giveable : ∀ i, i < p.totalPages → p.bitmap i = false → Giveable entries i

section
variable {entries : List MemmapEntry} {p p' : Phys} {i addr : Nat}

theorem countP_range_eq_card (n : Nat) (m : Nat → Bool) :
    (range n).countP m = ((Finset.range n).filter fun i => m i = true).card := by
  induction n with
  | zero => rfl
  | succ n ih =>
    rw [range_succ, countP_append, ih, Finset.range_add_one, Finset.filter_insert]
    split
    next hn =>
      rw [Finset.card_insert_of_notMem (by simp)]
      simp [hn]
    next hn =>
      simp [hn]

theorem pmmInitDynamic_inv (hmap : AlignedMap entries) (h : pmmInitDynamic p entries = some p') :
    PmmInv entries p' := by
  unfold pmmInitDynamic at h
  split at h
  · cases h
  split at h
  · cases h
  rename_i phys hphys
  injection h with h
  subst h
  have htotal : min (highestAddr entries / 4096) (pagesNeeded entries) = pagesNeeded entries :=
    min_self _
  refine ⟨rfl, htotal, countP_range_eq_card _ _, fun i hi hlt => ?_, fun i hlt hfree => ?_⟩
  · rw [htotal] at hlt
    exact initialBitmap_zone hlt hi
  · rw [htotal] at hlt
    exact initialBitmap_giveable hmap hphys hlt hfree

/-- The page that `pmm_alloc_page` gives is the lowest free one. -/
structure Lowest (p : Phys) (i : Nat) : Prop where
  inside : i < p.totalPages
  free : p.bitmap i = false
  below : ∀ j, j < i → p.bitmap j = true

theorem find_range'_lowest {start len : Nat} {f : Nat → Bool}
    (h : (range' start len).find? f = some i) : ∀ j, start ≤ j → j < i → f j = false := by
  intro j hle hlt
  obtain ⟨-, as, bs, hsplit, hnone⟩ := find?_eq_some_iff_append.mp h
  have hi : i < start + len := by
    have hmem := mem_of_find?_eq_some h
    rw [mem_range'_1] at hmem
    exact hmem.2
  have hjmem : j ∈ as := by
    have hj : j ∈ range' start len := mem_range'_1.mpr ⟨hle, by omega⟩
    have hsorted : (range' start len).Pairwise (· < ·) := pairwise_lt_range'
    rw [hsplit] at hj hsorted
    rcases mem_append.mp hj with hj | hj
    · exact hj
    · rcases mem_cons.mp hj with rfl | hj
      · omega
      · have hlater := (pairwise_cons.mp (pairwise_append.mp hsorted).2.1).1 j hj
        omega
  simpa using hnone j hjmem

theorem PmmInv.alloc (h : PmmInv entries p) :
    (pmmAllocPage p = (physNull, p) ∧ ∀ i < p.totalPages, p.bitmap i = true) ∨
      ∃ i, Lowest p i ∧ pmmAllocPage p = p.take i := by
  rw [pmmAllocPage]
  split
  next i hfound =>
    have hmem := mem_of_find?_eq_some hfound
    have hfree := find?_some hfound
    rw [mem_range'_1] at hmem
    refine .inr ⟨i, ⟨by omega, by simpa using hfree, fun j hj => ?_⟩, rfl⟩
    by_cases hlow : j < p.nextFreeHint
    · exact h.hint j hlow (by omega)
    · simpa using find_range'_lowest hfound j (by omega) hj
  next hnone =>
    split
    next i hfound =>
      have hmem := mem_of_find?_eq_some hfound
      have hfree := find?_some hfound
      rw [mem_range] at hmem
      have hused := h.hint i (by omega) (by omega)
      simp [hused] at hfree
    · refine .inl ⟨rfl, fun i hi => ?_⟩
      by_cases hlow : i < p.nextFreeHint
      · exact h.hint i hlow hi
      · have hall := find?_eq_none.mp hnone i (mem_range'_1.mpr ⟨by omega, by omega⟩)
        simpa using hall

theorem pmmAllocPage_of_hint (hin : p.nextFreeHint < p.totalPages)
    (hfree : p.bitmap p.nextFreeHint = false) : pmmAllocPage p = p.take p.nextFreeHint := by
  have hlen : p.totalPages - p.nextFreeHint = (p.totalPages - p.nextFreeHint - 1) + 1 := by omega
  rw [pmmAllocPage, hlen, range'_succ, find?_cons_of_pos (by rw [hfree]; rfl)]

theorem PmmInv.take (h : PmmInv entries p) (hlow : Lowest p i) : PmmInv entries (p.take i).2 where
  __ := h
  counted := take_counted hlow.inside hlow.free h.counted
  hint j hj hlt := by
    change j < i + 1 at hj
    change update p.bitmap i true j = true
    by_cases heq : j = i
    · rw [heq, update_self]
    · rw [update_of_ne heq]
      exact hlow.below j (by omega)
  giveable j hj hfree := by
    change update p.bitmap i true j = false at hfree
    by_cases heq : j = i
    · rw [heq, update_self] at hfree
      cases hfree
    · rw [update_of_ne heq] at hfree
      exact h.giveable j hj hfree

/-- `pmm_free_page` does not take the address of a reserved page: one that is
page-aligned, behind the kernel's zone and tracked, and that is outside the
usable regions or holds the bitmap. -/
def FreesGiveable (entries : List MemmapEntry) (addr : Nat) : Prop :=
  addr % 4096 = 0 → pmmKernelZoneEnd ≤ addr → addr / 4096 < pagesNeeded entries →
    Giveable entries (addr / 4096)

theorem PmmInv.free (h : PmmInv entries p) (hok : FreesGiveable entries addr) :
    PmmInv entries (pmmFreePage p addr) := by
  unfold pmmFreePage
  split_ifs with hnull halign hrange hzone hused
  all_goals try exact h
  have haligned : addr % 4096 = 0 := by simpa using halign
  have hinside : addr / 4096 < p.bitmapPages := by omega
  have hframe : Frame p addr :=
    ⟨haligned, by omega, by rw [h.total]; exact hinside, hinside, by simpa using hused⟩
  refine ⟨h.pages, h.total, free_counted hframe h.counted, fun j hj hlt => ?_, fun j hj hfree => ?_⟩
  · have hj' : j < min p.nextFreeHint (addr / 4096) := hj
    change update p.bitmap (addr / 4096) false j = true
    rw [update_of_ne (by omega)]
    exact h.hint j (by omega) hlt
  · change update p.bitmap (addr / 4096) false j = false at hfree
    by_cases heq : j = addr / 4096
    · rw [heq]
      exact hok haligned (by omega) (by rw [← h.pages]; exact hinside)
    · rw [update_of_ne heq] at hfree
      exact h.giveable j hj hfree

end

/-! ### Runs -/

inductive PmmOp where
  | alloc
  | free (addr : Nat)
  deriving DecidableEq, Repr

def pmmExec (p : Phys) : PmmOp → Phys
  | .alloc => (pmmAllocPage p).2
  | .free addr => pmmFreePage p addr

structure PmmSound (entries : List MemmapEntry) (p : Phys) : Prop where
  counted : Counted p
  hint : ∀ i, i < p.nextFreeHint → i < p.totalPages → p.bitmap i = true
  given : ((pmmAllocPage p).1 = physNull ∧ ∀ i, i < p.totalPages → p.bitmap i = true) ∨
    ∃ i, (pmmAllocPage p).1 = i * 4096 ∧ Lowest p i ∧ Giveable entries i

theorem PmmInv.sound {entries : List MemmapEntry} {p : Phys} (h : PmmInv entries p) :
    PmmSound entries p := by
  refine {h with given := ?_}
  rcases h.alloc with ⟨hnone, hall⟩ | ⟨i, hlow, htake⟩
  · exact .inl ⟨by rw [hnone], hall⟩
  · exact .inr ⟨i, by rw [htake]; rfl, hlow, h.giveable i hlow.inside hlow.free⟩

/-- A step whose free, if it is one, does not carry the address of a reserved page. -/
def PmmStep (entries : List MemmapEntry) (p : Phys) (op : PmmOp) (p' : Phys) : Prop :=
  p' = pmmExec p op ∧ ∀ addr, op = .free addr → FreesGiveable entries addr

theorem PmmInv.step {entries : List MemmapEntry} {p p' : Phys} {op : PmmOp} (h : PmmInv entries p)
    (hstep : PmmStep entries p op p') : PmmInv entries p' := by
  obtain ⟨rfl, hok⟩ := hstep
  cases op with
  | alloc =>
    change PmmInv entries (pmmAllocPage p).2
    rcases h.alloc with ⟨hnone, -⟩ | ⟨i, hlow, htake⟩
    · rw [hnone]
      exact h
    · rw [htake]
      exact h.take hlow
  | free addr => exact h.free (hok addr rfl)

/-- Along every run of allocations and frees from `pmm_init_dynamic` that frees
no reserved page, the counter, the hint and the bitmap agree, and
`pmm_alloc_page` gives the lowest free page, which is a usable one. -/
theorem pmm_run_sound {entries : List MemmapEntry} {p₀ p p' : Phys} {ops : List PmmOp}
    (hmap : AlignedMap entries) (hinit : pmmInitDynamic p₀ entries = some p)
    (hrun : Run (PmmStep entries) p ops p') : PmmSound entries p' :=
  (hrun.invariant (fun _ _ _ h hstep => PmmInv.step h hstep) (pmmInitDynamic_inv hmap hinit)).sound

def smallMap : List MemmapEntry := [⟨0x4800000, 0x1000000, true⟩]

def rawPhys : Phys where
  mem _ _ := 0
  bitmap _ := false
  bitmapPages := 0
  totalPages := 0
  usedPages := 0
  nextFreeHint := 0
  currentPml4 := 0

def smallInit : Phys :=
  {rawPhys with
    bitmap := initialBitmap smallMap 0x4800000
    bitmapPages := 22528
    totalPages := 22528
    usedPages := (range 22528).countP (initialBitmap smallMap 0x4800000)
    nextFreeHint := kernelLockPages}

theorem smallMap_init : pmmInitDynamic rawPhys smallMap = some smallInit := rfl

theorem smallMap_frames : bitmapPhys smallMap = some 0x4800000 ∧
    bitmapFrames smallMap 0x4800000 = [18432] := by decide

theorem smallMap_bitmapPage : smallInit.bitmap 18432 = true := by
  change initialBitmap smallMap 0x4800000 18432 = true
  rw [initialBitmap, markPages_apply, smallMap_frames.2, if_pos (by decide)]

/-- Two pages are taken, one goes back, and a third allocation follows. -/
theorem pmm_run_sound_smallMap : ∃ p', Run (PmmStep smallMap) smallInit
      [.alloc, .alloc, .free 0x4802000, .alloc] p' ∧ PmmSound smallMap p' := by
  have hgive : Giveable smallMap 18434 := by
    refine ⟨⟨_, mem_singleton_self _, rfl, by decide, by decide⟩, by decide, fun phys hphys => ?_⟩
    rw [smallMap_frames.1] at hphys
    injection hphys with heq
    rw [← heq, smallMap_frames.2]
    decide
  have hrun : Run (PmmStep smallMap) smallInit [.alloc, .alloc, .free 0x4802000, .alloc]
      ([.alloc, .alloc, .free 0x4802000, .alloc].foldl pmmExec smallInit) := by
    refine Run.foldl (fun op hop p => ⟨rfl, fun addr h => ?_⟩) _
    subst h
    obtain rfl : addr = 0x4802000 := by simpa using hop
    exact fun _ _ _ => hgive
  exact ⟨_, hrun, pmm_run_sound (by decide) smallMap_init hrun⟩

/-- `pmm_free_page` takes the page of the bitmap itself, and the next allocation
gives it away. -/
theorem pmm_gives_bitmap_page : AlignedMap smallMap ∧
    pmmInitDynamic rawPhys smallMap = some smallInit ∧
    (pmmAllocPage (pmmFreePage smallInit 0x4800000)).1 = 18432 * 4096 ∧
    18432 ∈ bitmapFrames smallMap 0x4800000 ∧ bitmapPhys smallMap = some 0x4800000 := by
  refine ⟨by decide, smallMap_init, ?_, by rw [smallMap_frames.2]; decide, smallMap_frames.1⟩
  have hfree : pmmFreePage smallInit 0x4800000 = {smallInit with
        bitmap := update smallInit.bitmap 18432 false
        usedPages := smallInit.usedPages - 1
        nextFreeHint := 18432} := by
    have hused : ¬ smallInit.bitmap (0x4800000 / 4096) = false := by
      rw [smallMap_bitmapPage]
      decide
    rw [pmmFreePage, if_neg (by decide), if_neg (by decide), if_neg (by decide), if_neg (by decide),
      if_neg hused]
    rfl
  rw [hfree, pmmAllocPage_of_hint (by decide) (update_self 18432 false smallInit.bitmap)]
  rfl

end Kyuzen.Mm
