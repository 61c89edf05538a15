import Kyuzen.Mm.Space

/-!
The bits of page table entries, and what `pmm_alloc_page` and `pmm_free_page` do
to the frames. A frame that was handed out is given back whole by one call, and
the free frames are never those of the kernel.
-/

namespace Kyuzen.Mm

open Function List Nat

variable {d f fl i : Nat} {p p' : Phys}

/-! ### Entries -/

theorem pageMask_testBit (i : Nat) : pageMask.testBit i = (decide (12 ≤ i) && decide (i < 64)) := by
  have hmask : pageMask = (2 ^ 52 - 1) <<< 12 := by decide
  rw [hmask, testBit_shiftLeft, testBit_two_pow_sub_one]
  by_cases h : 12 ≤ i
  · simp only [ge_iff_le, h, decide_true, Bool.true_and, decide_eq_decide]
    omega
  · simp [h]

theorem testBit_aligned (hf : f % 4096 = 0) (hi : i < 12) : f.testBit i = false := by
  have hmul : f = f / 4096 * 2 ^ 12 := by omega
  rw [hmul, testBit_mul_two_pow]
  have : ¬ 12 ≤ i := by omega
  simp [this]

theorem testBit_wide (hf : f < 2 ^ 52) (hi : 52 ≤ i) : f.testBit i = false :=
  testBit_lt_two_pow (lt_of_lt_of_le hf (Nat.pow_le_pow_right (by decide) hi))

/-- The entry of a table gives the table back. -/
theorem tableEntry_mask (hf : f % 4096 = 0) (hw : f < 2 ^ 52) : (f ||| 7) &&& pageMask = f := by
  apply eq_of_testBit_eq
  intro i
  have h7 : (7 : Nat) = 2 ^ 3 - 1 := rfl
  rw [testBit_and, testBit_or, pageMask_testBit, h7, testBit_two_pow_sub_one]
  by_cases hlow : i < 12
  · rw [testBit_aligned hf hlow]
    have : ¬ 12 ≤ i := by omega
    simp [this]
  by_cases hhigh : i < 52
  · have h1 : 12 ≤ i := by omega
    have h2 : i < 64 := by omega
    have h3 : ¬ i < 3 := by omega
    simp [h1, h2, h3]
  · rw [testBit_wide hw (by omega)]
    have h3 : ¬ i < 3 := by omega
    simp [h3]

theorem tableEntry_present (f : Nat) : present (f ||| 7) = true := by
  rw [present, testBit_or]
  simp [testBit_zero]

theorem tableEntry_huge (hf : f % 4096 = 0) : huge (f ||| 7) = false := by
  rw [huge, testBit_or, testBit_aligned hf (by decide)]
  decide

theorem pteFlags_testBit (e i : Nat) :
    (pteFlags e).testBit i = (e.testBit i && (decide (i < 12) || decide (i = 63))) := by
  rw [pteFlags, pagingNx, testBit_or, testBit_and, testBit_and,
    testBit_two_pow_sub_one, testBit_two_pow, ← Bool.and_or_distrib_left]
  simp only [eq_comm]

theorem pteFrame_testBit (e i : Nat) :
    (pteFrame e).testBit i = (e.testBit i && (decide (12 ≤ i) && decide (i < 63))) := by
  rw [pteFrame, testBit_and, testBit_and, pageMask_testBit, testBit_two_pow_sub_one,
    Bool.and_assoc, Bool.and_assoc]
  by_cases h : i < 63
  · have h64 : i < 64 := by omega
    simp [h, h64]
  · simp [h]

section
variable (hd : d % 4096 = 0) (hw : d < 2 ^ 52) (hfl : pteFlags fl = fl)
include hd hw hfl

/-- The bits of a page's entry: address bits of the frame, other bits of the flags. -/
theorem leafEntry_testBit (i : Nat) : ((d &&& pageMask) ||| fl).testBit i =
      if 12 ≤ i ∧ i < 63 then d.testBit i else fl.testBit i := by
  have hflag := pteFlags_testBit fl i
  rw [hfl] at hflag
  rw [testBit_or, testBit_and, pageMask_testBit]
  by_cases h : 12 ≤ i ∧ i < 63
  · have h1 : ¬ i < 12 := by omega
    have h2 : ¬ i = 63 := by omega
    have h3 : i < 64 := by omega
    simp only [h1, h2, decide_false, Bool.or_self, Bool.and_false] at hflag
    simp [h, h3, hflag]
  · have hzero : d.testBit i = false := by
      by_cases hlow : i < 12
      · exact testBit_aligned hd hlow
      · exact testBit_wide hw (by omega)
    simp [h, hzero]

theorem pteFrame_leafEntry : pteFrame ((d &&& pageMask) ||| fl) = d := by
  apply eq_of_testBit_eq
  intro i
  rw [pteFrame_testBit, leafEntry_testBit hd hw hfl]
  by_cases h : 12 ≤ i ∧ i < 63
  · simp [h]
  have hzero : d.testBit i = false := by
    by_cases hlow : i < 12
    · exact testBit_aligned hd hlow
    · exact testBit_wide hw (by omega)
  rw [if_neg h, hzero]
  by_cases h12 : 12 ≤ i
  · have : ¬ i < 63 := fun h63 => h ⟨h12, h63⟩
    simp [this]
  · simp [h12]

theorem pteFlags_leafEntry : pteFlags ((d &&& pageMask) ||| fl) = fl := by
  apply eq_of_testBit_eq
  intro i
  have hflag := pteFlags_testBit fl i
  rw [hfl] at hflag
  rw [pteFlags_testBit, leafEntry_testBit hd hw hfl]
  by_cases h : 12 ≤ i ∧ i < 63
  · have h1 : ¬ i < 12 := by omega
    have h2 : ¬ i = 63 := by omega
    simp only [h1, h2, decide_false, Bool.or_self, Bool.and_false] at hflag ⊢
    exact hflag.symm
  · rw [if_neg h]
    exact hflag.symm

end

theorem pteFlags_pteFlags (e : Nat) : pteFlags (pteFlags e) = pteFlags e := by
  apply eq_of_testBit_eq
  intro i
  rw [pteFlags_testBit, pteFlags_testBit, Bool.and_assoc, Bool.and_self]

theorem present_leafEntry (hd : d % 4096 = 0) (hw : d < 2 ^ 52) (hfl : pteFlags fl = fl) :
    present ((d &&& pageMask) ||| fl) = present fl := by
  rw [present, leafEntry_testBit hd hw hfl, if_neg (by decide), present]

theorem present_pteFlags (e : Nat) : present (pteFlags e) = present e := by
  rw [present, pteFlags_testBit, present]
  simp

/-! ### Frames -/

structure Free (p : Phys) (f : Nat) : Prop where
  aligned : f % 4096 = 0
  inside : f / 4096 < p.totalPages
  unused : p.bitmap (f / 4096) = false

structure Frame (p : Phys) (f : Nat) : Prop where
  aligned : f % 4096 = 0
  zone : pmmKernelZoneEnd ≤ f
  inside : f / 4096 < p.totalPages
  covered : f / 4096 < p.bitmapPages
  used : p.bitmap (f / 4096) = true

/-- `used_pages` counts the used frames. -/
def Counted (p : Phys) : Prop :=
  p.usedPages = ((Finset.range p.totalPages).filter (fun i => p.bitmap i = true)).card

/-- The allocator after `pmm_init_dynamic`: the kernel's zone is never free, the
bitmap covers all pages, addresses fit in an entry, the kernel's own PML4 is not
free, and `used_pages` is right. -/
structure PmmWf (p : Phys) : Prop where
  zone : ∀ i, i < p.totalPages → i * 4096 < pmmKernelZoneEnd → p.bitmap i = true
  total : p.totalPages ≤ p.bitmapPages
  width : p.bitmapPages ≤ 2 ^ 40
  kernel : ¬ Free p p.currentPml4
  counted : Counted p

/-- The same memory size and the same kernel, and a count that stays right. -/
structure SameBounds (p p' : Phys) : Prop where
  bitmapPages : p'.bitmapPages = p.bitmapPages
  totalPages : p'.totalPages = p.totalPages
  currentPml4 : p'.currentPml4 = p.currentPml4
  counted : Counted p → Counted p'

theorem SameBounds.refl (p : Phys) : SameBounds p p := ⟨rfl, rfl, rfl, id⟩

theorem SameBounds.write {p p' : Phys} (h : SameBounds p p') (mem : Tables) :
    SameBounds p { p' with mem := mem } :=
  {h with}

theorem SameBounds.trans {a b c : Phys} (h : SameBounds a b) (h' : SameBounds b c) :
    SameBounds a c :=
  ⟨h'.1.trans h.1, h'.2.trans h.2, h'.3.trans h.3, fun hc => h'.4 (h.4 hc)⟩

theorem Free.ne_zero (hwf : PmmWf p) (hf : Free p f) : f ≠ 0 := by
  rintro rfl
  have hzero := hwf.zone 0 hf.inside (by decide)
  exact nomatch hf.unused.symm.trans hzero

theorem Free.zone (hwf : PmmWf p) (hf : Free p f) : pmmKernelZoneEnd ≤ f := by
  by_contra hlow
  have hused := hwf.zone (f / 4096) hf.inside (by omega)
  exact nomatch hf.unused.symm.trans hused

theorem Frame.not_free (hf : Frame p f) : ¬ Free p f := fun h => by
  have := hf.used
  exact nomatch h.unused.symm.trans this

theorem Frame.ne_null (hf : Frame p f) : f ≠ physNull := by
  have := hf.zone
  have hzone : (0 : Nat) < pmmKernelZoneEnd := by decide
  change f ≠ 0
  omega

theorem Frame.div_mul (hf : Frame p f) : f / 4096 * 4096 = f :=
  Nat.div_mul_cancel (dvd_of_mod_eq_zero hf.aligned)

theorem Frame.wide (hwf : PmmWf p) (hf : Frame p f) : f < 2 ^ 52 := by
  have h1 := hf.covered
  have h2 := hwf.width
  have h3 := hf.aligned
  omega

/-- More used frames and nothing else. -/
theorem Free.shrinks (hb : SameBounds p p') (hgrow : ∀ b, p.bitmap b = true → p'.bitmap b = true)
    (hf : Free p' f) : Free p f := by
  refine ⟨hf.aligned, hb.totalPages ▸ hf.inside, ?_⟩
  by_contra hused
  have := hgrow _ (by simpa using hused)
  exact nomatch hf.unused.symm.trans this

theorem Frame.grows (hb : SameBounds p p') (hused : p'.bitmap (f / 4096) = true) (hf : Frame p f) :
    Frame p' f :=
  ⟨hf.aligned, hf.zone, hb.totalPages ▸ hf.inside, hb.bitmapPages ▸ hf.covered, hused⟩

theorem PmmWf.grows (hwf : PmmWf p) (hb : SameBounds p p')
    (hgrow : ∀ b, p.bitmap b = true → p'.bitmap b = true) : PmmWf p' where
  zone i hi hlow := hgrow i (hwf.zone i (hb.totalPages ▸ hi) hlow)
  total := by
    rw [hb.totalPages, hb.bitmapPages]
    exact hwf.total
  width := by
    rw [hb.bitmapPages]
    exact hwf.width
  kernel h := by
    rw [hb.currentPml4] at h
    exact hwf.kernel (h.shrinks hb hgrow)
  counted := hb.counted hwf.counted

/-! ### The allocator -/

/-- `p'` is `p` with the free frame `f` taken. -/
structure Takes (p : Phys) (f : Nat) (p' : Phys) : Prop where
  free : Free p f
  bounds : SameBounds p p'
  mem : p'.mem = p.mem
  bitmap : p'.bitmap = update p.bitmap (f / 4096) true

theorem Takes.used_iff (h : Takes p f p') (b : Nat) :
    p'.bitmap b = true ↔ p.bitmap b = true ∨ b * 4096 = f := by
  have haligned := h.free.aligned
  rw [h.bitmap]
  by_cases hb : b = f / 4096
  · subst hb
    simp only [update_self, true_iff]
    right
    omega
  · rw [update_of_ne hb]
    constructor
    · exact .inl
    · rintro (hused | heq)
      · exact hused
      · omega

theorem Takes.grows (h : Takes p f p') (b : Nat) (hb : p.bitmap b = true) : p'.bitmap b = true :=
  (h.used_iff b).mpr (Or.inl hb)

theorem Takes.frame (hwf : PmmWf p) (h : Takes p f p') : Frame p' f where
  aligned := h.free.aligned
  zone := h.free.zone hwf
  inside := by
    rw [h.bounds.totalPages]
    exact h.free.inside
  covered := by
    rw [h.bounds.bitmapPages]
    exact lt_of_lt_of_le h.free.inside hwf.total
  used := by
    rw [h.bitmap, update_self]

theorem take_counted (hi : i < p.totalPages) (hfree : p.bitmap i = false) (h : Counted p) :
    Counted (p.take i).2 := by
  have hnew : i ∉ (Finset.range p.totalPages).filter (fun j => p.bitmap j = true) := by
    simp [hfree]
  have hset : (Finset.range p.totalPages).filter (fun j => update p.bitmap i true j = true)
      = insert i ((Finset.range p.totalPages).filter (fun j => p.bitmap j = true)) := by
    ext j
    by_cases hj : j = i
    · subst hj
      simp [hi]
    · simp [hj]
  change p.usedPages + 1 = _
  rw [h]
  change _ = ((Finset.range p.totalPages).filter
    (fun j => update p.bitmap i true j = true)).card
  rw [hset, Finset.card_insert_of_notMem hnew]

theorem take_takes (hi : i < p.totalPages) (hfree : p.bitmap i = false) :
    Takes p (i * 4096) (p.take i).2 := by
  have hdiv : i * 4096 / 4096 = i := Nat.mul_div_cancel i (by decide)
  refine ⟨⟨mul_mod_left _ _, by rw [hdiv]; exact hi, by rw [hdiv]; exact hfree⟩,
    ⟨rfl, rfl, rfl, take_counted hi hfree⟩, rfl, ?_⟩
  rw [hdiv]
  rfl

theorem pmmAllocPage_spec (hwf : PmmWf p) : pmmAllocPage p = (0, p) ∨
      ∃ f p', f ≠ 0 ∧ pmmAllocPage p = (f, p') ∧ Takes p f p' := by
  have htake : ∀ i < p.totalPages, p.bitmap i = false →
      ∃ f p', f ≠ 0 ∧ p.take i = (f, p') ∧ Takes p f p' := fun i hi hfree =>
    ⟨_, _, (take_takes hi hfree).free.ne_zero hwf, rfl, take_takes hi hfree⟩
  rw [pmmAllocPage]
  split
  next i hfound =>
    right
    have hmem := mem_of_find?_eq_some hfound
    have hfree := find?_some hfound
    rw [mem_range'_1] at hmem
    exact htake i (by omega) (by simpa using hfree)
  · split
    next i hfound =>
      right
      have hmem := mem_of_find?_eq_some hfound
      have hfree := find?_some hfound
      rw [List.mem_range] at hmem
      exact htake i (by omega) (by simpa using hfree)
    · exact .inl rfl

theorem free_counted (hf : Frame p f) (h : Counted p) :
    Counted { p with bitmap := update p.bitmap (f / 4096) false
                     usedPages := p.usedPages - 1
                     nextFreeHint := min p.nextFreeHint (f / 4096) } := by
  have hin : f / 4096 ∈ (Finset.range p.totalPages).filter (fun j => p.bitmap j = true) := by
    simp [hf.inside, hf.used]
  have hset : (Finset.range p.totalPages).filter
        (fun j => update p.bitmap (f / 4096) false j = true)
      = ((Finset.range p.totalPages).filter (fun j => p.bitmap j = true)).erase (f / 4096) := by
    ext j
    by_cases hj : j = f / 4096
    · subst hj
      simp
    · simp [hj]
  change p.usedPages - 1 = ((Finset.range p.totalPages).filter
    (fun j => update p.bitmap (f / 4096) false j = true)).card
  rw [hset, Finset.card_erase_of_mem hin, h]

theorem pmmFreePage_frame (hf : Frame p f) :
    (pmmFreePage p f).mem = p.mem ∧ SameBounds p (pmmFreePage p f) ∧
      (pmmFreePage p f).bitmap = update p.bitmap (f / 4096) false := by
  have h1 : ¬ f % 4096 ≠ 0 := by simpa using hf.aligned
  have h2 : ¬ f / 4096 ≥ p.bitmapPages := not_le.mpr hf.covered
  have h3 : ¬ f < pmmKernelZoneEnd := not_lt.mpr hf.zone
  have h4 : ¬ p.bitmap (f / 4096) = false := by simp [hf.used]
  rw [pmmFreePage, if_neg hf.ne_null, if_neg h1, if_neg h2, if_neg h3, if_neg h4]
  exact ⟨rfl, ⟨rfl, rfl, rfl, free_counted hf⟩, rfl⟩

theorem freeOwned_frame (hf : Frame p f) : freeOwned p f = pmmFreePage p f := by
  have h0 : ¬ (f = physNull ∨ f % 4096 ≠ 0) := fun h =>
    h.elim hf.ne_null fun hne => hne hf.aligned
  have howns : pmmOwnsPage p f = true := by
    rw [pmmOwnsPage, if_neg h0, if_neg (not_le.mpr hf.covered), hf.used]
  rw [freeOwned, if_pos howns]

theorem freed_iff (haligned : f % 4096 = 0)
    (h : p'.bitmap = update p.bitmap (f / 4096) false) (b : Nat) :
    p'.bitmap b = true ↔ p.bitmap b = true ∧ b * 4096 ≠ f := by
  rw [h]
  by_cases hb : b = f / 4096
  · subst hb
    simp only [update_self, Bool.false_eq_true, false_iff, not_and, not_not]
    omega
  · rw [update_of_ne hb]
    constructor
    · exact fun hused => ⟨hused, by omega⟩
    · exact And.left

end Kyuzen.Mm
