import Kyuzen.Bcache.Links

/-!
The invariant of the block cache, and what its internal steps do. A step that
the caller did not ask for (a write-back, an eviction, a move in the LRU list)
is `Quiet`: it changes no block of the abstract disk, leaves referenced
entries alone, and makes a dirty entry clean only when its data is on the
device.
-/

namespace Kyuzen.Bcache

open Function List

/-- The disk that the callers of the cache see: the data of the valid entry of
a block, and the device block where there is none. -/
def absDisk (c : Cache) (x : Nat) : Buf :=
  match (range nBlocks).find? fun i => (c.pool i).valid && (c.pool i).blockNum == x with
  | some i => (c.pool i).data
  | none => c.device x

/-- `pending` are the entries that were modified and not yet marked dirty. -/
structure Good (c : Cache) (pending lru : List Nat) (chains : Nat → List Nat) : Prop where
  links : Links c lru chains
  valid_iff : ∀ i, (c.pool i).valid = true ↔ i ∈ lru
  unique : ∀ i ∈ lru, ∀ j ∈ lru, (c.pool i).blockNum = (c.pool j).blockNum → i = j
  dirty : ∀ i, (c.pool i).dirty = true → i ∈ lru
  held : ∀ i, 0 < (c.pool i).refcount → i ∈ lru
  clean : ∀ i ∈ lru, (c.pool i).dirty = false → i ∉ pending →
    (c.pool i).data = c.device (c.pool i).blockNum
  pending_held : ∀ i ∈ pending, 0 < (c.pool i).refcount

def NoDirty (c : Cache) (x : Nat) : Prop :=
  ∀ i, (c.pool i).dirty = true → (c.pool i).blockNum ≠ x

structure Quiet (c c' : Cache) : Prop where
  abs : ∀ x, absDisk c' x = absDisk c x
  held : ∀ i, 0 < (c.pool i).refcount → 0 < (c'.pool i).refcount ∧
    (c'.pool i).valid = true ∧ (c'.pool i).blockNum = (c.pool i).blockNum
  clean : ∀ x, NoDirty c x → c'.device x = c.device x ∧ NoDirty c' x
  dirty : ∀ i, (c.pool i).dirty = true →
    ((c'.pool i).dirty = true ∧ (c'.pool i).blockNum = (c.pool i).blockNum ∧
      (c'.pool i).data = (c.pool i).data) ∨
    (c'.device (c.pool i).blockNum = (c.pool i).data ∧ NoDirty c' (c.pool i).blockNum)

theorem Quiet.trans {c c' c'' : Cache} (h : Quiet c c') (h' : Quiet c' c'') : Quiet c c'' where
  abs x := (h'.abs x).trans (h.abs x)
  held i hi := by
    obtain ⟨hi', -, hblock⟩ := h.held i hi
    obtain ⟨hi'', hvalid, hblock'⟩ := h'.held i hi'
    exact ⟨hi'', hvalid, hblock'.trans hblock⟩
  clean x hx := by
    obtain ⟨hdev, hx'⟩ := h.clean x hx
    obtain ⟨hdev', hx''⟩ := h'.clean x hx'
    exact ⟨hdev'.trans hdev, hx''⟩
  dirty i hi := by
    rcases h.dirty i hi with ⟨hi', hblock, hdata⟩ | ⟨hdev, hno⟩
    · rcases h'.dirty i hi' with ⟨hi'', hblock', hdata'⟩ | ⟨hdev', hno'⟩
      · exact .inl ⟨hi'', hblock'.trans hblock, hdata'.trans hdata⟩
      · rw [hblock, hdata] at hdev'
        rw [hblock] at hno'
        exact .inr ⟨hdev', hno'⟩
    · obtain ⟨hdev', hno'⟩ := h'.clean _ hno
      exact .inr ⟨hdev'.trans hdev, hno'⟩

variable {c c' : Cache} {pending lru lru' : List Nat} {chains chains' : Nat → List Nat}
  {b x : Nat} {o : Ata}

namespace Good

section
variable (h : Good c pending lru chains)
include h

theorem absDisk_entry (hb : b ∈ lru) : absDisk c (c.pool b).blockNum = (c.pool b).data := by
  unfold absDisk
  cases hfind : (range nBlocks).find? fun i =>
      (c.pool i).valid && (c.pool i).blockNum == (c.pool b).blockNum with
  | none =>
    have hno := find?_eq_none.mp hfind b (mem_range.mpr (h.links.bound b hb))
    simp [(h.valid_iff b).mpr hb] at hno
  | some i =>
    have hprop := find?_some hfind
    simp only [Bool.and_eq_true, beq_iff_eq] at hprop
    obtain rfl := h.unique i ((h.valid_iff i).mp hprop.1) b hb hprop.2
    rfl

theorem absDisk_device (hx : ∀ i ∈ lru, (c.pool i).blockNum ≠ x) : absDisk c x = c.device x := by
  unfold absDisk
  cases hfind : (range nBlocks).find? fun i =>
      (c.pool i).valid && (c.pool i).blockNum == x with
  | none => rfl
  | some i =>
    have hprop := find?_some hfind
    simp only [Bool.and_eq_true, beq_iff_eq] at hprop
    exact absurd hprop.2 (hx i ((h.valid_iff i).mp hprop.1))

theorem absDisk_cases (x : Nat) :
    (∃ i ∈ lru, (c.pool i).blockNum = x ∧ absDisk c x = (c.pool i).data) ∨
      (∀ i ∈ lru, (c.pool i).blockNum ≠ x) ∧ absDisk c x = c.device x := by
  by_cases hx : ∃ i ∈ lru, (c.pool i).blockNum = x
  · obtain ⟨i, hi, rfl⟩ := hx
    exact .inl ⟨i, hi, rfl, h.absDisk_entry hi⟩
  · push Not at hx
    exact .inr ⟨hx, h.absDisk_device hx⟩

theorem not_pending (hb : (c.pool b).refcount = 0) : b ∉ pending := by
  intro hmem
  have := h.pending_held b hmem
  omega

/-- When a change of the cache is quiet: entries that stay keep their block and
data, those that leave were clean and free of references, those that come show
their device block, and the device changes only under dirty entries. -/
theorem quiet {pending' : List Nat} (h' : Good c' pending' lru' chains')
    (hstay : ∀ i ∈ lru, i ∈ lru' → (c'.pool i).blockNum = (c.pool i).blockNum ∧
      (c'.pool i).data = (c.pool i).data ∧
      ((c'.pool i).dirty = true → (c.pool i).dirty = true) ∧
      (0 < (c.pool i).refcount → 0 < (c'.pool i).refcount))
    (hleave : ∀ i ∈ lru, i ∉ lru' → (c.pool i).dirty = false ∧ (c.pool i).refcount = 0)
    (hcome : ∀ i ∈ lru', i ∉ lru → (c'.pool i).dirty = false ∧
      (c'.pool i).data = c'.device (c'.pool i).blockNum)
    (hdevice : ∀ x, NoDirty c x → c'.device x = c.device x)
    (hdirty : ∀ i, (c.pool i).dirty = true →
      (c'.pool i).dirty = true ∨ c'.device (c.pool i).blockNum = (c.pool i).data) :
    Quiet c c' := by
  have hnodirty : ∀ x, NoDirty c x → NoDirty c' x := by
    intro x hx i hi
    have hi' := h'.dirty i hi
    by_cases hmem : i ∈ lru
    · rw [(hstay i hmem hi').1]
      exact hx i ((hstay i hmem hi').2.2.1 hi)
    · exact absurd hi (by simp [(hcome i hi' hmem).1])
  -- without an entry of its own in `lru`, a block shows its device block in `c'`
  have hshow : ∀ x, NoDirty c x → (∀ i ∈ lru, i ∈ lru' → (c.pool i).blockNum ≠ x) →
      absDisk c' x = c.device x := by
    intro x hx hno
    rw [← hdevice x hx]
    rcases h'.absDisk_cases x with ⟨i, hi, hblock, habs⟩ | ⟨-, habs⟩
    · by_cases hmem : i ∈ lru
      · exact absurd ((hstay i hmem hi).1.symm.trans hblock) (hno i hmem hi)
      · rw [habs, (hcome i hi hmem).2, hblock]
    · exact habs
  refine ⟨fun x => ?_, fun i hi => ?_, fun x hx => ⟨hdevice x hx, hnodirty x hx⟩,
    fun i hi => ?_⟩
  · rcases h.absDisk_cases x with ⟨i, hi, rfl, habs⟩ | ⟨hno, habs⟩
    · by_cases hi' : i ∈ lru'
      · obtain ⟨hblock, hdata, -⟩ := hstay i hi hi'
        rw [habs, ← hdata, ← hblock]
        exact h'.absDisk_entry hi'
      · obtain ⟨hclean, href⟩ := hleave i hi hi'
        rw [habs, h.clean i hi hclean (h.not_pending href)]
        refine hshow _ (fun j hj hblock => ?_) fun j hj hj' hblock => ?_
        · obtain rfl := h.unique j (h.dirty j hj) i hi hblock
          simp [hclean] at hj
        · obtain rfl := h.unique j hj i hi hblock
          exact hi' hj'
    · rw [habs]
      exact hshow x (fun i hi => hno i (h.dirty i hi)) fun i hi _ => hno i hi
  · have hmem := h.held i hi
    have hi' : i ∈ lru' := by
      by_contra hout
      have := (hleave i hmem hout).2
      omega
    obtain ⟨hblock, -, -, href⟩ := hstay i hmem hi'
    exact ⟨href hi, (h'.valid_iff i).mpr hi', hblock⟩
  · have hmem := h.dirty i hi
    have hi' : i ∈ lru' := by
      by_contra hout
      simp [(hleave i hmem hout).1] at hi
    obtain ⟨hblock, hdata, -⟩ := hstay i hmem hi'
    cases hkeep : (c'.pool i).dirty with
    | true => exact .inl ⟨rfl, hblock, hdata⟩
    | false =>
      have hdev := (hdirty i hi).resolve_left (by simp [hkeep])
      refine .inr ⟨hdev, fun j hj hblock' => ?_⟩
      obtain rfl := h'.unique j (h'.dirty j hj) i hi' (hblock'.trans hblock.symm)
      simp [hkeep] at hj

end

end Good

/-! ### Write-back -/

/-- A dirty entry after its write-back: it stays dirty when the transfer failed,
and its device block holds its data when the transfer succeeded. -/
theorem writeBack_eq (hb : (c.pool b).dirty = true) :
    ∃ stored, (o.ok c.transfers = true → stored = (c.pool b).data) ∧ writeBack o c b =
        (o.ok c.transfers, {c with
            pool := update c.pool b {c.pool b with dirty := !o.ok c.transfers}
            device := update c.device (c.pool b).blockNum stored
            transfers := c.transfers + 1}) := by
  cases hok : o.ok c.transfers with
  | true => exact ⟨(c.pool b).data, fun _ => rfl, by
      simp [writeBack, ataWriteBlock4k, hok, Cache.setBuffer]⟩
  | false =>
    refine ⟨o.junk c.transfers, by simp, ?_⟩
    have hsame : {c.pool b with dirty := !false} = c.pool b := by
      rw [Bool.not_false, ← hb]
    rw [hsame, update_eq_self]
    simp [writeBack, ataWriteBlock4k, hok]

structure Rewritten (c c' : Cache) : Prop where
  lru : c'.lruNext = c.lruNext ∧ c'.lruPrev = c.lruPrev ∧ c'.lruHead = c.lruHead ∧
    c'.lruTail = c.lruTail
  pool : ∀ i, (c'.pool i).blockNum = (c.pool i).blockNum ∧
    (c'.pool i).refcount = (c.pool i).refcount ∧ (c'.pool i).data = (c.pool i).data ∧
    (c'.pool i).valid = (c.pool i).valid

theorem Good.writeBack (h : Good c pending lru chains) (hb : (c.pool b).dirty = true) :
    Good (writeBack o c b).2 pending lru chains ∧ Quiet c (Bcache.writeBack o c b).2 ∧
      Rewritten c (Bcache.writeBack o c b).2 ∧
      ((Bcache.writeBack o c b).1 = true → ((Bcache.writeBack o c b).2.pool b).dirty = false) := by
  obtain ⟨stored, hstored, heq⟩ := writeBack_eq (o := o) hb
  rw [heq]
  generalize o.ok c.transfers = ok at hstored
  have hblru := h.dirty b hb
  set c' : Cache := {c with
    pool := update c.pool b {c.pool b with dirty := !ok}
    device := update c.device (c.pool b).blockNum stored
    transfers := c.transfers + 1} with hc'
  have hself : c'.pool b = {c.pool b with dirty := !ok} := update_self _ _ _
  have hother : ∀ i ≠ b, c'.pool i = c.pool i := fun i hi => update_of_ne hi _ _
  have hpool : ∀ i, (c'.pool i).blockNum = (c.pool i).blockNum ∧
      (c'.pool i).refcount = (c.pool i).refcount ∧ (c'.pool i).data = (c.pool i).data ∧
      (c'.pool i).valid = (c.pool i).valid := by
    intro i
    by_cases hib : i = b
    · subst hib
      rw [hself]
      exact ⟨rfl, rfl, rfl, rfl⟩
    · rw [hother i hib]
      exact ⟨rfl, rfl, rfl, rfl⟩
  have hdirty : ∀ i, (c'.pool i).dirty = true → (c.pool i).dirty = true := by
    intro i hi
    by_cases hib : i = b
    · rw [hib, hb]
    · rwa [hother i hib] at hi
  have hdevice : ∀ x ≠ (c.pool b).blockNum, c'.device x = c.device x :=
    fun x hx => update_of_ne hx _ _
  have hgood : Good c' pending lru chains := by
    refine ⟨h.links.congr ⟨rfl, rfl, rfl, rfl⟩ ⟨rfl, rfl⟩ fun i _ => (hpool i).1,
      ?_, ?_, ?_, ?_, ?_, ?_⟩
    · intro i
      rw [(hpool i).2.2.2]
      exact h.valid_iff i
    · intro i hi j hj
      rw [(hpool i).1, (hpool j).1]
      exact h.unique i hi j hj
    · exact fun i hi => h.dirty i (hdirty i hi)
    · intro i hi
      rw [(hpool i).2.1] at hi
      exact h.held i hi
    · intro i hi hclean hpend
      rw [(hpool i).1, (hpool i).2.2.1]
      by_cases hib : i = b
      · subst hib
        rw [hself] at hclean
        have hok : ok = true := by simpa using hclean
        rw [← hstored hok]
        symm
        exact update_self _ _ _
      · rw [hother i hib] at hclean
        rw [hdevice _ fun hblock => hib (h.unique i hi b hblru hblock)]
        exact h.clean i hi hclean hpend
    · intro i hi
      rw [(hpool i).2.1]
      exact h.pending_held i hi
  refine ⟨hgood, h.quiet hgood (fun i _ _ => ?_) (fun i hi hi' => absurd hi hi')
    (fun i hi hi' => absurd hi hi') (fun x hx => ?_) (fun i hi => ?_),
    ⟨⟨rfl, rfl, rfl, rfl⟩, hpool⟩, fun hok => ?_⟩
  · obtain ⟨hblock, href, hdata, -⟩ := hpool i
    exact ⟨hblock, hdata, hdirty i, fun hi => by rwa [href]⟩
  · exact hdevice x fun heq => hx b hb heq.symm
  · by_cases hib : i = b
    · subst hib
      cases ok with
      | false => exact .inl (by rw [hself]; rfl)
      | true =>
        rw [← hstored rfl]
        exact .inr (update_self _ _ _)
    · exact .inl (by rw [hother i hib, hi])
  · rw [hself]
    simpa using hok

/-! ### Eviction -/

/-- The entry `b` is free: unlisted, clean and without references. -/
structure Free (c : Cache) (lru : List Nat) (b : Nat) : Prop where
  unlisted : b ∉ lru
  lt : b < nBlocks
  dirty : (c.pool b).dirty = false
  refcount : (c.pool b).refcount = 0

/-- A change of a free entry that leaves it free is not seen. -/
theorem Good.setFree (h : Good c pending lru chains) (hb : Free c lru b)
    (hlru : Links c' lru' chains') (hmem : ∀ i, i ∈ lru' ↔ i ∈ lru)
    (hother : ∀ i ≠ b, c'.pool i = c.pool i) (hdevice : c'.device = c.device)
    (hvalid : (c'.pool b).valid = false) (hdirty : (c'.pool b).dirty = false)
    (href : (c'.pool b).refcount = 0) : Good c' pending lru' chains' ∧ Quiet c c' := by
  have hpool : ∀ i ∈ lru, c'.pool i = c.pool i := by
    intro i hi
    exact hother i fun heq => hb.unlisted (heq ▸ hi)
  have hgood : Good c' pending lru' chains' := by
    refine ⟨hlru, fun i => ?_, ?_, fun i hi => ?_, fun i hi => ?_, ?_, fun i hi => ?_⟩
    · by_cases hib : i = b
      · subst hib
        simp [hvalid, hmem, hb.unlisted]
      · rw [hother i hib, hmem]
        exact h.valid_iff i
    · intro i hi j hj
      rw [hpool i ((hmem i).mp hi), hpool j ((hmem j).mp hj)]
      exact h.unique i ((hmem i).mp hi) j ((hmem j).mp hj)
    · by_cases hib : i = b
      · simp [hib, hdirty] at hi
      · rw [hother i hib] at hi
        exact (hmem i).mpr (h.dirty i hi)
    · by_cases hib : i = b
      · simp [hib, href] at hi
      · rw [hother i hib] at hi
        exact (hmem i).mpr (h.held i hi)
    · intro i hi
      rw [hpool i ((hmem i).mp hi), hdevice]
      exact h.clean i ((hmem i).mp hi)
    · have hheld := h.pending_held i hi
      rwa [hpool i (h.held i hheld)]
  refine ⟨hgood, h.quiet hgood (fun i hi _ => ?_) (fun i hi hi' => ?_) (fun i hi hi' => ?_)
    (fun x _ => by rw [hdevice]) (fun i hi => ?_)⟩
  · rw [hpool i hi]
    exact ⟨rfl, rfl, id, id⟩
  · exact absurd ((hmem i).mpr hi) hi'
  · exact absurd ((hmem i).mp hi) hi'
  · exact .inl (by rw [hpool i (h.dirty i hi), hi])

theorem evict_pool (c : Cache) (b : Nat) :
    (evict c b).pool = update c.pool b {c.pool b with valid := false} ∧
      (evict c b).device = c.device := by
  obtain ⟨hp, hd, -⟩ := lruUnlink_frame (hashRemove c b) b
  obtain ⟨hp', hd', -⟩ := hashRemoveLoop_frame c b nBlocks (.table (bhash (c.pool b).blockNum))
  simp only [evict, Cache.setBuffer, hp, hd]
  rw [hashRemove, hp', hd']
  exact ⟨rfl, rfl⟩

theorem Good.evict (h : Good c pending lru chains) (hb : b ∈ lru)
    (hdirty : (c.pool b).dirty = false) (href : (c.pool b).refcount = 0) :
    ∃ lru' chains', Good (evict c b) pending lru' chains' ∧ Quiet c (Bcache.evict c b) ∧
      Free (Bcache.evict c b) lru' b ∧
      ∀ i ∈ lru', i ∈ lru ∧ ((Bcache.evict c b).pool i).blockNum = (c.pool i).blockNum := by
  obtain ⟨l₁, l₂, rfl⟩ := append_of_mem hb
  obtain ⟨hpool, hdevice⟩ := evict_pool c b
  have hself : (Bcache.evict c b).pool b = {c.pool b with valid := false} := by
    rw [hpool]
    exact update_self _ _ _
  have hother : ∀ i ≠ b, (Bcache.evict c b).pool i = c.pool i := by
    intro i hi
    rw [hpool]
    exact update_of_ne hi _ _
  have hoff : b ∉ l₁ ++ l₂ := (nodup_middle.mp h.links.listed.list.nodup).notMem
  have hsub : ∀ i, i ∈ l₁ ++ l₂ ↔ i ∈ l₁ ++ b :: l₂ ∧ i ≠ b :=
    fun i => mem_without_iff h.links.listed.list.nodup
  obtain ⟨hp, -, hlru⟩ := hashRemoveLoop_frame c b nBlocks (.table (bhash (c.pool b).blockNum))
  obtain ⟨chains', hlinks⟩ := h.links.takeOut hlru ⟨rfl, rfl⟩ fun i _ => by rw [hp]
  have hlinks' : Links (Bcache.evict c b) (l₁ ++ l₂) chains' :=
    hlinks.setBuffer fun hmem => absurd hmem hoff
  have hpoolin : ∀ i ∈ l₁ ++ l₂, (Bcache.evict c b).pool i = c.pool i :=
    fun i hi => hother i ((hsub i).mp hi).2
  have hgood : Good (Bcache.evict c b) pending (l₁ ++ l₂) chains' := by
    refine ⟨hlinks', fun i => ?_, fun i hi j hj => ?_, fun i hi => ?_, fun i hi => ?_,
      fun i hi => ?_, fun i hi => ?_⟩
    · by_cases hib : i = b
      · subst hib
        simp [hself, hoff]
      · rw [hother i hib, hsub, h.valid_iff]
        exact ⟨fun hi => ⟨hi, hib⟩, And.left⟩
    · rw [hpoolin i hi, hpoolin j hj]
      exact h.unique i ((hsub i).mp hi).1 j ((hsub j).mp hj).1
    · by_cases hib : i = b
      · simp [hib, hself, hdirty] at hi
      · rw [hother i hib] at hi
        exact (hsub i).mpr ⟨h.dirty i hi, hib⟩
    · by_cases hib : i = b
      · simp [hib, hself, href] at hi
      · rw [hother i hib] at hi
        exact (hsub i).mpr ⟨h.held i hi, hib⟩
    · rw [hpoolin i hi, hdevice]
      exact h.clean i ((hsub i).mp hi).1
    · have hheld := h.pending_held i hi
      rw [hother i fun heq => h.not_pending href (heq ▸ hi)]
      exact hheld
  refine ⟨l₁ ++ l₂, chains', hgood, ?_, ?_, fun i hi => ⟨((hsub i).mp hi).1, ?_⟩⟩
  · refine h.quiet hgood (fun i _ hi => ?_) (fun i hi hi' => ?_) (fun i hi hi' => ?_)
      (fun x _ => by rw [hdevice]) (fun i hi => ?_)
    · rw [hpoolin i hi]
      exact ⟨rfl, rfl, id, id⟩
    · obtain rfl : i = b := by
        by_contra hib
        exact hi' ((hsub i).mpr ⟨hi, hib⟩)
      exact ⟨hdirty, href⟩
    · exact absurd ((hsub i).mp hi).1 hi'
    · have hib : i ≠ b := by
        rintro rfl
        simp [hdirty] at hi
      exact .inl (by rw [hother i hib, hi])
  · exact ⟨hoff, h.links.bound b hb, by rw [hself]; exact hdirty, by rw [hself]; exact href⟩
  · rw [hpoolin i hi]

end Kyuzen.Bcache
