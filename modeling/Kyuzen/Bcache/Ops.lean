import Kyuzen.Bcache.Inv

/-!
What each operation of the block cache does, over the invariant: the internal
ones are quiet, and the ones that the caller asks for change the abstract disk
in one block.
-/

namespace Kyuzen.Bcache

open Function List Cache

variable {c₁ : Cache} {c c' c'' : Cache} {pending pending' lru lru' : List Nat}
  {chains chains' : Nat → List Nat} {b block fuel : Nat} {p : Option Nat} {o : Ata}

theorem Good.quiet_refl (h : Good c pending lru chains) : Quiet c c :=
  h.quiet h (fun _ _ _ => ⟨rfl, rfl, id, id⟩) (fun _ hi hi' => absurd hi hi')
    (fun _ hi hi' => absurd hi hi') (fun _ _ => rfl) (fun _ hi => .inl hi)

/-! ### Allocation -/

/-- The result of a search for a free entry: the cache lost entries at most, and
the entry that was found is free. -/
def Allocated (c : Cache) (pending lru : List Nat) (r : Option Nat × Cache) : Prop :=
  ∃ lru' chains', Good r.2 pending lru' chains' ∧ Quiet c r.2 ∧
    (∀ i ∈ lru', i ∈ lru ∧ (r.2.pool i).blockNum = (c.pool i).blockNum) ∧
    ∀ b, r.1 = some b → Free r.2 lru' b

section
variable (h : Good c pending lru chains)
include h

/-- The walk is along `lruPrev`, over entries of the list that it has not
changed yet. -/
theorem evictLoop_spec {l : List Nat} (hchain : Chain c.lruPrev p l) (hsub : ∀ i ∈ l, i ∈ lru) :
    Allocated c pending lru (evictLoop o fuel p c) := by
  induction fuel generalizing c p l with
  | zero => exact ⟨lru, chains, h, h.quiet_refl, fun i hi => ⟨hi, rfl⟩, nofun⟩
  | succ fuel ih =>
    cases l with
    | nil =>
      obtain rfl : p = none := hchain
      exact ⟨lru, chains, h, h.quiet_refl, fun i hi => ⟨hi, rfl⟩, nofun⟩
    | cons b rest =>
      obtain ⟨rfl, hrest⟩ := hchain
      have hb : b ∈ lru := hsub b (.head _)
      have hsub' : ∀ i ∈ rest, i ∈ lru := fun i hi => hsub i (.tail _ hi)
      unfold evictLoop
      split
      · exact ih h hrest hsub'
      rename_i href
      split
      next hdirty =>
        obtain ⟨hgood, hquiet, hsame, hclean⟩ := h.writeBack (o := o) hdirty
        dsimp only
        split
        next hok =>
          obtain ⟨lru', chains', hgood', hquiet', hfree, hless⟩ :=
            hgood.evict hb (hclean hok) (by rw [(hsame.pool b).2.1]; omega)
          refine ⟨lru', chains', hgood', hquiet.trans hquiet', fun i hi => ?_, ?_⟩
          · exact ⟨(hless i hi).1, (hless i hi).2.trans (hsame.pool i).1⟩
          · rintro _ ⟨⟩
            exact hfree
        · rw [hsame.lru.2.1]
          obtain ⟨lru', chains', hgood', hquiet', hless, hfree⟩ :=
            ih hgood (hrest.congr fun y _ => by rw [hsame.lru.2.1]) hsub'
          refine ⟨lru', chains', hgood', hquiet.trans hquiet', fun i hi => ?_, hfree⟩
          exact ⟨(hless i hi).1, (hless i hi).2.trans (hsame.pool i).1⟩
      next hdirty =>
        obtain ⟨lru', chains', hgood', hquiet', hfree, hless⟩ :=
          h.evict hb (by simpa using hdirty) (by omega)
        refine ⟨lru', chains', hgood', hquiet', hless, ?_⟩
        rintro _ ⟨⟩
        exact hfree

theorem freeSlot_spec (hslot : freeSlot c = some b) : Free c lru b := by
  have hlt := mem_range.mp (mem_of_find?_eq_some hslot)
  have hprop := find?_some hslot
  simp only [Bool.and_eq_true, Bool.not_eq_true', beq_iff_eq] at hprop
  obtain ⟨⟨hvalid, hdirty⟩, href⟩ := hprop
  refine ⟨fun hmem => ?_, hlt, hdirty, href⟩
  simp [(h.valid_iff b).mpr hmem] at hvalid

theorem allocEntryLocked_spec : Allocated c pending lru (allocEntryLocked o c) := by
  unfold allocEntryLocked
  cases hslot : freeSlot c with
  | some i =>
    refine ⟨lru, chains, h, h.quiet_refl, fun j hj => ⟨hj, rfl⟩, ?_⟩
    rintro _ ⟨⟩
    exact freeSlot_spec h hslot
  | none =>
    exact evictLoop_spec h h.links.listed.list.bwd fun i hi => mem_reverse.mp hi

end

/-! ### Changes of one entry -/

/-- A step after which the abstract disk is `A`: referenced entries stay, and a
dirty entry stays dirty or has its data on the device. -/
structure Sound (A : Nat → Buf) (c c' : Cache) : Prop where
  abs : absDisk c' = A
  held : ∀ i, 0 < (c.pool i).refcount →
    (c'.pool i).valid = true ∧ (c'.pool i).blockNum = (c.pool i).blockNum
  device : ∀ x, NoDirty c x → c'.device x = c.device x
  dirty : ∀ i, (c.pool i).dirty = true →
    ((c'.pool i).dirty = true ∧ (c'.pool i).blockNum = (c.pool i).blockNum) ∨
    c'.device (c.pool i).blockNum = (c.pool i).data

theorem Quiet.sound (h : Quiet c c') : Sound (absDisk c) c c' where
  abs := funext h.abs
  held i hi := (h.held i hi).2
  device x hx := (h.clean x hx).1
  dirty i hi := by
    rcases h.dirty i hi with ⟨hi', hblock, -⟩ | ⟨hdev, -⟩
    · exact .inl ⟨hi', hblock⟩
    · exact .inr hdev

theorem Quiet.trans_sound {A : Nat → Buf} (h : Quiet c c') (h' : Sound A c' c'') :
    Sound A c c'' where
  abs := h'.abs
  held i hi := by
    obtain ⟨hi', -, hblock⟩ := h.held i hi
    obtain ⟨hvalid, hblock'⟩ := h'.held i hi'
    exact ⟨hvalid, hblock'.trans hblock⟩
  device x hx := by
    obtain ⟨hdev, hx'⟩ := h.clean x hx
    exact (h'.device x hx').trans hdev
  dirty i hi := by
    rcases h.dirty i hi with ⟨hi', hblock, hdata⟩ | ⟨hdev, hno⟩
    · rcases h'.dirty i hi' with ⟨hi'', hblock'⟩ | hdev'
      · exact .inl ⟨hi'', hblock'.trans hblock⟩
      · rw [hblock, hdata] at hdev'
        exact .inr hdev'
    · exact .inr ((h'.device _ hno).trans hdev)

/-- The abstract disk after the buffer of `b` changed: block `b` shows its data
and every other block what it showed before. -/
theorem absDisk_update (h : Good c pending lru chains) (h' : Good c' pending' lru' chains')
    (hb : b ∈ lru') (hmem : ∀ i ≠ b, i ∈ lru' ↔ i ∈ lru)
    (hother : ∀ i ≠ b, c'.pool i = c.pool i) (hdevice : c'.device = c.device)
    (hold : b ∈ lru → (c.pool b).blockNum = (c'.pool b).blockNum) :
    absDisk c' =
      update (absDisk c) (c'.pool b).blockNum (c'.pool b).data := by
  funext x
  by_cases hx : x = (c'.pool b).blockNum
  · subst hx
    rw [update_self]
    exact h'.absDisk_entry hb
  rw [update_of_ne hx]
  have hne : ∀ i ∈ lru, (c.pool i).blockNum = x → i ≠ b := by
    rintro i hi hblock rfl
    exact hx (hblock.symm.trans (hold hi))
  rcases h.absDisk_cases x with ⟨i, hi, rfl, habs⟩ | ⟨hno, habs⟩
  · have hib := hne i hi rfl
    have hentry := h'.absDisk_entry ((hmem i hib).mpr hi)
    rw [hother i hib] at hentry
    rw [habs, hentry]
  · rw [habs, ← hdevice]
    refine h'.absDisk_device fun i hi hblock => ?_
    by_cases hib : i = b
    · exact hx (by rw [← hib, hblock])
    · rw [hother i hib] at hblock
      exact hno i ((hmem i hib).mp hi) hblock

/-- A listed entry whose block stays gets a new buffer. Its new state has to be
that of a dirty, of a pending or of a clean entry. -/
theorem Good.setListed {buffer : Buffer} (h : Good c pending lru chains) (hb : b ∈ lru)
    (hlinks : Links c' lru' chains') (hmem : ∀ i, i ∈ lru' ↔ i ∈ lru)
    (hpool : c'.pool = update c.pool b buffer) (hdevice : c'.device = c.device)
    (hvalid : buffer.valid = true) (hblock : buffer.blockNum = (c.pool b).blockNum)
    (hdirty : (c.pool b).dirty = true → buffer.dirty = true)
    (hclean : buffer.dirty = false → b ∉ pending' → buffer.data = c.device (c.pool b).blockNum)
    (hpend : ∀ i ≠ b, i ∈ pending' ↔ i ∈ pending) (hheld : b ∈ pending' → 0 < buffer.refcount) :
    Good c' pending' lru' chains' ∧
      Sound (update (absDisk c) (c.pool b).blockNum buffer.data) c c' := by
  have hself : c'.pool b = buffer := by
    rw [hpool]
    exact update_self _ _ _
  have hother : ∀ i ≠ b, c'.pool i = c.pool i := by
    intro i hi
    rw [hpool]
    exact update_of_ne hi _ _
  have hblocks : ∀ i, (c'.pool i).blockNum = (c.pool i).blockNum := by
    intro i
    by_cases hib : i = b
    · rw [hib, hself, hblock]
    · rw [hother i hib]
  have hgood : Good c' pending' lru' chains' := by
    refine ⟨hlinks, fun i => ?_, fun i hi j hj => ?_, fun i hi => ?_, fun i hi => ?_,
      fun i hi hi' hi'' => ?_, fun i hi => ?_⟩
    · rw [hmem]
      by_cases hib : i = b
      · subst hib
        simp [hself, hvalid, hb]
      · rw [hother i hib]
        exact h.valid_iff i
    · rw [hblocks, hblocks]
      exact h.unique i ((hmem i).mp hi) j ((hmem j).mp hj)
    · rw [hmem]
      by_cases hib : i = b
      · rwa [hib]
      · rw [hother i hib] at hi
        exact h.dirty i hi
    · rw [hmem]
      by_cases hib : i = b
      · rwa [hib]
      · rw [hother i hib] at hi
        exact h.held i hi
    · rw [hblocks, hdevice]
      by_cases hib : i = b
      · subst hib
        rw [hself] at hi' ⊢
        exact hclean hi' hi''
      · rw [hother i hib] at hi' ⊢
        exact h.clean i ((hmem i).mp hi) hi' fun hp => hi'' ((hpend i hib).mpr hp)
    · by_cases hib : i = b
      · subst hib
        rw [hself]
        exact hheld hi
      · rw [hother i hib]
        exact h.pending_held i ((hpend i hib).mp hi)
  refine ⟨hgood, ?_, fun i hi => ?_, fun x _ => by rw [hdevice], fun i hi => .inl ?_⟩
  · rw [absDisk_update h hgood ((hmem b).mpr hb) (fun i _ => hmem i) hother hdevice
      fun _ => (hblocks b).symm, hblocks b, hself]
  · exact ⟨(hgood.valid_iff i).mpr ((hmem i).mpr (h.held i hi)), hblocks i⟩
  refine ⟨?_, hblocks i⟩
  by_cases hib : i = b
  · subst hib
    rw [hself]
    exact hdirty hi
  · rw [hother i hib, hi]

/-- A free entry becomes the entry of a block that has none. It is pending, or
it holds the device block. -/
theorem Good.claim {data : Buf} (h : Good c pending lru chains) (hb : Free c lru b)
    (hno : ∀ i ∈ lru, (c.pool i).blockNum ≠ block) (hlinks : Links c' (b :: lru) chains')
    (hpool : c'.pool = update c.pool b ⟨block, 1, false, true, data⟩)
    (hdevice : c'.device = c.device) (hpend : ∀ i ≠ b, i ∈ pending' ↔ i ∈ pending)
    (hclean : b ∉ pending' → data = c.device block) :
    Good c' pending' (b :: lru) chains' ∧
      Sound (update (absDisk c) block data) c c' := by
  have hself : c'.pool b = ⟨block, 1, false, true, data⟩ := by
    rw [hpool]
    exact update_self _ _ _
  have hother : ∀ i ≠ b, c'.pool i = c.pool i := by
    intro i hi
    rw [hpool]
    exact update_of_ne hi _ _
  have hin : ∀ i ∈ lru, i ≠ b := fun i hi heq => hb.unlisted (heq ▸ hi)
  have hgood : Good c' pending' (b :: lru) chains' := by
    refine ⟨hlinks, fun i => ?_, fun i hi j hj => ?_, fun i hi => ?_, fun i hi => ?_,
      fun i hi hi' hi'' => ?_, fun i hi => ?_⟩
    · by_cases hib : i = b
      · subst hib
        simp [hself]
      · rw [hother i hib, h.valid_iff, mem_cons]
        exact ⟨.inr, fun hor => hor.resolve_left hib⟩
    · rcases mem_cons.mp hi with hib | hi' <;> rcases mem_cons.mp hj with hjb | hj'
      · exact fun _ => hib.trans hjb.symm
      · rw [hib, hself, hother j (hin j hj')]
        exact fun heq => absurd heq.symm (hno j hj')
      · rw [hjb, hself, hother i (hin i hi')]
        exact fun heq => absurd heq (hno i hi')
      · rw [hother i (hin i hi'), hother j (hin j hj')]
        exact h.unique i hi' j hj'
    · by_cases hib : i = b
      · simp [hib]
      · rw [hother i hib] at hi
        exact .tail _ (h.dirty i hi)
    · by_cases hib : i = b
      · simp [hib]
      · rw [hother i hib] at hi
        exact .tail _ (h.held i hi)
    · rw [hdevice]
      by_cases hib : i = b
      · subst hib
        rw [hself]
        exact hclean hi''
      · rw [hother i hib] at hi' ⊢
        exact h.clean i ((mem_cons.mp hi).resolve_left hib) hi'
          fun hp => hi'' ((hpend i hib).mpr hp)
    · by_cases hib : i = b
      · subst hib
        simp [hself]
      · rw [hother i hib]
        exact h.pending_held i ((hpend i hib).mp hi)
  refine ⟨hgood, ?_, fun i hi => ?_, fun x _ => by rw [hdevice], fun i hi => .inl ?_⟩
  · have hmem : ∀ i ≠ b, i ∈ b :: lru ↔ i ∈ lru := by
      intro i hib
      rw [mem_cons]
      exact ⟨fun hor => hor.resolve_left hib, .inr⟩
    rw [absDisk_update h hgood (.head _) hmem hother hdevice
      (fun hmem => absurd hmem hb.unlisted), hself]
  · have hmem := h.held i hi
    rw [hother i (hin i hmem)]
    exact ⟨(h.valid_iff i).mpr hmem, rfl⟩
  · rw [hother i (hin i (h.dirty i hi))]
    exact ⟨hi, rfl⟩

/-! ### The operations -/

theorem hit_frame (c : Cache) (b : Nat) : (hit c b).pool =
        update c.pool b {c.pool b with refcount := ((c.pool b).refcount + 1) % 2 ^ 32} ∧
      (hit c b).device = c.device := by
  obtain ⟨hp, hd, -⟩ := lruTouch_frame
    (c.setBuffer b {c.pool b with refcount := ((c.pool b).refcount + 1) % 2 ^ 32}) b
  exact ⟨hp, hd⟩

theorem hit_links (h : Links c lru chains) (hb : b ∈ lru) :
    ∃ lru', lru'.Perm lru ∧ Links (hit c b) lru' chains := by
  have hset : Links (c.setBuffer b
      {c.pool b with refcount := ((c.pool b).refcount + 1) % 2 ^ 32}) lru chains :=
    h.setBuffer fun _ => rfl
  obtain ⟨lru', hperm, hlinks⟩ := hset.touch hb
  exact ⟨lru', hperm, hlinks.congr ⟨rfl, rfl, rfl, rfl⟩ ⟨rfl, rfl⟩ fun _ _ => rfl⟩

theorem hit_spec {data : Buf} (h : Good c pending lru chains) (hb : b ∈ lru)
    (href : (c.pool b).refcount + 1 < 2 ^ 32) (hpend : ∀ i ≠ b, i ∈ pending' ↔ i ∈ pending)
    (hdata : b ∉ pending' → b ∉ pending ∧ data = (c.pool b).data) :
    ∃ lru', Good ((hit c b).setBuffer b {(hit c b).pool b with data := data}) pending' lru' chains ∧
      Sound (update (absDisk c) (c.pool b).blockNum data) c
        ((hit c b).setBuffer b {(hit c b).pool b with data := data}) := by
  obtain ⟨lru', hperm, hlinks⟩ := hit_links h.links hb
  obtain ⟨hpool, hdevice⟩ := hit_frame c b
  have hself : (hit c b).pool b =
      {c.pool b with refcount := ((c.pool b).refcount + 1) % 2 ^ 32} := by
    rw [hpool]
    exact update_self _ _ _
  refine ⟨lru', ?_⟩
  refine @Good.setListed c _ pending pending' lru lru' chains chains b
    {c.pool b with refcount := ((c.pool b).refcount + 1) % 2 ^ 32, data := data} h hb
    (hlinks.setBuffer fun _ => rfl) (fun i => hperm.mem_iff) ?_ hdevice
    ((h.valid_iff b).mpr hb) rfl id (fun hclean hnot => ?_) hpend (fun _ => ?_)
  · rw [setBuffer, hself, hpool, update_idem]
  · obtain ⟨hnot', rfl⟩ := hdata hnot
    exact h.clean b hb hclean hnot'
  · dsimp only
    rw [Nat.mod_eq_of_lt href]
    omega

/-- A miss: the counter goes up and an entry is searched for. No entry of the
block appears meanwhile. -/
theorem miss_spec (h : Good c pending lru chains) (hfind : hashFind c block = none)
    {r : Option Nat × Cache}
    (hr : allocEntryLocked o {c with statMiss := c.statMiss + 1} = r) :
    ∃ lru' chains', Good r.2 pending lru' chains' ∧ Quiet c r.2 ∧
      (∀ i ∈ lru', (r.2.pool i).blockNum ≠ block) ∧ ∀ b, r.1 = some b → Free r.2 lru' b := by
  subst hr
  have hmiss : Good {c with statMiss := c.statMiss + 1} pending lru chains :=
    {h with links := h.links.congr ⟨rfl, rfl, rfl, rfl⟩ ⟨rfl, rfl⟩ fun _ _ => rfl}
  obtain ⟨lru', chains', hgood, hquiet, hless, hfree⟩ := allocEntryLocked_spec (o := o) hmiss
  refine ⟨lru', chains', hgood, {hquiet with},
    fun i hi => ?_, hfree⟩
  obtain ⟨hmem, hblock⟩ := hless i hi
  rw [hblock]
  exact h.links.hashFind_none hfind i hmem ((h.valid_iff i).mpr hmem)

theorem claimEntry_links {valid : Bool} (h : Links c lru chains) (hb : Free c lru b) :
    (∃ chains', Links (claimEntry c b block valid) (b :: lru) chains') ∧
      (claimEntry c b block valid).pool =
        update c.pool b ⟨block, 1, false, valid, (c.pool b).data⟩ ∧
      (claimEntry c b block valid).device = c.device := by
  set c₁ := c.setBuffer b ⟨block, 1, false, valid, (c.pool b).data⟩
  obtain ⟨hp, hd, -⟩ := lruPushFront_frame (hashInsert c₁ b) b
  have hset : Links c₁ lru chains := h.setBuffer fun hmem => absurd hmem hb.unlisted
  exact ⟨hset.putIn hb.unlisted hb.lt, hp, hd⟩

/-- `bcache_get` and the overwrite that its contract asks for. -/
def getOverwrite (o : Ata) (c : Cache) (block : Nat) (data : Buf) : Option Nat × Cache :=
  match bcacheGet o c block with
  | (none, c₁) => (none, c₁)
  | (some b, c₁) => (some b, c₁.setBuffer b {c₁.pool b with data := data})

theorem getOverwrite_spec {data : Buf} (h : Good c pending lru chains)
    (href : ∀ b, hashFind c block = some b → (c.pool b).refcount + 1 < 2 ^ 32) :
    match getOverwrite o c block data with
    | (none, c') => ∃ lru' chains', Good c' pending lru' chains' ∧ Sound (absDisk c) c c'
    | (some b, c') => (∃ lru' chains', Good c' (b :: pending) lru' chains') ∧
        (c'.pool b).blockNum = block ∧ Sound (update (absDisk c) block data) c c' := by
  have hpend : ∀ b, ∀ i ≠ b, i ∈ b :: pending ↔ i ∈ pending := by
    intro b i hib
    rw [mem_cons]
    exact ⟨fun hor => hor.resolve_left hib, .inr⟩
  unfold getOverwrite bcacheGet
  cases hfind : hashFind c block with
  | some b =>
    obtain ⟨hb, -, hblock⟩ := h.links.hashFind_some hfind
    obtain ⟨lru', hgood, hsound⟩ := @hit_spec c pending (b :: pending) lru chains b data h hb
      (href b hfind) (hpend b) (fun hnot => absurd (.head _) hnot)
    refine ⟨⟨lru', chains, hgood⟩, ?_, ?_⟩
    · obtain ⟨hpool, -⟩ := hit_frame c b
      simp [setBuffer, hpool, hblock]
    · rw [← hblock]
      exact hsound
  | none =>
    cases halloc : allocEntryLocked o {c with statMiss := c.statMiss + 1} with
    | mk found c₁ =>
      obtain ⟨lru', chains', hgood, hquiet, hno, hfree⟩ := miss_spec h hfind halloc
      cases found with
      | none => exact ⟨lru', chains', hgood, hquiet.sound⟩
      | some b =>
        have hb := hfree b rfl
        obtain ⟨⟨chains'', hlinks⟩, hpool, hdevice⟩ :=
          @claimEntry_links c₁ lru' chains' b block true hgood.links hb
        have hself : (claimEntry c₁ b block true).pool b =
            ⟨block, 1, false, true, (c₁.pool b).data⟩ := by
          rw [hpool]
          exact update_self _ _ _
        obtain ⟨hgood', hsound⟩ := @Good.claim c₁
          ((claimEntry c₁ b block true).setBuffer b
            {(claimEntry c₁ b block true).pool b with data := data})
          pending (b :: pending) lru' chains' chains'' b block data hgood hb hno
          (hlinks.setBuffer fun _ => rfl)
          (by rw [setBuffer, hself, hpool, update_idem]) hdevice (hpend b)
          (fun hnot => absurd (.head _) hnot)
        rw [funext hquiet.abs] at hsound
        refine ⟨⟨_, _, hgood'⟩, ?_, hquiet.trans_sound hsound⟩
        simp [setBuffer, hself]

theorem abandonEntry_links (h : Links c (b :: lru) chains) :
    (∃ chains', Links (abandonEntry c b) lru chains') ∧ (abandonEntry c b).pool =
        update c.pool b {c.pool b with valid := false, refcount := 0} ∧
      (abandonEntry c b).device = c.device := by
  have hoff : b ∉ lru := (nodup_cons.mp h.listed.list.nodup).1
  obtain ⟨hp, hd, hlru⟩ := hashRemoveLoop_frame c b nBlocks (.table (bhash (c.pool b).blockNum))
  set c₁ := (hashRemove c b).setBuffer b {(hashRemove c b).pool b with valid := false} with hc₁
  have hpool : c₁.pool = update c.pool b {c.pool b with valid := false} := by
    rw [hc₁, setBuffer, hashRemove, hp]
  obtain ⟨hp', hd', -⟩ := lruUnlink_frame c₁ b
  refine ⟨?_, ?_, ?_⟩
  · obtain ⟨chains', hlinks⟩ := @Links.takeOut c [] lru chains b c₁ h hlru ⟨rfl, rfl⟩
      fun i hi => by
        have hib : i ≠ b := fun heq => hoff (heq ▸ hi)
        rw [hpool, update_of_ne hib]
    exact ⟨chains', hlinks.setBuffer fun hmem => absurd hmem hoff⟩
  · show update (lruUnlink c₁ b).pool b
      {(lruUnlink c₁ b).pool b with refcount := 0} = _
    rw [hp', hpool, update_self, update_idem]
  · exact hd'.trans hd

theorem loadEntry_spec {ok : Bool} (h : Links c lru chains) (hb : Free c lru b)
    (hread : ataReadBlock4k o (claimEntry c b block false) block b = (ok, c₁)) :
    (∃ chains', Links c₁ (b :: lru) chains') ∧ c₁.device = c.device ∧
      ∃ loaded, (ok = true → loaded = c.device block) ∧
        c₁.pool = update c.pool b ⟨block, 1, false, false, loaded⟩ := by
  obtain ⟨⟨chains', hlinks⟩, hpool, hdevice⟩ := @claimEntry_links c lru chains b block false h hb
  generalize claimEntry c b block false = c₀ at hlinks hpool hdevice hread
  simp only [ataReadBlock4k, Prod.mk.injEq] at hread
  obtain ⟨hok, rfl⟩ := hread
  refine ⟨⟨chains', ?_⟩, hdevice,
    if o.ok c₀.transfers then c₀.device block else o.junk c₀.transfers, fun htrue => ?_, ?_⟩
  · refine hlinks.congr ⟨rfl, rfl, rfl, rfl⟩ ⟨rfl, rfl⟩ fun i _ => ?_
    by_cases hib : i = b
    · subst hib
      simp [setBuffer]
    · simp [setBuffer, update_of_ne hib]
  · rw [if_pos (hok.trans htrue), hdevice]
  · simp [setBuffer, hpool]

section
variable (h : Good c pending lru chains)
include h

theorem readMiss_ok (hb : Free c lru b) (hno : ∀ i ∈ lru, (c.pool i).blockNum ≠ block)
    (hread : ataReadBlock4k o (claimEntry c b block false) block b = (true, c₁)) :
    ∃ chains', Good (c₁.setBuffer b {c₁.pool b with valid := true}) pending (b :: lru) chains' ∧
      Sound (absDisk c) c (c₁.setBuffer b {c₁.pool b with valid := true}) ∧
      ((c₁.setBuffer b {c₁.pool b with valid := true}).pool b).data = absDisk c block := by
  obtain ⟨⟨chains', hlinks⟩, hdevice, loaded, hloaded, hpool⟩ := loadEntry_spec h.links hb hread
  have habs : absDisk c block = loaded := (h.absDisk_device hno).trans (hloaded rfl).symm
  have hself : c₁.pool b = ⟨block, 1, false, false, loaded⟩ := by
    rw [hpool]
    exact update_self _ _ _
  have hpool' : (c₁.setBuffer b {c₁.pool b with valid := true}).pool =
      update c.pool b ⟨block, 1, false, true, loaded⟩ := by
    rw [setBuffer, hself, hpool, update_idem]
  have hlinks' : Links (c₁.setBuffer b {c₁.pool b with valid := true}) (b :: lru) chains' :=
    hlinks.setBuffer fun _ => rfl
  obtain ⟨hgood, hsound⟩ := h.claim hb hno hlinks' hpool' hdevice (fun _ _ => Iff.rfl)
    fun _ => hloaded rfl
  rw [← habs, update_eq_self] at hsound
  refine ⟨chains', hgood, hsound, ?_⟩
  rw [hpool', update_self, habs]

theorem readMiss_fail (hb : Free c lru b)
    (hread : ataReadBlock4k o (claimEntry c b block false) block b = (false, c₁)) :
    ∃ chains', Good (abandonEntry c₁ b) pending lru chains' ∧ Quiet c (abandonEntry c₁ b) := by
  obtain ⟨⟨chains', hlinks⟩, hdevice, loaded, -, hpool⟩ := loadEntry_spec h.links hb hread
  obtain ⟨⟨chains'', hlinks''⟩, hpool'', hdevice''⟩ := abandonEntry_links hlinks
  have hself : (abandonEntry c₁ b).pool b = ⟨block, 0, false, false, loaded⟩ := by
    rw [hpool'', hpool]
    simp
  refine ⟨chains'', h.setFree hb hlinks'' (fun _ => Iff.rfl) (fun i hib => ?_)
    (hdevice''.trans hdevice) ?_ ?_ ?_⟩
  · rw [hpool'', update_of_ne hib, hpool, update_of_ne hib]
  · rw [hself]
  · rw [hself]
  · rw [hself]

theorem bcacheRead_spec (href : ∀ b, hashFind c block = some b → (c.pool b).refcount + 1 < 2 ^ 32) :
    (∃ lru' chains', Good (bcacheRead o c block).2 pending lru' chains') ∧
      Sound (absDisk c) c (bcacheRead o c block).2 ∧
      ∀ b, (bcacheRead o c block).1 = some b →
        ((bcacheRead o c block).2.pool b).data = absDisk c block := by
  unfold bcacheRead
  cases hfind : hashFind c block with
  | some b =>
    obtain ⟨hb, -, hblock⟩ := h.links.hashFind_some hfind
    have hspec := @hit_spec c pending pending lru chains b (c.pool b).data h hb
      (href b hfind) (fun _ _ => Iff.rfl) (fun hnot => ⟨hnot, rfl⟩)
    obtain ⟨hpool, -⟩ := hit_frame c b
    have hdata : ((hit c b).pool b).data = (c.pool b).data := by
      rw [hpool, update_self]
    have hsame : (hit c b).setBuffer b {(hit c b).pool b with data := (c.pool b).data} =
        hit c b := by
      rw [← hdata, setBuffer, update_eq_self]
    have habs : update (absDisk c) (c.pool b).blockNum (c.pool b).data = absDisk c := by
      rw [← h.absDisk_entry hb, update_eq_self]
    rw [hsame, habs] at hspec
    obtain ⟨lru', hgood, hsound⟩ := hspec
    refine ⟨⟨lru', chains, hgood⟩, hsound, ?_⟩
    rintro _ ⟨⟩
    rw [← hblock, h.absDisk_entry hb]
    exact hdata
  | none =>
    cases halloc : allocEntryLocked o {c with statMiss := c.statMiss + 1} with
    | mk found c₁ =>
      obtain ⟨lru', chains', hgood, hquiet, hno, hfree⟩ := miss_spec h hfind halloc
      cases found with
      | none => exact ⟨⟨lru', chains', hgood⟩, hquiet.sound, fun b hb => by cases hb⟩
      | some b =>
        have hb := hfree b rfl
        dsimp only
        cases hread : ataReadBlock4k o (claimEntry c₁ b block false) block b with
        | mk ok c₂ =>
          cases ok with
          | true =>
            obtain ⟨chains'', hgood', hsound, hdata⟩ := readMiss_ok hgood hb hno hread
            rw [funext hquiet.abs] at hsound hdata
            refine ⟨⟨_, _, hgood'⟩, hquiet.trans_sound hsound, ?_⟩
            rintro _ ⟨⟩
            exact hdata
          | false =>
            obtain ⟨chains'', hgood', hquiet'⟩ := readMiss_fail hgood hb hread
            exact ⟨⟨_, _, hgood'⟩, (hquiet.trans hquiet').sound, fun b hb => by cases hb⟩

theorem bcacheSyncBlock_spec :
    Good (bcacheSyncBlock o c b).2 pending lru chains ∧ Quiet c (bcacheSyncBlock o c b).2 := by
  unfold bcacheSyncBlock
  split
  next hdirty =>
    obtain ⟨hgood, hquiet, -⟩ := h.writeBack (o := o) hdirty
    exact ⟨hgood, hquiet⟩
  · exact ⟨h, h.quiet_refl⟩

theorem flushLoop_spec :
    Good (flushLoop o fuel p c) pending lru chains ∧ Quiet c (flushLoop o fuel p c) := by
  induction fuel generalizing c p with
  | zero => exact ⟨h, h.quiet_refl⟩
  | succ fuel ih =>
    cases p with
    | none => exact ⟨h, h.quiet_refl⟩
    | some b =>
      obtain ⟨hgood, hquiet⟩ := @bcacheSyncBlock_spec c pending lru chains b o h
      have hstep : (if (c.pool b).dirty then (writeBack o c b).2 else c) =
          (bcacheSyncBlock o c b).2 := by
        unfold bcacheSyncBlock
        split <;> rfl
      rw [flushLoop, hstep]
      obtain ⟨hgood', hquiet'⟩ := @ih (bcacheSyncBlock o c b).2
        ((bcacheSyncBlock o c b).2.lruNext b) hgood
      exact ⟨hgood', hquiet.trans hquiet'⟩

end

end Kyuzen.Bcache
