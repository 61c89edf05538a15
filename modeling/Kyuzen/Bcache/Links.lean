import Kyuzen.Bcache.Cache

/-!
The pointer structure of the block cache: one doubly linked LRU list, and one
hash chain for each value of `bhash`, over the same entries. The list surgery
of the source is read as the surgery on `DList` and `Chain`, and each of the
three changes of the structure (move to the front, take out, put in) keeps it.
-/

namespace Kyuzen.Bcache

open Function List

/-- `lru` is the LRU list from its head, and no other entry has LRU links. -/
structure Lru (c : Cache) (lru : List Nat) : Prop where
  list : DList c.lruNext c.lruPrev c.lruHead c.lruTail lru
  unlisted : ∀ i ∉ lru, c.lruPrev i = none ∧ c.lruNext i = none

/-- `chains h` is the hash chain of `h`, and the chains hold `entries`. -/
structure Hash (c : Cache) (entries : List Nat) (chains : Nat → List Nat) : Prop where
  chain : ∀ h, Chain c.hashNext (c.hashTable h) (chains h)
  nodup : ∀ h, (chains h).Nodup
  hashed : ∀ h i, i ∈ chains h ↔ i ∈ entries ∧ bhash (c.pool i).blockNum = h

structure Links (c : Cache) (lru : List Nat) (chains : Nat → List Nat) : Prop where
  listed : Lru c lru
  hash : Hash c lru chains
  bound : ∀ i ∈ lru, i < nBlocks

variable {c : Cache} {lru l₁ l₂ : List Nat} {chains : Nat → List Nat} {b : Nat}

/-! ### The surgery of the source -/

theorem lruUnlink_eq (h : DList c.lruNext c.lruPrev c.lruHead c.lruTail (l₁ ++ b :: l₂)) :
    lruUnlink c b = {c with
        lruNext := update (setLink c.lruNext (c.lruPrev b) (c.lruNext b)) b none
        lruPrev := update (setLink c.lruPrev (c.lruNext b) (c.lruPrev b)) b none
        lruHead := if (c.lruPrev b).isSome then c.lruHead else c.lruNext b
        lruTail := if (c.lruNext b).isSome then c.lruTail else c.lruPrev b} := by
  have hb : b ∉ l₁ := by
    intro hmem
    exact (nodup_append.mp h.nodup).2.2 b hmem b (.head _) rfl
  have hprev : c.lruPrev b ≠ some b := by
    rw [h.prev_eq]
    exact getLast?_ne_of_notMem hb
  unfold lruUnlink
  cases hp : c.lruPrev b with
  | none => cases hn : c.lruNext b <;> simp [hp, hn]
  | some p =>
    have hne : b ≠ p := fun heq => hprev (by rw [hp, heq])
    cases hn : c.lruNext b <;> simp [hp, hn, update_of_ne hne]

theorem lruPushFront_eq (hprev : c.lruPrev b = none) (hnext : c.lruNext b = none)
    (hhead : c.lruHead ≠ some b) (htail : c.lruTail ≠ some b) :
    lruPushFront c b = {c with
        lruPrev := setLink (update c.lruPrev b none) c.lruHead (some b)
        lruNext := update c.lruNext b c.lruHead
        lruHead := some b
        lruTail := if c.lruTail.isSome then c.lruTail else some b} := by
  simp [lruPushFront, hprev, hnext, hhead, htail]

/-- The link that holds the address of the node behind `l`. -/
def lastLink (pp : Link) : List Nat → Link
  | [] => pp
  | y :: ys => lastLink (.next y) ys

variable {l : List Nat} {c' : Cache} {entries entries' : List Nat}

theorem hashRemoveLoop_eq {fuel : Nat} {pp : Link}
    (h : Seg c.hashNext (c.link pp) l (some b)) (hb : b ∉ l) (hfuel : l.length < fuel) :
    hashRemoveLoop c b fuel pp = {c.setLink (lastLink pp l) (c.hashNext b) with
        hashNext := update (c.setLink (lastLink pp l) (c.hashNext b)).hashNext b none} := by
  induction l generalizing pp fuel with
  | nil =>
    cases fuel with
    | zero => simp at hfuel
    | succ fuel =>
      have hlink : c.link pp = some b := h
      simp [hashRemoveLoop, hlink, lastLink]
  | cons y ys ih =>
    cases fuel with
    | zero => simp at hfuel
    | succ fuel =>
      obtain ⟨hlink, hys⟩ := h
      have hne : y ≠ b := fun heq => hb (by simp [heq])
      simp only [hashRemoveLoop, hlink, if_neg hne, lastLink]
      exact ih hys (fun hmem => hb (.tail _ hmem)) (by simpa using hfuel)

theorem setLink_lastLink (t : Nat) (l : List Nat) (v : Option Nat) :
    c.setLink (lastLink (.table t) l) v = {c with
        hashNext := setLink c.hashNext l.getLast? v
        hashTable := if l.getLast?.isSome then c.hashTable
          else update c.hashTable t v} := by
  have hnext : ∀ (y : Nat) (ys : List Nat), c.setLink (lastLink (.next y) ys) v =
      {c with hashNext := setLink c.hashNext (y :: ys).getLast? v} := by
    intro y ys
    induction ys generalizing y with
    | nil => rfl
    | cons z zs ih =>
      rw [getLast?_cons_cons]
      exact ih z
  cases l with
  | nil => rfl
  | cons y ys =>
    rw [lastLink, hnext]
    simp [getLast?_cons]

theorem hashRemove_eq
    (h : Chain c.hashNext (c.hashTable (bhash (c.pool b).blockNum)) (l₁ ++ b :: l₂))
    (hnd : (l₁ ++ b :: l₂).Nodup) (hlen : l₁.length < nBlocks) :
    hashRemove c b = {c with
        hashNext := update (setLink c.hashNext l₁.getLast? (c.hashNext b)) b none
        hashTable := if l₁.getLast?.isSome then c.hashTable
          else update c.hashTable (bhash (c.pool b).blockNum) (c.hashNext b)} := by
  have hb : b ∉ l₁ := by
    intro hmem
    exact (nodup_append.mp hnd).2.2 b hmem b (.head _) rfl
  rw [hashRemove, hashRemoveLoop_eq h.split.1 hb hlen, setLink_lastLink]

theorem lruUnlink_frame (c : Cache) (b : Nat) :
    (lruUnlink c b).pool = c.pool ∧ (lruUnlink c b).device = c.device ∧
      (lruUnlink c b).hashNext = c.hashNext ∧ (lruUnlink c b).hashTable = c.hashTable := by
  unfold lruUnlink
  cases c.lruPrev b <;> dsimp only <;> split <;> exact ⟨rfl, rfl, rfl, rfl⟩

theorem lruPushFront_frame (c : Cache) (b : Nat) :
    (lruPushFront c b).pool = c.pool ∧ (lruPushFront c b).device = c.device ∧
      (lruPushFront c b).hashNext = c.hashNext ∧
      (lruPushFront c b).hashTable = c.hashTable := by
  unfold lruPushFront
  dsimp only
  split
  · exact lruUnlink_frame c b
  · exact ⟨rfl, rfl, rfl, rfl⟩

theorem lruTouch_frame (c : Cache) (b : Nat) :
    (lruTouch c b).pool = c.pool ∧ (lruTouch c b).device = c.device ∧
      (lruTouch c b).hashNext = c.hashNext ∧ (lruTouch c b).hashTable = c.hashTable := by
  unfold lruTouch
  split
  · exact ⟨rfl, rfl, rfl, rfl⟩
  · obtain ⟨hp, hd, hn, ht⟩ := lruPushFront_frame (lruUnlink c b) b
    obtain ⟨hp', hd', hn', ht'⟩ := lruUnlink_frame c b
    exact ⟨hp.trans hp', hd.trans hd', hn.trans hn', ht.trans ht'⟩

theorem hashRemoveLoop_frame (c : Cache) (b fuel : Nat) (pp : Link) :
    (hashRemoveLoop c b fuel pp).pool = c.pool ∧ (hashRemoveLoop c b fuel pp).device = c.device ∧
      (hashRemoveLoop c b fuel pp).lruNext = c.lruNext ∧
      (hashRemoveLoop c b fuel pp).lruPrev = c.lruPrev ∧
      (hashRemoveLoop c b fuel pp).lruHead = c.lruHead ∧
      (hashRemoveLoop c b fuel pp).lruTail = c.lruTail := by
  induction fuel generalizing pp with
  | zero => exact ⟨rfl, rfl, rfl, rfl, rfl, rfl⟩
  | succ fuel ih =>
    unfold hashRemoveLoop
    split
    · exact ⟨rfl, rfl, rfl, rfl, rfl, rfl⟩
    · split
      · cases pp <;> exact ⟨rfl, rfl, rfl, rfl, rfl, rfl⟩
      · exact ih _

/-! ### The structure is kept -/

theorem length_le_of_lt (hnd : l.Nodup) (hlt : ∀ i ∈ l, i < nBlocks) : l.length ≤ nBlocks := by
  have hsub : l ⊆ range nBlocks := fun i hi => mem_range.mpr (hlt i hi)
  simpa using (subperm_of_subset hnd hsub).length_le

theorem Lru.congr (h : Lru c lru)
    (heq : c'.lruNext = c.lruNext ∧ c'.lruPrev = c.lruPrev ∧ c'.lruHead = c.lruHead ∧
      c'.lruTail = c.lruTail) : Lru c' lru := by
  obtain ⟨hnext, hprev, hhead, htail⟩ := heq
  refine ⟨?_, ?_⟩
  · rw [hnext, hprev, hhead, htail]
    exact h.list
  · rw [hnext, hprev]
    exact h.unlisted

theorem Lru.head_ne (h : Lru c lru) (hb : b ∉ lru) : c.lruHead ≠ some b := by
  rw [h.list.fwd.head_eq]
  exact fun heq => hb (mem_of_head? heq)

theorem Lru.tail_ne (h : Lru c lru) (hb : b ∉ lru) : c.lruTail ≠ some b := by
  rw [h.list.bwd.head_eq]
  exact fun heq => hb (mem_reverse.mp (mem_of_head? heq))

theorem Lru.unlink (h : Lru c (l₁ ++ b :: l₂)) : Lru (lruUnlink c b) (l₁ ++ l₂) := by
  rw [lruUnlink_eq h.list]
  refine ⟨h.list.unlink, fun i hi => ?_⟩
  by_cases hib : i = b
  · subst hib
    exact ⟨update_self _ _ _, update_self _ _ _⟩
  -- an entry off the list is neither neighbour of the one that leaves
  have hoff : i ∉ l₁ ++ b :: l₂ := by simp_all
  have hprev : c.lruPrev b ≠ some i := by
    rw [h.list.prev_eq]
    exact fun heq => hoff (mem_append_left _ (mem_of_getLast? heq))
  have hnext : c.lruNext b ≠ some i := by
    rw [h.list.fwd.next_eq]
    exact fun heq => hoff (by simp [mem_of_head? heq])
  obtain ⟨hp, hn⟩ := h.unlisted i hoff
  simp only [update_of_ne hib, setLink_of_ne hprev, setLink_of_ne hnext]
  exact ⟨hp, hn⟩

theorem Lru.pushFront (h : Lru c lru) (hb : b ∉ lru) : Lru (lruPushFront c b) (b :: lru) := by
  obtain ⟨hprev, hnext⟩ := h.unlisted b hb
  rw [lruPushFront_eq hprev hnext (h.head_ne hb) (h.tail_ne hb)]
  refine ⟨h.list.pushFront hb, fun i hi => ?_⟩
  obtain ⟨hib, hi⟩ := not_or.mp (fun hor => hi (mem_cons.mpr hor))
  obtain ⟨hp, hn⟩ := h.unlisted i hi
  simp only [setLink_of_ne (h.head_ne hi), update_of_ne hib]
  exact ⟨hp, hn⟩

theorem Lru.touch (h : Lru c lru) (hb : b ∈ lru) :
    ∃ lru', lru'.Perm lru ∧ Lru (lruTouch c b) lru' := by
  unfold lruTouch
  split
  · exact ⟨lru, Perm.refl _, h⟩
  · obtain ⟨l₁, l₂, rfl⟩ := append_of_mem hb
    have hoff : b ∉ l₁ ++ l₂ := (nodup_middle.mp h.list.nodup).notMem
    exact ⟨b :: (l₁ ++ l₂), perm_middle.symm, h.unlink.pushFront hoff⟩

theorem Hash.congr (h : Hash c entries chains)
    (heq : c'.hashNext = c.hashNext ∧ c'.hashTable = c.hashTable)
    (hmem : ∀ i, i ∈ entries' ↔ i ∈ entries)
    (hpool : ∀ i ∈ entries, (c'.pool i).blockNum = (c.pool i).blockNum) :
    Hash c' entries' chains := by
  obtain ⟨hnext, htable⟩ := heq
  refine ⟨?_, h.nodup, fun t i => ?_⟩
  · rw [hnext, htable]
    exact h.chain
  · rw [h.hashed t i, hmem i]
    refine and_congr_right fun hi => ?_
    rw [hpool i hi]

theorem Hash.insert {entries : List Nat} (h : Hash c entries chains) (hb : b ∉ entries) :
    Hash (hashInsert c b) (b :: entries)
      (update chains (bhash (c.pool b).blockNum)
        (b :: chains (bhash (c.pool b).blockNum))) := by
  have hoff : ∀ t, b ∉ chains t := fun t hmem => hb ((h.hashed t b).mp hmem).1
  have hchain : ∀ t p, Chain c.hashNext p (chains t) →
      Chain (hashInsert c b).hashNext p (chains t) :=
    fun t p hc => hc.congr fun y hy => update_of_notMem (hoff t) hy
  refine ⟨fun t => ?_, fun t => ?_, fun t i => ?_⟩
  · by_cases ht : t = bhash (c.pool b).blockNum
    · subst ht
      simp only [hashInsert, update_self]
      refine ⟨rfl, ?_⟩
      rw [update_self]
      exact hchain _ _ (h.chain _)
    · rw [update_of_ne ht]
      simp only [hashInsert, update_of_ne ht]
      exact hchain t _ (h.chain t)
  · by_cases ht : t = bhash (c.pool b).blockNum
    · subst ht
      rw [update_self]
      exact nodup_cons.mpr ⟨hoff _, h.nodup _⟩
    · rw [update_of_ne ht]
      exact h.nodup t
  · have hpool : (hashInsert c b).pool = c.pool := rfl
    rw [hpool]
    by_cases hib : i = b
    · subst hib
      by_cases ht : t = bhash (c.pool i).blockNum
      · subst ht
        simp
      · simp [update_of_ne ht, hoff t, Ne.symm ht]
    · by_cases ht : t = bhash (c.pool b).blockNum
      · subst ht
        simp [hib, h.hashed]
      · simp [update_of_ne ht, hib, h.hashed]

theorem Hash.remove (h : Hash c entries chains)
    (hbound : ∀ i ∈ entries, i < nBlocks) (hb : b ∈ entries)
    (hmem : ∀ i, i ∈ entries' ↔ i ∈ entries ∧ i ≠ b) :
    ∃ chains', Hash (hashRemove c b) entries' chains' := by
  set t₀ := bhash (c.pool b).blockNum with ht₀
  have hin : b ∈ chains t₀ := (h.hashed t₀ b).mpr ⟨hb, rfl⟩
  obtain ⟨l₁, l₂, hsplit⟩ := append_of_mem hin
  have hchain := h.chain t₀
  have hnd := h.nodup t₀
  have hlen := length_le_of_lt hnd fun i hi => hbound i ((h.hashed t₀ i).mp hi).1
  rw [hsplit] at hchain hnd hlen
  rw [hashRemove_eq hchain hnd (by simp at hlen; omega), ← ht₀]
  have hrest : (l₁ ++ l₂).Nodup := (nodup_cons.mp (nodup_middle.mp hnd)).2
  have hoff : b ∉ l₁ ++ l₂ := (nodup_middle.mp hnd).notMem
  have hother : ∀ t ≠ t₀, ∀ y ∈ chains t, y ≠ b ∧ l₁.getLast? ≠ some y := by
    intro t ht y hy
    have hyt := ((h.hashed t y).mp hy).2
    have hnot : ∀ z ∈ chains t₀, y ≠ z := by
      rintro z hz rfl
      exact ht (hyt.symm.trans ((h.hashed t₀ y).mp hz).2)
    refine ⟨hnot b hin, fun hlast => hnot y ?_ rfl⟩
    rw [hsplit]
    exact mem_append_left _ (mem_of_getLast? hlast)
  refine ⟨update chains t₀ (l₁ ++ l₂), fun t => ?_, fun t => ?_, fun t i => ?_⟩
  · by_cases ht : t = t₀
    · subst ht
      rw [update_self]
      have hcut : Chain (update (setLink c.hashNext l₁.getLast? (c.hashNext b)) b none)
          (if l₁.getLast?.isSome then c.hashTable t₀ else c.hashNext b) (l₁ ++ l₂) :=
        (hchain.unlink hnd).congr fun y hy => update_of_notMem hoff hy
      by_cases hlast : l₁.getLast?.isSome = true
      · simpa only [if_pos hlast] using hcut
      · simpa only [if_neg hlast, update_self] using hcut
    · rw [update_of_ne ht]
      have hkeep : Chain (update (setLink c.hashNext l₁.getLast? (c.hashNext b)) b none)
          (c.hashTable t) (chains t) := by
        refine (h.chain t).congr fun y hy => ?_
        obtain ⟨hne, hlast⟩ := hother t ht y hy
        rw [update_of_ne hne, setLink_of_ne hlast]
      split
      · exact hkeep
      · simpa only [update_of_ne ht] using hkeep
  · by_cases ht : t = t₀
    · subst ht
      rw [update_self]
      exact hrest
    · rw [update_of_ne ht]
      exact h.nodup t
  · rw [hmem i]
    by_cases ht : t = t₀
    · subst ht
      rw [update_self, mem_without_iff hnd, ← hsplit, h.hashed]
      tauto
    rw [update_of_ne ht, h.hashed t i]
    constructor
    · rintro ⟨hie, hit⟩
      exact ⟨⟨hie, fun heq => ht (by rw [← hit, heq])⟩, hit⟩
    · rintro ⟨⟨hie, -⟩, hit⟩
      exact ⟨hie, hit⟩

namespace Links

variable {block : Nat}

section
variable (h : Links c lru chains)
include h

theorem length_le : lru.length ≤ nBlocks := length_le_of_lt h.listed.list.nodup h.bound

theorem chain_length_le (t : Nat) : (chains t).length ≤ nBlocks :=
  length_le_of_lt (h.hash.nodup t) fun i hi => h.bound i ((h.hash.hashed t i).mp hi).1

theorem congr {c' : Cache}
    (hlru : c'.lruNext = c.lruNext ∧ c'.lruPrev = c.lruPrev ∧ c'.lruHead = c.lruHead ∧
      c'.lruTail = c.lruTail)
    (hhash : c'.hashNext = c.hashNext ∧ c'.hashTable = c.hashTable)
    (hpool : ∀ i ∈ lru, (c'.pool i).blockNum = (c.pool i).blockNum) : Links c' lru chains :=
  ⟨h.listed.congr hlru, h.hash.congr hhash (fun _ => Iff.rfl) hpool, h.bound⟩

theorem setBuffer {buffer : Buffer} (hb : b ∈ lru → buffer.blockNum = (c.pool b).blockNum) :
    Links (c.setBuffer b buffer) lru chains := by
  refine h.congr ⟨rfl, rfl, rfl, rfl⟩ ⟨rfl, rfl⟩ fun i hi => ?_
  by_cases hib : i = b
  · subst hib
    simp [Cache.setBuffer, hb hi]
  · simp [Cache.setBuffer, update_of_ne hib]

theorem touch (hb : b ∈ lru) : ∃ lru', lru'.Perm lru ∧ Links (lruTouch c b) lru' chains := by
  obtain ⟨lru', hperm, hlru'⟩ := h.listed.touch hb
  obtain ⟨hpool, -, hnext, htable⟩ := lruTouch_frame c b
  refine ⟨lru', hperm, hlru', ?_, fun i hi => h.bound i (hperm.mem_iff.mp hi)⟩
  exact h.hash.congr ⟨hnext, htable⟩ (fun i => hperm.mem_iff) fun i _ => by rw [hpool]

theorem putIn (hb : b ∉ lru) (hlt : b < nBlocks) :
    ∃ chains', Links (lruPushFront (hashInsert c b) b) (b :: lru) chains' := by
  obtain ⟨hpool, -, hnext, htable⟩ := lruPushFront_frame (hashInsert c b) b
  have hlisted : Lru (hashInsert c b) lru := h.listed.congr ⟨rfl, rfl, rfl, rfl⟩
  refine ⟨_, hlisted.pushFront hb, (h.hash.insert hb).congr ⟨hnext, htable⟩
    (fun _ => Iff.rfl) (fun i _ => by rw [hpool]), fun i hi => ?_⟩
  rcases mem_cons.mp hi with rfl | hi
  · exact hlt
  · exact h.bound i hi

end

/-- An entry leaves the hash map and the LRU list. What happens to the buffers
between the two removals does not matter. -/
theorem takeOut {c' : Cache} (h : Links c (l₁ ++ b :: l₂) chains)
    (hlru : c'.lruNext = c.lruNext ∧ c'.lruPrev = c.lruPrev ∧ c'.lruHead = c.lruHead ∧
      c'.lruTail = c.lruTail)
    (hhash : c'.hashNext = (hashRemove c b).hashNext ∧ c'.hashTable = (hashRemove c b).hashTable)
    (hpool : ∀ i ∈ l₁ ++ l₂, (c'.pool i).blockNum = (c.pool i).blockNum) :
    ∃ chains', Links (lruUnlink c' b) (l₁ ++ l₂) chains' := by
  have hmem : ∀ i, i ∈ l₁ ++ l₂ ↔ i ∈ l₁ ++ b :: l₂ ∧ i ≠ b :=
    fun i => mem_without_iff h.listed.list.nodup
  obtain ⟨chains', hrest⟩ := h.hash.remove h.bound (by simp) hmem
  obtain ⟨hp, -, hn, ht⟩ := lruUnlink_frame c' b
  obtain ⟨hp', -⟩ := hashRemoveLoop_frame c b nBlocks (.table (bhash (c.pool b).blockNum))
  refine ⟨chains', (h.listed.congr hlru).unlink, hrest.congr ?_ (fun _ => Iff.rfl) ?_, ?_⟩
  · exact ⟨hn.trans hhash.1, ht.trans hhash.2⟩
  · intro i hi
    rw [hp, hashRemove, hp']
    exact hpool i hi
  · exact fun i hi => h.bound i ((hmem i).mp hi).1

theorem hashFindLoop_eq {fuel : Nat} {p : Option Nat} {l : List Nat} (h : Chain c.hashNext p l)
    (hfuel : l.length ≤ fuel) :
    hashFindLoop c block fuel p =
      l.find? fun e => (c.pool e).valid && (c.pool e).blockNum == block := by
  induction l generalizing p fuel with
  | nil =>
    obtain rfl : p = none := h
    cases fuel <;> rfl
  | cons e es ih =>
    obtain ⟨rfl, hes⟩ := h
    cases fuel with
    | zero => simp at hfuel
    | succ fuel =>
      rw [hashFindLoop, find?_cons, ih hes (by simpa using hfuel)]
      cases (c.pool e).valid && (c.pool e).blockNum == block <;> rfl

theorem hashFind_some (h : Links c lru chains) (hfind : hashFind c block = some b) :
    b ∈ lru ∧ (c.pool b).valid = true ∧ (c.pool b).blockNum = block := by
  rw [hashFind, hashFindLoop_eq (h.hash.chain _) (h.chain_length_le _)] at hfind
  have hmem := mem_of_find?_eq_some hfind
  have hprop := find?_some hfind
  simp only [Bool.and_eq_true, beq_iff_eq] at hprop
  exact ⟨((h.hash.hashed _ b).mp hmem).1, hprop⟩

theorem hashFind_none (h : Links c lru chains) (hfind : hashFind c block = none) :
    ∀ i ∈ lru, (c.pool i).valid = true → (c.pool i).blockNum ≠ block := by
  rw [hashFind, hashFindLoop_eq (h.hash.chain _) (h.chain_length_le _), find?_eq_none] at hfind
  rintro i hi hvalid rfl
  refine hfind i ((h.hash.hashed _ i).mpr ⟨hi, rfl⟩) ?_
  simp [hvalid]

end Links

end Kyuzen.Bcache
