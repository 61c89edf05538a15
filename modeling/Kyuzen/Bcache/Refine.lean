import Kyuzen.Base.Run
import Kyuzen.Bcache.Ops

/-!
The block cache refines a disk. Its callers take references, change the
buffers they hold, mark them dirty and release them; the drive fails as it
likes. In every run the abstract disk changes only where a caller changed a
buffer, and nothing that was marked dirty is lost.
-/

namespace Kyuzen.Bcache

open Function

/-- The cache and what its callers did: `pending` are the entries that were
modified since they were last marked dirty, `dirtied` the blocks whose buffer
was modified and then marked dirty. -/
structure Machine where
  cache : Cache
  pending : List Nat
  dirtied : List Nat

/-- The calls. `overwrite` is `bcache_get` with the full overwrite of the buffer
that its contract asks for, `modify` is a store into a referenced buffer. -/
inductive Op where
  | read (block : Nat)
  | overwrite (block : Nat) (data : Buf)
  | modify (b : Nat) (data : Buf)
  | markDirty (b : Nat)
  | release (b : Nat)
  | syncBlock (b : Nat)
  | flushAll

/-- What callers keep to: a buffer is modified and marked dirty only while it is
referenced, it is marked dirty before its last reference goes, and fewer than
2³² references are held. -/
def Op.Allowed (m : Machine) : Op → Prop
  | .read block | .overwrite block _ =>
    ∀ b, hashFind m.cache block = some b → (m.cache.pool b).refcount + 1 < 2 ^ 32
  | .modify b _ | .markDirty b => 0 < (m.cache.pool b).refcount
  | .release b => b ∈ m.pending → 1 < (m.cache.pool b).refcount
  | .syncBlock _ | .flushAll => True

def Op.run (o : Ata) (m : Machine) : Op → Machine
  | .read block => {m with cache := (bcacheRead o m.cache block).2}
  | .overwrite block data =>
    match getOverwrite o m.cache block data with
    | (none, c) => {m with cache := c}
    | (some b, c) => {m with cache := c, pending := b :: m.pending}
  | .modify b data =>
    {m with
      cache := m.cache.setBuffer b {m.cache.pool b with data := data}
      pending := b :: m.pending}
  | .markDirty b =>
    {cache := bcacheMarkDirty m.cache b
     pending := m.pending.filter (· != b)
     dirtied := if b ∈ m.pending then (m.cache.pool b).blockNum :: m.dirtied else m.dirtied}
  | .release b => {m with cache := bcacheRelease m.cache b}
  | .syncBlock b => {m with cache := (bcacheSyncBlock o m.cache b).2}
  | .flushAll => {m with cache := bcacheFlushAll o m.cache}

def Step (o : Ata) (m : Machine) (op : Op) (m' : Machine) : Prop :=
  op.Allowed m ∧ m' = op.run o m

def initMachine (device : Nat → Buf) : Machine := ⟨bcacheInit device, [], []⟩

/-- The abstract operation: a disk, one block of which is written by an
overwrite that got a buffer and by a modification. -/
def Op.effect (o : Ata) (m : Machine) (disk : Nat → Buf) : Op → Nat → Buf
  | .overwrite block data =>
    if (getOverwrite o m.cache block data).1.isSome then update disk block data
    else disk
  | .modify b data => update disk (m.cache.pool b).blockNum data
  | _ => disk

structure Inv (device : Nat → Buf) (m : Machine) : Prop where
  good : ∃ lru chains, Good m.cache m.pending lru chains
  changed : ∀ x, absDisk m.cache x ≠ device x →
    x ∈ m.dirtied ∨ ∃ i ∈ m.pending, (m.cache.pool i).blockNum = x

variable {device : Nat → Buf} {m m' : Machine} {op : Op} {o : Ata}

theorem inv_init (device : Nat → Buf) : Inv device (initMachine device) where
  good := by
    refine ⟨[], fun _ => [], ⟨⟨⟨rfl, rfl, List.nodup_nil⟩, fun _ _ => ⟨rfl, rfl⟩⟩,
      ⟨fun _ => rfl, fun _ => List.nodup_nil, ?_⟩, ?_⟩, ?_, ?_, ?_, ?_, ?_, ?_⟩ <;>
      simp [initMachine, bcacheInit]
  changed x hx := by
    refine absurd ?_ hx
    unfold absDisk
    split
    next i hfind =>
      have hprop := List.find?_some hfind
      simp [initMachine, bcacheInit] at hprop
    · rfl

theorem step_sound (hgood : ∃ lru chains, Good m.cache m.pending lru chains) (h : Step o m op m') :
    (∃ lru chains, Good m'.cache m'.pending lru chains) ∧
      Sound (op.effect o m (absDisk m.cache)) m.cache m'.cache := by
  obtain ⟨hallowed, rfl⟩ := h
  obtain ⟨lru, chains, hgood⟩ := hgood
  have hself : ∀ b ∈ lru, update (absDisk m.cache) (m.cache.pool b).blockNum
      (m.cache.pool b).data = absDisk m.cache := by
    intro b hb
    rw [← hgood.absDisk_entry hb, update_eq_self]
  cases op with
  | read block =>
    obtain ⟨hgood', hsound, -⟩ := bcacheRead_spec (o := o) hgood hallowed
    exact ⟨hgood', hsound⟩
  | overwrite block data =>
    have hspec := @getOverwrite_spec m.cache m.pending lru chains block o data hgood hallowed
    simp only [Op.run, Op.effect]
    cases hr : getOverwrite o m.cache block data with
    | mk found c =>
      rw [hr] at hspec
      cases found with
      | none =>
        obtain ⟨lru', chains', hgood', hsound⟩ := hspec
        exact ⟨⟨lru', chains', hgood'⟩, hsound⟩
      | some b =>
        obtain ⟨hgood', -, hsound⟩ := hspec
        exact ⟨hgood', hsound⟩
  | modify b data =>
    have hb := hgood.held b hallowed
    obtain ⟨hgood', hsound⟩ := @Good.setListed m.cache
      (m.cache.setBuffer b {m.cache.pool b with data := data}) m.pending (b :: m.pending)
      lru lru chains chains b {m.cache.pool b with data := data} hgood hb
      (hgood.links.setBuffer fun _ => rfl) (fun _ => Iff.rfl) rfl rfl
      ((hgood.valid_iff b).mpr hb) rfl id (fun _ hnot => absurd (.head _) hnot)
      (fun i hib => by simp [hib]) (fun _ => hallowed)
    exact ⟨⟨lru, chains, hgood'⟩, hsound⟩
  | markDirty b =>
    have hb := hgood.held b hallowed
    obtain ⟨hgood', hsound⟩ := @Good.setListed m.cache (bcacheMarkDirty m.cache b) m.pending
      (m.pending.filter (· != b)) lru lru chains chains b
      {m.cache.pool b with dirty := true} hgood hb
      (hgood.links.setBuffer fun _ => rfl) (fun _ => Iff.rfl) rfl rfl
      ((hgood.valid_iff b).mpr hb) rfl (fun _ => rfl) nofun
      (fun i hib => by simp [hib]) (fun _ => hallowed)
    rw [hself b hb] at hsound
    exact ⟨⟨lru, chains, hgood'⟩, hsound⟩
  | release b =>
    simp only [Op.run, Op.effect, bcacheRelease]
    split
    next href =>
      have hb := hgood.held b href
      obtain ⟨hgood', hsound⟩ := @Good.setListed m.cache
        (m.cache.setBuffer b
          {m.cache.pool b with refcount := (m.cache.pool b).refcount - 1})
        m.pending m.pending lru lru chains chains b
        {m.cache.pool b with refcount := (m.cache.pool b).refcount - 1} hgood hb
        (hgood.links.setBuffer fun _ => rfl) (fun _ => Iff.rfl) rfl rfl
        ((hgood.valid_iff b).mpr hb) rfl id (hgood.clean b hb) (fun _ _ => Iff.rfl)
        (fun hp => Nat.sub_pos_of_lt (hallowed hp))
      rw [hself b hb] at hsound
      exact ⟨⟨lru, chains, hgood'⟩, hsound⟩
    · exact ⟨⟨lru, chains, hgood⟩, hgood.quiet_refl.sound⟩
  | syncBlock b =>
    obtain ⟨hgood', hquiet⟩ := @bcacheSyncBlock_spec m.cache m.pending lru chains b o hgood
    exact ⟨⟨lru, chains, hgood'⟩, hquiet.sound⟩
  | flushAll =>
    obtain ⟨hgood', hquiet⟩ := @flushLoop_spec m.cache m.pending lru chains nBlocks
      m.cache.lruHead o hgood
    exact ⟨⟨lru, chains, hgood'⟩, hquiet.sound⟩

theorem Inv.frame {c' : Cache} (h : Inv device m)
    (hgood : ∃ lru chains, Good c' m.pending lru chains)
    (hsound : Sound (absDisk m.cache) m.cache c') : Inv device {m with cache := c'} := by
  refine ⟨hgood, fun x hx => ?_⟩
  rw [hsound.abs] at hx
  obtain ⟨lru, chains, hold⟩ := h.good
  refine (h.changed x hx).imp id ?_
  rintro ⟨i, hi, rfl⟩
  exact ⟨i, hi, (hsound.held i (hold.pending_held i hi)).2⟩

/-- A step that writes block `x₀` through the entry `b`. -/
theorem Inv.write {c' : Cache} {b x₀ : Nat} {data : Buf} (h : Inv device m)
    (hgood : ∃ lru chains, Good c' (b :: m.pending) lru chains)
    (hsound : Sound (update (absDisk m.cache) x₀ data) m.cache c')
    (hb : (c'.pool b).blockNum = x₀) :
    Inv device {m with cache := c', pending := b :: m.pending} := by
  refine ⟨hgood, fun x hx => ?_⟩
  rw [hsound.abs] at hx
  by_cases hx₀ : x = x₀
  · exact .inr ⟨b, (.head _), hb.trans hx₀.symm⟩
  · rw [update_of_ne hx₀] at hx
    obtain ⟨lru, chains, hold⟩ := h.good
    refine (h.changed x hx).imp id ?_
    rintro ⟨i, hi, rfl⟩
    exact ⟨i, List.mem_cons_of_mem _ hi, (hsound.held i (hold.pending_held i hi)).2⟩

theorem step_inv (h : Inv device m) (hstep : Step o m op m') : Inv device m' := by
  obtain ⟨hgood, hsound⟩ := step_sound h.good hstep
  obtain ⟨hallowed, rfl⟩ := hstep
  cases op with
  | read | release | syncBlock | flushAll => exact h.frame hgood hsound
  | modify b data =>
    refine h.write hgood hsound ?_
    simp [Cache.setBuffer]
  | overwrite block data =>
    obtain ⟨lru, chains, hold⟩ := h.good
    have hspec := @getOverwrite_spec m.cache m.pending lru chains block o data hold hallowed
    simp only [Op.run, Op.effect] at hgood hsound ⊢
    cases hr : getOverwrite o m.cache block data with
    | mk found c =>
      rw [hr] at hspec hgood hsound
      cases found with
      | none => exact h.frame hgood hsound
      | some b => exact h.write hgood hsound hspec.2.1
  | markDirty b =>
    refine ⟨hgood, fun x hx => ?_⟩
    rw [hsound.abs] at hx
    simp only [Op.run]
    rcases h.changed x hx with hmem | ⟨i, hi, hblock⟩
    · left
      split
      · exact .tail _ hmem
      · exact hmem
    · by_cases hib : i = b
      · subst hib
        rw [if_pos hi, hblock]
        exact .inl (.head _)
      · refine .inr ⟨i, by simp [hi, hib], ?_⟩
        simp [bcacheMarkDirty, Cache.setBuffer, update_of_ne hib, hblock]

def lruWalk (c : Cache) : List Nat := walk c.lruNext nBlocks c.lruHead

def hashWalk (c : Cache) (h : Nat) : List Nat := walk c.hashNext nBlocks (c.hashTable h)

/-- Block cache refinement. In every state that the callers reach, whatever the
drive does: a block differs from the device it started as only if its buffer was
modified and marked dirty, or modified and is still held; each block has at most
one valid entry; each valid entry is in its hash chain and once in the LRU list.
The next call has its effect on the abstract disk and no other; it drops no
dirty entry whose data is not on the device, and evicts no referenced entry. -/
theorem bcache_refines_disk {ops : List Op} (hrun : Run (Step o) (initMachine device) ops m)
    (hstep : Step o m op m') :
    (∀ x, absDisk m.cache x ≠ device x → x ∈ m.dirtied ∨
      ∃ i ∈ m.pending, 0 < (m.cache.pool i).refcount ∧ (m.cache.pool i).blockNum = x) ∧
    (∀ i j, (m.cache.pool i).valid = true → (m.cache.pool j).valid = true →
      (m.cache.pool i).blockNum = (m.cache.pool j).blockNum → i = j) ∧
    (∀ i, (m.cache.pool i).valid = true →
      i ∈ hashWalk m.cache (bhash (m.cache.pool i).blockNum) ∧ (lruWalk m.cache).count i = 1) ∧
    absDisk m'.cache = op.effect o m (absDisk m.cache) ∧
    (∀ i, (m.cache.pool i).dirty = true →
      ((m'.cache.pool i).valid = true ∧ (m'.cache.pool i).dirty = true ∧
        (m'.cache.pool i).blockNum = (m.cache.pool i).blockNum) ∨
      m'.cache.device (m.cache.pool i).blockNum = (m.cache.pool i).data) ∧
    (∀ i, 0 < (m.cache.pool i).refcount → (m'.cache.pool i).valid = true ∧
      (m'.cache.pool i).blockNum = (m.cache.pool i).blockNum) := by
  have hinv : Inv device m :=
    hrun.invariant (fun _ _ _ hs hstep => step_inv hs hstep) (inv_init device)
  obtain ⟨⟨lru', chains', hgood'⟩, hsound⟩ := step_sound hinv.good hstep
  obtain ⟨lru, chains, hgood⟩ := hinv.good
  refine ⟨fun x hx => ?_, fun i j hi hj => ?_, fun i hi => ⟨?_, ?_⟩, hsound.abs, fun i hi => ?_,
    hsound.held⟩
  · refine (hinv.changed x hx).imp id ?_
    rintro ⟨i, hi, hblock⟩
    exact ⟨i, hi, hgood.pending_held i hi, hblock⟩
  · exact hgood.unique i ((hgood.valid_iff i).mp hi) j ((hgood.valid_iff j).mp hj)
  · rw [hashWalk, (hgood.links.hash.chain _).walk_eq (hgood.links.chain_length_le _)]
    exact (hgood.links.hash.hashed _ i).mpr ⟨(hgood.valid_iff i).mp hi, rfl⟩
  · rw [lruWalk, hgood.links.listed.list.fwd.walk_eq hgood.links.length_le]
    exact List.count_eq_one_of_mem hgood.links.listed.list.nodup ((hgood.valid_iff i).mp hi)
  · refine (hsound.dirty i hi).imp ?_ id
    rintro ⟨hdirty, hblock⟩
    exact ⟨(hgood'.valid_iff i).mpr (hgood'.dirty i hdirty), hdirty, hblock⟩

def slowDrive : Ata := ⟨fun n => n != 0, fun _ _ => 255⟩

def oneBlock : Machine :=
  let m₁ := (Op.overwrite 5 fun _ => 7).run slowDrive (initMachine fun _ _ => 0)
  let m₂ := (Op.markDirty 0).run slowDrive m₁
  (Op.release 0).run slowDrive m₂

theorem oneBlock_run : Run (Step slowDrive) (initMachine fun _ _ => 0)
    [.overwrite 5 fun _ => 7, .markDirty 0, .release 0] oneBlock := by
  have hmiss : hashFind (initMachine fun _ _ => 0).cache 5 = none := by decide +kernel
  refine .cons ⟨fun b hb => ?_, rfl⟩ (.cons ⟨?_, rfl⟩ (.cons ⟨?_, rfl⟩ (.nil _)))
  · simp [hmiss] at hb
  · show 0 < _
    decide +kernel
  · show 0 ∈ _ → _
    decide +kernel

/-- The flush fails: the device holds junk, the entry stays dirty and the
abstract disk does not change. -/
theorem bcache_refines_disk_failedFlush :
    absDisk (Op.flushAll.run slowDrive oneBlock).cache 5 0 = 7 ∧
      (Op.flushAll.run slowDrive oneBlock).cache.device 5 0 = 255 ∧
      ((Op.flushAll.run slowDrive oneBlock).cache.pool 0).dirty = true := by
  obtain ⟨-, -, -, habs, -⟩ := @bcache_refines_disk (fun _ _ => 0) oneBlock
    (Op.flushAll.run slowDrive oneBlock) .flushAll slowDrive _ oneBlock_run ⟨trivial, rfl⟩
  refine ⟨?_, by decide +kernel, by decide +kernel⟩
  rw [habs]
  decide +kernel

/-- On a drive that works, the loop leaves dirty only what it does not come to. -/
theorem flushLoop_dirty {i fuel : Nat} {p : Option Nat} {c : Cache} {l : List Nat}
    (hi : ((flushLoop o fuel p c).pool i).dirty = true) (hchain : Chain c.lruNext p l)
    (hfuel : l.length ≤ fuel) (hok : ∀ n, c.transfers ≤ n → o.ok n = true) :
    (c.pool i).dirty = true ∧ i ∉ l := by
  induction l generalizing c p fuel with
  | nil =>
    obtain rfl := hchain
    cases fuel <;> exact ⟨hi, List.not_mem_nil⟩
  | cons b l ih =>
    obtain ⟨rfl, hrest⟩ := hchain
    obtain ⟨fuel, rfl⟩ := Nat.exists_eq_add_of_lt hfuel
    have hle : l.length ≤ l.length + fuel := Nat.le_add_right ..
    rw [flushLoop] at hi
    split at hi
    next hb =>
      obtain ⟨stored, -, heq⟩ := writeBack_eq (o := o) hb
      rw [heq, hok _ le_rfl] at hi
      obtain ⟨hi, hil⟩ := ih hi hrest hle fun n hn => hok n (Nat.le_of_succ_le hn)
      have hib : i ≠ b := by
        rintro rfl
        simp at hi
      simp only [update_of_ne hib] at hi
      exact ⟨hi, by simp [hib, hil]⟩
    next hb =>
      obtain ⟨hi, hil⟩ := ih hi hrest hle hok
      have hib : i ≠ b := fun h => hb (h ▸ hi)
      exact ⟨hi, by simp [hib, hil]⟩

/-- Once the drive works, `bcache_flush_all` brings every block to the device that no
caller is in the middle of changing. -/
theorem flush_all_durable {ops : List Op} (hrun : Run (Step o) (initMachine device) ops m)
    (hok : ∀ n, m.cache.transfers ≤ n → o.ok n = true) {x : Nat}
    (hx : ∀ i ∈ m.pending, (m.cache.pool i).blockNum ≠ x) :
    (bcacheFlushAll o m.cache).device x = absDisk m.cache x := by
  have hinv : Inv device m :=
    hrun.invariant (fun _ _ _ hs hstep => step_inv hs hstep) (inv_init device)
  obtain ⟨lru, chains, hgood⟩ := hinv.good
  obtain ⟨hgood', hquiet⟩ : Good (bcacheFlushAll o m.cache) m.pending lru chains ∧
      Quiet m.cache (bcacheFlushAll o m.cache) := flushLoop_spec hgood
  rw [← hquiet.abs]
  rcases hgood'.absDisk_cases x with ⟨i, hi, rfl, habs⟩ | ⟨-, habs⟩
  · rw [habs]
    refine (hgood'.clean i hi ?_ fun hpend => ?_).symm
    · by_contra hd
      obtain ⟨hdirty, hnot⟩ := flushLoop_dirty (Bool.eq_true_of_not_eq_false hd)
        hgood.links.listed.list.fwd hgood.links.length_le hok
      exact hnot (hgood.dirty i hdirty)
    · exact hx i hpend (hquiet.held i (hgood.pending_held i hpend)).2.2.symm
  · exact habs.symm

def steadyDrive : Ata := ⟨fun _ => true, fun _ _ => 0⟩

def dirtyBlock : Machine :=
  (Op.markDirty 0).run steadyDrive
    ((Op.overwrite 5 fun _ => 7).run steadyDrive (initMachine fun _ _ => 0))

theorem flush_all_durable_dirtyBlock :
    (bcacheFlushAll steadyDrive dirtyBlock.cache).device 5 = absDisk dirtyBlock.cache 5 := by
  have hmiss : hashFind (initMachine fun _ _ => 0).cache 5 = none := by decide +kernel
  have hrun : Run (Step steadyDrive) (initMachine fun _ _ => 0)
      [.overwrite 5 fun _ => 7, .markDirty 0] dirtyBlock := by
    refine .cons ⟨fun b hb => ?_, rfl⟩ (.cons ⟨?_, rfl⟩ (.nil _))
    · simp [hmiss] at hb
    · show 0 < _
      decide +kernel
  exact flush_all_durable hrun (fun _ _ => rfl) (by decide +kernel)

end Kyuzen.Bcache
