import Kyuzen.Base.Bytes
import Kyuzen.Base.Chain

/-!
The LRU block cache of `bcache.c`. Buffers are named by their index in `pool`,
a NULL pointer is `none`, and the three link fields of `struct block_buffer`
are maps of their own, so that a change of a link is a change of one map. The
locked sections run to their end without another one in between; the lock
itself is not modelled.

The drive decides each transfer: transfer number `n` succeeds when `ok n`. A
write that fails may have stored anything in its block, a read that fails may
have left anything in its buffer.
-/

namespace Kyuzen.Bcache

open Function

/-- `BCACHE_N_BLOCKS`, which is also `BCACHE_HASH_SIZE`. -/
def nBlocks : Nat := 256

/-- `struct block_buffer`, without its links. -/
structure Buffer where
  blockNum : Nat
  refcount : Nat
  dirty : Bool
  valid : Bool
  data : Buf

/-- The statics of `bcache.c`, the blocks of the device, and the number of
transfers made so far. -/
structure Cache where
  pool : Nat → Buffer
  hashNext : Nat → Option Nat
  lruPrev : Nat → Option Nat
  lruNext : Nat → Option Nat
  hashTable : Nat → Option Nat
  lruHead : Option Nat
  lruTail : Option Nat
  statHit : Nat
  statMiss : Nat
  device : Nat → Buf
  transfers : Nat

/-- The outcome of every transfer, and the bytes that a failed one leaves. -/
structure Ata where
  ok : Nat → Bool
  junk : Nat → Buf

/-- `bcache_init` on a device, after its `kmalloc` succeeded. -/
def bcacheInit (device : Nat → Buf) : Cache where
  pool := fun _ => ⟨0, 0, false, false, fun _ => 0⟩
  hashNext := fun _ => none
  lruPrev := fun _ => none
  lruNext := fun _ => none
  hashTable := fun _ => none
  lruHead := none
  lruTail := none
  statHit := 0
  statMiss := 0
  device := device
  transfers := 0

def Cache.setBuffer (c : Cache) (b : Nat) (buffer : Buffer) : Cache :=
  {c with pool := update c.pool b buffer}

def ataWriteBlock4k (o : Ata) (c : Cache) (block : Nat) (data : Buf) : Bool × Cache :=
  let stored := if o.ok c.transfers then data else o.junk c.transfers
  (o.ok c.transfers,
    {c with device := update c.device block stored, transfers := c.transfers + 1})

/-- `ata_read_block4k` into the buffer `b`. -/
def ataReadBlock4k (o : Ata) (c : Cache) (block b : Nat) : Bool × Cache :=
  let loaded := if o.ok c.transfers then c.device block else o.junk c.transfers
  (o.ok c.transfers,
    {c.setBuffer b {c.pool b with data := loaded} with transfers := c.transfers + 1})

/-! ### LRU list -/

def lruUnlink (c : Cache) (b : Nat) : Cache :=
  let c₁ :=
    match c.lruPrev b with
    | some p => {c with lruNext := update c.lruNext p (c.lruNext b)}
    | none => {c with lruHead := c.lruNext b}
  let c₂ :=
    match c₁.lruNext b with
    | some n => {c₁ with lruPrev := update c₁.lruPrev n (c₁.lruPrev b)}
    | none => {c₁ with lruTail := c₁.lruPrev b}
  {c₂ with
    lruPrev := update c₂.lruPrev b none
    lruNext := update c₂.lruNext b none}

def lruPushFront (c : Cache) (b : Nat) : Cache :=
  -- a node that is still linked is unlinked first
  let linked := (c.lruPrev b).isSome || (c.lruNext b).isSome || c.lruHead == some b ||
    c.lruTail == some b
  let c₁ := if linked then lruUnlink c b else c
  {c₁ with
    lruPrev := setLink (update c₁.lruPrev b none) c₁.lruHead (some b)
    lruNext := update c₁.lruNext b c₁.lruHead
    lruHead := some b
    lruTail := if c₁.lruTail.isSome then c₁.lruTail else some b}

def lruTouch (c : Cache) (b : Nat) : Cache :=
  if c.lruHead = some b then c else lruPushFront (lruUnlink c b) b

/-! ### Hash map -/

def bhash (block : Nat) : Nat := block &&& (nBlocks - 1)

/-- The loop of `hash_find`; a chain has at most `nBlocks` entries. -/
def hashFindLoop (c : Cache) (block : Nat) : Nat → Option Nat → Option Nat
  | 0, _ => none
  | _ + 1, none => none
  | fuel + 1, some e =>
    if (c.pool e).valid && (c.pool e).blockNum == block then some e
    else hashFindLoop c block fuel (c.hashNext e)

def hashFind (c : Cache) (block : Nat) : Option Nat :=
  hashFindLoop c block nBlocks (c.hashTable (bhash block))

def hashInsert (c : Cache) (b : Nat) : Cache :=
  let h := bhash (c.pool b).blockNum
  {c with
    hashNext := update c.hashNext b (c.hashTable h)
    hashTable := update c.hashTable h (some b)}

/-- What the `pp` of `hash_remove` points to: a table slot or the `hash_next`
of a buffer. -/
inductive Link where
  | table (h : Nat)
  | next (e : Nat)

def Cache.link (c : Cache) : Link → Option Nat
  | .table h => c.hashTable h
  | .next e => c.hashNext e

def Cache.setLink (c : Cache) (pp : Link) (v : Option Nat) : Cache :=
  match pp with
  | .table h => {c with hashTable := update c.hashTable h v}
  | .next e => {c with hashNext := update c.hashNext e v}

def hashRemoveLoop (c : Cache) (b : Nat) : Nat → Link → Cache
  | 0, _ => c
  | fuel + 1, pp =>
    match c.link pp with
    | none => c
    | some e =>
      if e = b then
        let c₁ := c.setLink pp (c.hashNext b)
        {c₁ with hashNext := update c₁.hashNext b none}
      else hashRemoveLoop c b fuel (.next e)

def hashRemove (c : Cache) (b : Nat) : Cache :=
  hashRemoveLoop c b nBlocks (.table (bhash (c.pool b).blockNum))

/-! ### Allocation of an entry -/

/-- The write-back of a dirty entry, which becomes clean when it succeeds. -/
def writeBack (o : Ata) (c : Cache) (b : Nat) : Bool × Cache :=
  let r := ataWriteBlock4k o c (c.pool b).blockNum (c.pool b).data
  (r.1, if r.1 then r.2.setBuffer b {r.2.pool b with dirty := false} else r.2)

/-- The first pool entry that is neither valid, dirty nor referenced. -/
def freeSlot (c : Cache) : Option Nat :=
  (List.range nBlocks).find? fun i =>
    !(c.pool i).valid && !(c.pool i).dirty && (c.pool i).refcount == 0

/-- An entry leaves the hash map and the LRU list and is no longer valid. -/
def evict (c : Cache) (b : Nat) : Cache :=
  let c₁ := lruUnlink (hashRemove c b) b
  c₁.setBuffer b {c₁.pool b with valid := false}

/-- The walk from the LRU tail: referenced entries and entries whose write-back
fails are passed over. -/
def evictLoop (o : Ata) : Nat → Option Nat → Cache → Option Nat × Cache
  | 0, _, c => (none, c)
  | _ + 1, none, c => (none, c)
  | fuel + 1, some b, c =>
    if 0 < (c.pool b).refcount then evictLoop o fuel (c.lruPrev b) c
    else if (c.pool b).dirty then
      let r := writeBack o c b
      if r.1 then (some b, evict r.2 b) else evictLoop o fuel (r.2.lruPrev b) r.2
    else (some b, evict c b)

def allocEntryLocked (o : Ata) (c : Cache) : Option Nat × Cache :=
  match freeSlot c with
  | some i => (some i, c)
  | none => evictLoop o nBlocks c.lruTail c

/-! ### Public operations -/

/-- A hit of `bcache_get` or `bcache_read`. -/
def hit (c : Cache) (b : Nat) : Cache :=
  let c₁ := c.setBuffer b {c.pool b with refcount := ((c.pool b).refcount + 1) % 2 ^ 32}
  {lruTouch c₁ b with statHit := c.statHit + 1}

/-- An allocated entry becomes the one of `block`. -/
def claimEntry (c : Cache) (b block : Nat) (valid : Bool) : Cache :=
  let c₁ := c.setBuffer b
    {c.pool b with blockNum := block, refcount := 1, dirty := false, valid := valid}
  lruPushFront (hashInsert c₁ b) b

def bcacheGet (o : Ata) (c : Cache) (block : Nat) : Option Nat × Cache :=
  match hashFind c block with
  | some b => (some b, hit c b)
  | none =>
    match allocEntryLocked o {c with statMiss := c.statMiss + 1} with
    | (none, c₁) => (none, c₁)
    | (some b, c₁) => (some b, claimEntry c₁ b block true)

/-- The end of a `bcache_read` whose transfer failed. -/
def abandonEntry (c : Cache) (b : Nat) : Cache :=
  let c₁ := hashRemove c b
  let c₂ := lruUnlink (c₁.setBuffer b {c₁.pool b with valid := false}) b
  c₂.setBuffer b {c₂.pool b with refcount := 0}

def bcacheRead (o : Ata) (c : Cache) (block : Nat) : Option Nat × Cache :=
  match hashFind c block with
  | some b => (some b, hit c b)
  | none =>
    match allocEntryLocked o {c with statMiss := c.statMiss + 1} with
    | (none, c₁) => (none, c₁)
    | (some b, c₁) =>
      let r := ataReadBlock4k o (claimEntry c₁ b block false) block b
      if r.1 then (some b, r.2.setBuffer b {r.2.pool b with valid := true})
      else (none, abandonEntry r.2 b)

def bcacheMarkDirty (c : Cache) (b : Nat) : Cache :=
  c.setBuffer b {c.pool b with dirty := true}

/-- The result is whether the entry is clean now. -/
def bcacheSyncBlock (o : Ata) (c : Cache) (b : Nat) : Bool × Cache :=
  if (c.pool b).dirty then writeBack o c b else (true, c)

def bcacheRelease (c : Cache) (b : Nat) : Cache :=
  if 0 < (c.pool b).refcount then
    c.setBuffer b {c.pool b with refcount := (c.pool b).refcount - 1}
  else c

def flushLoop (o : Ata) : Nat → Option Nat → Cache → Cache
  | 0, _, c => c
  | _ + 1, none, c => c
  | fuel + 1, some b, c =>
    let c₁ := if (c.pool b).dirty then (writeBack o c b).2 else c
    flushLoop o fuel (c₁.lruNext b) c₁

def bcacheFlushAll (o : Ata) (c : Cache) : Cache := flushLoop o nBlocks c.lruHead c

end Kyuzen.Bcache
