import Kyuzen.Kfs.Balloc

/-!
`kfs_extent.c`, first half: the extent list of an inode (four direct slots, the
rest in the indirect block) and its growth.
-/

namespace Kyuzen.Kfs

/-- Entry `k` of an indirect block: a packed `struct kzfs_extent` of 12 bytes. -/
def readExtent (b : Buf) (k : Nat) : Extent :=
  ⟨getLe b (k * 12) 8, getLe b (k * 12 + 8) 4⟩

def writeExtent (b : Buf) (k : Nat) (e : Extent) : Buf :=
  putLe (putLe b (k * 12) 8 e.startBlock) (k * 12 + 8) 4 e.blockCount

def extGetNolock (v : Vol) (inn : InodeMem) (n : Nat) : Except Rc Extent :=
  if h : n < 4 then .ok (inn.direct ⟨n, h⟩)
  else if n - 4 ≥ 341 then .error .einval
  else if inn.indirectExtentBlock = 0 then .ok ⟨0, 0⟩
  else
    match bcacheRead v inn.indirectExtentBlock with
    | none => .error .eio
    | some b => .ok (readExtent b (n - 4))

/-- The last part of `ext_set_nolock`: entry `k` of the indirect block. -/
def setIndirect (v : Vol) (inn : InodeMem) (k : Nat) (e : Extent) : Rc × Vol × InodeMem :=
  match bcacheRead v inn.indirectExtentBlock with
  | none => (.eio, v, inn)
  | some b => (.eok, v.putBlock inn.indirectExtentBlock (writeExtent b k e), inn)

def extSetNolock (v : Vol) (inn : InodeMem) (n : Nat) (e : Extent) : Rc × Vol × InodeMem :=
  if h : n < 4 then
    (.eok, v, {inn with direct := Function.update inn.direct ⟨n, h⟩ e, dirty := true})
  else if n - 4 ≥ 341 then (.einval, v, inn)
  else if inn.indirectExtentBlock = 0 then
    let (start, _, v') := blkAllocRunNolock v 1
    if start = 0 then (.enospc, v', inn)
    else
      let inn' := {inn with
        indirectExtentBlock := start, blocksUsed := inn.blocksUsed + 1, dirty := true}
      match bcacheGet v' start with
      | none => (.eio, v', inn')
      | some zb => setIndirect (v'.putBlock start (memset zb 0 0 4096)) inn' (n - 4) e
  else setIndirect v inn (n - 4) e

/-- The scan of `kzfs_get_phys_block` from slot `n` on. -/
def physLoop (v : Vol) (inn : InodeMem) (logicalBlock : Nat) : Nat → Nat → Nat → Option Nat
  | 0, _, _ => none
  | fuel + 1, n, cursor =>
    match extGetNolock v inn n with
    | .error _ => none
    | .ok e =>
      if e.blockCount = 0 then
        if n < 4 then physLoop v inn logicalBlock fuel (n + 1) cursor else none
      else if logicalBlock < cursor + e.blockCount then
        some (e.startBlock + (logicalBlock - cursor))
      else physLoop v inn logicalBlock fuel (n + 1) (cursor + e.blockCount)

def kzfsGetPhysBlock (v : Vol) (inn : InodeMem) (logicalBlock : Nat) : Option Nat :=
  physLoop v inn logicalBlock 345 0 0

/-- Whether slot `n` is not the last used one: the next slot holds an extent. -/
def innerSlot (v : Vol) (inn : InodeMem) (n : Nat) : Bool :=
  match extGetNolock v inn (n + 1) with
  | .error _ => false
  | .ok e => e.blockCount ≠ 0

/-- The scan of `ext_append_nolock` from slot `n` on. A merge into an inner
slot is counted in `innerMerges`. -/
def appendLoop (v : Vol) (inn : InodeMem) (start count : Nat) :
    Nat → Nat → Rc × Vol × InodeMem
  | 0, _ => (.einval, v, inn)
  | fuel + 1, n =>
    match extGetNolock v inn n with
    | .error _ => (.eio, v, inn)
    | .ok e =>
      if e.blockCount = 0 then extSetNolock v inn n ⟨start, count⟩
      else if e.startBlock + e.blockCount = start then
        let v' := if innerSlot v inn n then {v with innerMerges := v.innerMerges + 1} else v
        extSetNolock v' inn n ⟨e.startBlock, e.blockCount + count⟩
      else appendLoop v inn start count fuel (n + 1)

def extAppendNolock (v : Vol) (inn : InodeMem) (start count : Nat) : Rc × Vol × InodeMem :=
  appendLoop v inn start count 345 0

/-- The first loop of `grow_to_nolock`: the number of blocks covered. -/
def coveredLoop (v : Vol) (inn : InodeMem) : Nat → Nat → Nat → Except Rc Nat
  | 0, _, cursor => .ok cursor
  | fuel + 1, n, cursor =>
    match extGetNolock v inn n with
    | .error _ => .error .eio
    | .ok e =>
      if e.blockCount = 0 then .ok cursor
      else coveredLoop v inn fuel (n + 1) (cursor + e.blockCount)

/-- The second loop of `grow_to_nolock`. Each round covers at least one block,
so `fuel` rounds are enough for `logicalBlock + 1 - cursor ≤ fuel`. -/
def growLoop (logicalBlock : Nat) : Nat → Vol → InodeMem → Nat → Rc × Vol × InodeMem
  | 0, v, inn, _ => (.eok, v, inn)
  | fuel + 1, v, inn, cursor =>
    if logicalBlock < cursor then (.eok, v, inn)
    else
      let need := logicalBlock - cursor + 1
      let want := if need > 64 then 64 else need
      let (start, got, v1) := blkAllocRunNolock v want
      if start = 0 then (.enospc, v1, inn)
      else
        match extAppendNolock v1 inn start got with
        | (.eok, v2, inn2) =>
          growLoop logicalBlock fuel v2
            {inn2 with blocksUsed := inn2.blocksUsed + got, dirty := true} (cursor + got)
        | (rc, v2, inn2) => (rc, blkFreeRunNolock v2 start got, inn2)

def growToNolock (v : Vol) (inn : InodeMem) (logicalBlock : Nat) : Rc × Vol × InodeMem :=
  match coveredLoop v inn 345 0 0 with
  | .error rc => (rc, v, inn)
  | .ok cursor =>
    if logicalBlock < cursor then (.eok, v, inn)
    else growLoop logicalBlock (logicalBlock + 1 - cursor) v inn cursor

end Kyuzen.Kfs
