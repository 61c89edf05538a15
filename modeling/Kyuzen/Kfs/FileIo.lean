import Kyuzen.Kfs.Extent

/-!
`kfs_extent.c`, second half: reading and writing a file block by block, and
cutting it.
-/

namespace Kyuzen.Kfs

/-- The loop of `blk_read_file`; the last two results are `buf` and `*nread`. -/
def readLoop (v : Vol) (inn : InodeMem) :
    Nat → Nat → Nat → Buf → Nat → Rc × Buf × Nat
  | 0, _, _, buf, nread => (.eok, buf, nread)
  | fuel + 1, fileOff, count, buf, nread =>
    if count = 0 then (.eok, buf, nread)
    else
      let lb := fileOff / 4096
      let boff := fileOff % 4096
      let chunk := if 4096 - boff > count then count else 4096 - boff
      match kzfsGetPhysBlock v inn lb with
      | none =>
        readLoop v inn fuel (fileOff + chunk) (count - chunk)
          (memset buf nread 0 chunk) (nread + chunk)
      | some phys =>
        match bcacheRead v phys with
        | none => (.eio, buf, nread)
        | some b =>
          readLoop v inn fuel (fileOff + chunk) (count - chunk)
            (memcpy buf nread b boff chunk) (nread + chunk)

def blkReadFile (v : Vol) (inn : InodeMem) (fileOff : Nat) (buf : Buf) (count : Nat) :
    Rc × Buf × Nat :=
  if fileOff ≥ inn.sizeBytes then (.eok, buf, 0)
  else
    let count' := if count > inn.sizeBytes - fileOff then inn.sizeBytes - fileOff else count
    readLoop v inn count' fileOff count' buf 0

/-- The block of a write: the mapped one, or the one that `grow_to_nolock` adds. -/
def writeTarget (v : Vol) (inn : InodeMem) (lb : Nat) : Except Rc Nat × Vol × InodeMem :=
  match kzfsGetPhysBlock v inn lb with
  | some phys => (.ok phys, v, inn)
  | none =>
    match growToNolock v inn lb with
    | (.eok, v', inn') =>
      match kzfsGetPhysBlock v' inn' lb with
      | some phys => (.ok phys, v', inn')
      | none => (.error .eio, v', inn')
    | (rc, v', inn') => (.error rc, v', inn')

/-- The loop of `blk_write_file`; the last result is `*nwritten`. -/
def writeLoop (buf : Buf) :
    Nat → Vol → InodeMem → Nat → Nat → Nat → Rc × Vol × InodeMem × Nat
  | 0, v, inn, _, _, nwritten => (.eok, v, inn, nwritten)
  | fuel + 1, v, inn, fileOff, count, nwritten =>
    if count = 0 then (.eok, v, inn, nwritten)
    else
      let lb := fileOff / 4096
      let boff := fileOff % 4096
      let chunk := if 4096 - boff > count then count else 4096 - boff
      match writeTarget v inn lb with
      | (.error rc, v1, inn1) => (rc, v1, inn1, nwritten)
      | (.ok phys, v1, inn1) =>
        let block :=
          if boff = 0 ∧ chunk = 4096 then bcacheGet v1 phys else bcacheRead v1 phys
        match block with
        | none => (.eio, v1, inn1, nwritten)
        | some b =>
          let v2 := v1.putBlock phys (memcpy b boff buf nwritten chunk)
          let size :=
            if fileOff + chunk > inn1.sizeBytes then fileOff + chunk else inn1.sizeBytes
          writeLoop buf fuel v2 {inn1 with sizeBytes := size, dirty := true}
            (fileOff + chunk) (count - chunk) (nwritten + chunk)

def blkWriteFile (v : Vol) (inn : InodeMem) (fileOff : Nat) (buf : Buf) (count : Nat) :
    Rc × Vol × InodeMem × Nat :=
  writeLoop buf count v inn fileOff count 0

/-- The extent loop of `truncate_nolock`: keep `newLb` blocks, free the others.
The results of `ext_set_nolock` are dropped, as in the source. -/
def truncateLoop (newLb : Nat) : Nat → Nat → Nat → Vol → InodeMem → Rc × Vol × InodeMem
  | 0, _, _, v, inn => (.eok, v, inn)
  | fuel + 1, n, cursor, v, inn =>
    match extGetNolock v inn n with
    | .error _ => (.eio, v, inn)
    | .ok e =>
      if e.blockCount = 0 then (.eok, v, inn)
      else
        let cursor' := cursor + e.blockCount
        if newLb ≤ cursor then
          let v1 := blkFreeRunNolock v e.startBlock e.blockCount
          let inn1 := {inn with blocksUsed := inn.blocksUsed - e.blockCount}
          let (_, v2, inn2) := extSetNolock v1 inn1 n ⟨0, 0⟩
          truncateLoop newLb fuel (n + 1) cursor' v2 inn2
        else if newLb < cursor' then
          let keep := newLb - cursor
          let v1 := blkFreeRunNolock v (e.startBlock + keep) (e.blockCount - keep)
          let inn1 := {inn with blocksUsed := inn.blocksUsed - (e.blockCount - keep)}
          let (_, v2, inn2) := extSetNolock v1 inn1 n ⟨e.startBlock, keep⟩
          truncateLoop newLb fuel (n + 1) cursor' v2 inn2
        else truncateLoop newLb fuel (n + 1) cursor' v inn

def anyIndirect (v : Vol) (inn : InodeMem) : Nat → Nat → Bool
  | 0, _ => false
  | fuel + 1, k =>
    match extGetNolock v inn (4 + k) with
    | .error _ => false
    | .ok e => if e.blockCount ≠ 0 then true else anyIndirect v inn fuel (k + 1)

/-- The indirect block goes when it holds no extent any more. -/
def dropIndirect (v : Vol) (inn : InodeMem) : Vol × InodeMem :=
  if inn.indirectExtentBlock = 0 then (v, inn)
  else if anyIndirect v inn 341 0 then (v, inn)
  else
    (blkFreeRunNolock v inn.indirectExtentBlock 1,
      {inn with blocksUsed := inn.blocksUsed - 1, indirectExtentBlock := 0, dirty := true})

def truncateNolock (v : Vol) (inn : InodeMem) (newSize : Nat) : Rc × Vol × InodeMem :=
  let newLb := if newSize = 0 then 0 else (newSize - 1) / 4096 + 1
  match truncateLoop newLb 345 0 0 v inn with
  | (.eok, v1, inn1) =>
    let (v2, inn2) := dropIndirect v1 inn1
    (.eok, v2, {inn2 with sizeBytes := newSize, dirty := true})
  | (rc, v1, inn1) => (rc, v1, inn1)

/-- The extent loop of `inode_free_all_extents`. -/
def freeExtentsLoop : Nat → Nat → Vol → InodeMem → Vol × InodeMem
  | 0, _, v, inn => (v, inn)
  | fuel + 1, n, v, inn =>
    match extGetNolock v inn n with
    | .error _ => (v, inn)
    | .ok e =>
      if e.blockCount = 0 then
        if n ≥ 4 then (v, inn) else freeExtentsLoop fuel (n + 1) v inn
      else
        let v1 := blkFreeRunNolock v e.startBlock e.blockCount
        let (_, v2, inn2) := extSetNolock v1 inn n ⟨0, 0⟩
        freeExtentsLoop fuel (n + 1) v2 inn2

def inodeFreeAllExtents (v : Vol) (inn : InodeMem) : Vol × InodeMem :=
  let (v1, inn1) := freeExtentsLoop 345 0 v inn
  let v2 :=
    if inn1.indirectExtentBlock = 0 then v1 else blkFreeRunNolock v1 inn1.indirectExtentBlock 1
  (v2, {inn1 with
    indirectExtentBlock := 0, blocksUsed := 0, sizeBytes := 0, dirty := true})

end Kyuzen.Kfs
