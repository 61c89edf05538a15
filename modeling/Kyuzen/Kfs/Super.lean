import Kyuzen.Kfs.Dir

/-!
`kfs_super.c`: the superblock and the bitmaps on disk, and the layout that
`kfs_format_locked` computes. The inode table slots of `kfs_inode.c` stand here
too, since they are the third kind of metadata on disk.
-/

namespace Kyuzen.Kfs

/-- `memcpy(b->data, &sb_cache, 4096)`: the packed struct, padding zero. -/
def superblockBytes (sb : Superblock) : Buf :=
  let b0 : Buf := fun _ => 0
  let b1 := putLe (putLe (putLe b0 0 4 sb.magic) 4 4 sb.version) 8 4 sb.blockSize
  let b2 := putLe (putLe b1 16 8 sb.totalBlocks) 24 8 sb.freeBlocks
  let b3 := putLe (putLe b2 32 4 sb.totalInodes) 36 4 sb.freeInodes
  let b4 := putLe (putLe b3 40 8 sb.blockBitmapStart) 48 4 sb.blockBitmapBlocks
  let b5 := putLe (putLe b4 56 8 sb.inodeBitmapStart) 64 4 sb.inodeBitmapBlocks
  let b6 := putLe (putLe b5 72 8 sb.inodeTableStart) 80 4 sb.inodeTableBlocks
  putLe (putLe b6 88 8 sb.dataBlocksStart) 96 4 sb.rootInode

/-- `memcpy(&sb_cache, b->data, 4096)`. -/
def superblockOfBytes (b : Buf) : Superblock where
  magic := getLe b 0 4
  version := getLe b 4 4
  blockSize := getLe b 8 4
  totalBlocks := getLe b 16 8
  freeBlocks := getLe b 24 8
  totalInodes := getLe b 32 4
  freeInodes := getLe b 36 4
  blockBitmapStart := getLe b 40 8
  blockBitmapBlocks := getLe b 48 4
  inodeBitmapStart := getLe b 56 8
  inodeBitmapBlocks := getLe b 64 4
  inodeTableStart := getLe b 72 8
  inodeTableBlocks := getLe b 80 4
  dataBlocksStart := getLe b 88 8
  rootInode := getLe b 96 4

def kzfsMagic : Nat := 0x53465A4B

def sbLoad (v : Vol) : Rc × Vol :=
  match bcacheRead v 0 with
  | none => (.eio, v)
  | some b =>
    let v' := {v with sb := superblockOfBytes b}
    if v'.sb.magic ≠ kzfsMagic then (.einval, v') else (.eok, v')

def sbSave (v : Vol) : Rc × Vol :=
  match bcacheGet v 0 with
  | none => (.eio, v)
  | some b => (.eok, v.putBlock 0 (memcpy b 0 (superblockBytes v.sb) 0 4096))

/-- `layout_compute`, as the superblock it stores. -/
def layoutCompute (totalBlocks : Nat) : Superblock :=
  let t0 := totalBlocks / 16
  let t1 := if t0 > 262144 then 262144 else t0
  let t2 := if t1 < 512 then 512 else t1
  let cap := totalBlocks * (4096 / 128) / 2
  let totalInodes := if t2 > cap then cap else t2
  let bmBytes := (totalBlocks + 7) / 8
  let bmBlocks := (bmBytes + 4096 - 1) / 4096
  let ibBytes := (totalInodes + 7) / 8
  let ibBlocks := (ibBytes + 4096 - 1) / 4096
  let itBlocks := (totalInodes + 32 - 1) / 32
  let dataBlocksStart := 1 + bmBlocks + ibBlocks + itBlocks
  { magic := kzfsMagic
    version := 0x00040000
    blockSize := 4096
    totalBlocks := totalBlocks
    freeBlocks := totalBlocks - dataBlocksStart
    totalInodes := totalInodes
    freeInodes := totalInodes - 1
    blockBitmapStart := 1
    blockBitmapBlocks := bmBlocks
    inodeBitmapStart := 1 + bmBlocks
    inodeBitmapBlocks := ibBlocks
    inodeTableStart := 1 + bmBlocks + ibBlocks
    inodeTableBlocks := itBlocks
    dataBlocksStart := dataBlocksStart
    rootInode := 1 }

def layoutGlobalsLoad (v : Vol) : Vol :=
  {v with
    bmBlocks := v.sb.blockBitmapBlocks
    ibmBlocks := v.sb.inodeBitmapBlocks
    itBlock0 := v.sb.inodeTableStart
    dataStart := v.sb.dataBlocksStart
    rootIno := if v.sb.rootInode ≠ 0 then v.sb.rootInode else 1}

/-- The loop of `bm_flush` and `ibm_flush`: blocks `i ..< i + n` of the bitmap
`m` go to the disk blocks from `start + i` on. -/
def flushLoop (m : Buf) (start : Nat) : Nat → Nat → Vol → Rc × Vol
  | 0, _, v => (.eok, v)
  | n + 1, i, v =>
    match bcacheGet v (start + i) with
    | none => (.eio, v)
    | some b => flushLoop m start n (i + 1) (v.putBlock (start + i) (memcpy b 0 m (i * 4096) 4096))

def bmFlush (v : Vol) : Rc × Vol :=
  if v.bmDirty = false then (.eok, v)
  else
    match flushLoop v.bmMem v.sb.blockBitmapStart v.bmBlocks 0 v with
    | (.eok, v') => (.eok, {v' with bmDirty := false})
    | r => r

def ibmFlush (v : Vol) : Rc × Vol :=
  if v.ibmDirty = false then (.eok, v)
  else
    match flushLoop v.ibmMem v.sb.inodeBitmapStart v.ibmBlocks 0 v with
    | (.eok, v') => (.eok, {v' with ibmDirty := false})
    | r => r

/-- The loop of `mount_load_bitmaps` for one bitmap. -/
def loadLoop (v : Vol) (start : Nat) : Nat → Nat → Buf → Option Buf
  | 0, _, m => some m
  | n + 1, i, m =>
    match bcacheRead v (start + i) with
    | none => none
    | some b => loadLoop v start n (i + 1) (memcpy m (i * 4096) b 0 4096)

/-- `mount_load_bitmaps` (its two `kmalloc` calls succeed). -/
def mountLoadBitmaps (v : Vol) : Rc × Vol :=
  let v1 := layoutGlobalsLoad v
  match loadLoop v1 v1.sb.blockBitmapStart v1.bmBlocks 0 v.env.heap with
  | none => (.eio, v1)
  | some bm =>
    match loadLoop v1 v1.sb.inodeBitmapStart v1.ibmBlocks 0 v.env.heap with
    | none => (.eio, {v1 with bmMem := bm})
    | some ibm =>
      (.eok, {v1 with bmMem := bm, ibmMem := ibm, bmDirty := false, ibmDirty := false})

def slotBlock (v : Vol) (ino : Nat) : Nat := v.itBlock0 + (ino - 1) / 32
def slotOff (ino : Nat) : Nat := (ino - 1) % 32 * 128

/-- `ino_to_disk`: the packed 128-byte struct, unset fields zero. -/
def inodeBytes (inn : InodeMem) : Buf :=
  let b1 := putLe (putLe (fun _ => 0) 0 2 inn.mode) 6 2 inn.linksCount
  let b2 := putLe (putLe b1 8 8 inn.sizeBytes) 16 8 inn.blocksUsed
  let b3 := putLe (putLe b2 48 8 (inn.direct 0).startBlock) 56 4 (inn.direct 0).blockCount
  let b4 := putLe (putLe b3 60 8 (inn.direct 1).startBlock) 68 4 (inn.direct 1).blockCount
  let b5 := putLe (putLe b4 72 8 (inn.direct 2).startBlock) 80 4 (inn.direct 2).blockCount
  let b6 := putLe (putLe b5 84 8 (inn.direct 3).startBlock) 92 4 (inn.direct 3).blockCount
  putLe b6 96 8 inn.indirectExtentBlock

/-- `ino_from_disk`, from the slot at offset `off` of a block. -/
def inodeOfBytes (ino : Nat) (b : Buf) (off : Nat) : InodeMem where
  ino := ino
  mode := getLe b off 2
  linksCount := getLe b (off + 6) 2
  sizeBytes := getLe b (off + 8) 8
  blocksUsed := getLe b (off + 16) 8
  direct i := ⟨getLe b (off + 48 + 12 * i.val) 8, getLe b (off + 56 + 12 * i.val) 4⟩
  indirectExtentBlock := getLe b (off + 96) 8
  dirty := false
  refcount := 0

/-- `ino_disk_read` followed by `ino_from_disk`. -/
def inoDiskRead (v : Vol) (ino : Nat) : Option InodeMem :=
  (bcacheRead v (slotBlock v ino)).map fun b => inodeOfBytes ino b (slotOff ino)

def inoSyncNolock (v : Vol) (inn : InodeMem) : Rc × Vol :=
  match bcacheRead v (slotBlock v inn.ino) with
  | none => (.eio, v)
  | some b =>
    (.eok, v.putBlock (slotBlock v inn.ino) (memcpy b (slotOff inn.ino) (inodeBytes inn) 0 128))

end Kyuzen.Kfs
