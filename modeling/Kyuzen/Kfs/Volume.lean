import Kyuzen.Base.Bytes

/-!
The state that the KyuzenFS V4 block layer works on: the superblock and the two
bitmaps in RAM, the layout globals, and the disk as the block cache shows it.
The numeric constants of the source stand for themselves below:

* `KZFS_BLOCK_SIZE` = 4096, `KZFS_INODE_SIZE` = 128, `KZFS_INODES_PER_BLOCK` = 32;
* `KZFS_NUM_DIRECT_EXTENTS` = 4, `KZFS_EXTS_PER_IND_BLOCK` = 341,
  `KZFS_MAX_EXTENTS` = 345;
* `KZFS_NAME_MAX` = 255, `KZFS_DIRENT_MIN_REC` = 12.
-/

namespace Kyuzen.Kfs

/-- The `KZFS_E*` results. -/
inductive Rc where
  | eok
  | enoent
  | eio
  | enospc
  | einval
  | eexist
  | enotdir
  | eisdir
  | enomem
  | enametoolong
  deriving DecidableEq, Repr

/-- The `kmalloc` calls of the filesystem and of the descriptor layer, by call
site. -/
inductive KmallocSite where
  | addEntryBlock
  | addEntryRecord
  | lookupBlock
  | removeBlock
  | readIndexBlock
  | vnodeWrap
  | initDotsBlock
  | openAlloc
  deriving DecidableEq, Repr

/-- What the surroundings decide while a call runs: for which blocks the block
cache returns a buffer, which `kmalloc` calls succeed, and the old bytes that a
fresh `kmalloc` buffer holds. -/
structure Env where
  io : Nat → Bool
  kmalloc : KmallocSite → Bool
  heap : Buf

/-- `struct kzfs_superblock`, without its padding. -/
structure Superblock where
  magic : Nat
  version : Nat
  blockSize : Nat
  totalBlocks : Nat
  freeBlocks : Nat
  totalInodes : Nat
  freeInodes : Nat
  blockBitmapStart : Nat
  blockBitmapBlocks : Nat
  inodeBitmapStart : Nat
  inodeBitmapBlocks : Nat
  inodeTableStart : Nat
  inodeTableBlocks : Nat
  dataBlocksStart : Nat
  rootInode : Nat
  deriving DecidableEq, Repr

/-- `struct kzfs_extent`. -/
structure Extent where
  startBlock : Nat
  blockCount : Nat
  deriving DecidableEq, Repr

def Extent.stop (e : Extent) : Nat := e.startBlock + e.blockCount

/-- `kzfs_v4_inode_mem_t`. -/
structure InodeMem where
  ino : Nat
  mode : Nat
  linksCount : Nat
  sizeBytes : Nat
  blocksUsed : Nat
  direct : Fin 4 → Extent
  indirectExtentBlock : Nat
  dirty : Bool
  refcount : Nat

/-- `KZFS_INODE_FLAG_FILE` and `KZFS_INODE_FLAG_DIR`. -/
def flagFile : Nat := 1
def flagDir : Nat := 2

/-- The globals of `kfs_super.c` that the block layer reads, and the disk.
`disk b` is what a successful `bcache_read(b)` returns. The last field is no
state of the source: it counts how often `ext_append_nolock` merged a new run
into an extent that was not the last one of its list. -/
structure Vol where
  disk : Nat → Buf
  env : Env
  sb : Superblock
  bmMem : Buf
  bmDirty : Bool
  ibmMem : Buf
  ibmDirty : Bool
  bmBlocks : Nat
  ibmBlocks : Nat
  itBlock0 : Nat
  dataStart : Nat
  rootIno : Nat
  innerMerges : Nat

/-- `bcache_read`: `none` is the NULL of a failed read. -/
def bcacheRead (v : Vol) (b : Nat) : Option Buf :=
  if v.env.io b then some (v.disk b) else none

/-- `bcache_get`: the same buffer without reading the disk. Every caller
overwrites all 4096 bytes, so the bytes found in it do not matter. -/
def bcacheGet (v : Vol) (b : Nat) : Option Buf :=
  if v.env.io b then some (v.disk b) else none

/-- A changed buffer after `bcache_mark_dirty` and `bcache_release`. -/
def Vol.putBlock (v : Vol) (b : Nat) (data : Buf) : Vol :=
  {v with disk := fun b' => if b' = b then data else v.disk b'}

/-- Every block access and every `kmalloc` succeeds. -/
def Vol.NoFault (v : Vol) : Prop :=
  (∀ b, v.env.io b = true) ∧ ∀ site, v.env.kmalloc site = true

end Kyuzen.Kfs
