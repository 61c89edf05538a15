import Kyuzen.Kfs.Format

/-!
`tools/mkfs.kyuzenfs.c`, the formatter of the build host, beside the format of the
kernel. Its structures are copies of the kernel's, written at fixed offsets. The
two volumes are compared as a mount sees them: superblock, inode bitmap, number
of used blocks, and the inodes that the paths of the tree lead to.
-/

namespace Kyuzen.Kfs

variable {mb : Nat}

/-- `size_mb` of `main`: the second argument (0 when it is missing), else the size
of a file that exists, else 100, kept between 8 and 2048. -/
def mkfsSizeMb (arg : Nat) (existing : Option Nat) : Nat :=
  let s0 := if arg = 0 then (existing.getD 0) / (1024 * 1024) else arg
  let s1 := if s0 = 0 then 100 else s0
  let s2 := if s1 < 8 then 8 else s1
  if s2 > 2048 then 2048 else s2

def mkfsSuperblock (totalBlocks : Nat) : Superblock :=
  let t0 := totalBlocks / 16
  let t1 := if t0 > 262144 then 262144 else t0
  let t2 := if t1 < 512 then 512 else t1
  let cap := totalBlocks * (4096 / 128) / 2
  let totalInodes := if t2 > cap then cap else t2
  let bmBlocks := ((totalBlocks + 7) / 8 + 4096 - 1) / 4096
  let ibBlocks := ((totalInodes + 7) / 8 + 4096 - 1) / 4096
  let itBlocks := (totalInodes + 32 - 1) / 32
  let dataBlocksStart := 1 + bmBlocks + ibBlocks + itBlocks
  { magic := kzfsMagic
    version := 0x00040000
    blockSize := 4096
    totalBlocks := totalBlocks
    freeBlocks := totalBlocks - dataBlocksStart - 2
    totalInodes := totalInodes
    freeInodes := totalInodes - 2
    blockBitmapStart := 1
    blockBitmapBlocks := bmBlocks
    inodeBitmapStart := 1 + bmBlocks
    inodeBitmapBlocks := ibBlocks
    inodeTableStart := 1 + bmBlocks + ibBlocks
    inodeTableBlocks := itBlocks
    dataBlocksStart := dataBlocksStart
    rootInode := 1 }

/-- The fields that `main` sets in one inode of its table. The extents of its
structure are 16 bytes long, which shows in no field of the first one. -/
def mkfsInode (it : Buf) (off links block : Nat) : Buf :=
  let b1 := putLe (putLe it off 2 flagDir) (off + 6) 2 links
  let b2 := putLe (putLe b1 (off + 16) 8 1) (off + 8) 8 4096
  putLe (putLe b2 (off + 48) 8 block) (off + 56) 4 1

def mkfsDirent (blk : Buf) (off ino recLen : Nat) (name : Name) : Buf :=
  let b1 := putLe (putLe blk off 4 ino) (off + 4) 2 recLen
  memcpy (putLe (putLe b1 (off + 6) 1 name.length) (off + 7) 1 flagDir) (off + 8) (nameBuf name) 0
    name.length

def mkfsRootBlock : Buf :=
  mkfsDirent (mkfsDirent (mkfsDirent (fun _ => 0) 0 1 12 dotName) 12 1 12 dotdotName) 24 2 4072
    appsName
def mkfsAppsBlock : Buf :=
  mkfsDirent (mkfsDirent (fun _ => 0) 0 2 12 dotName) 12 1 4084 dotdotName

/-- The image file, by blocks, and the position in it. -/
structure Image where
  disk : Nat → Buf
  pos : Nat

/-- `fwrite` of `n` blocks. -/
def Image.fwrite (im : Image) (data : Buf) (n : Nat) : Image where
  disk b :=
    if im.pos ≤ b ∧ b < im.pos + n then fun j => data ((b - im.pos) * 4096 + j) else im.disk b
  pos := im.pos + n

/-- `main` from the layout on, over an image with the blocks `old`. Its `malloc`
calls succeed. The first result is the exit code. -/
def mkfs (old : Nat → Buf) (sizeMb : Nat) : Nat × (Nat → Buf) :=
  let t0 := sizeMb * 1024 * 1024 / 512
  let totalSectors := if t0 > 8 then t0 - 8 else t0
  let sb := mkfsSuperblock (totalSectors / 8)
  let bm := bmSetRun (fun _ => 0) 0 (sb.dataBlocksStart + 2)
  let ibm := bmSet (bmSet (fun _ => 0) 1) 2
  let it := mkfsInode (mkfsInode (fun _ => 0) 0 3 sb.dataBlocksStart) 128 2 (sb.dataBlocksStart + 1)
  let maps := ((Image.mk old 0).fwrite (superblockBytes sb) 1).fwrite bm sb.blockBitmapBlocks
  let head := maps.fwrite ibm sb.inodeBitmapBlocks
  let im := ((head.fwrite it sb.inodeTableBlocks).fwrite mkfsRootBlock 1).fwrite mkfsAppsBlock 1
  let target := totalSectors * 512
  if im.pos * 4096 > target then (1, im.disk)
  else
    let last := (target - 512) / 4096
    (0, fun b => if b = last then memset (im.disk b) ((target - 512) % 4096) 0 512 else im.disk b)

/-! ## What a mount sees -/

/-- The volume after `kfs_init` on a disk. -/
def mounted (disk : Nat → Buf) : Rc × Vol :=
  let r := kfsInit {blankFs with vol := {blankFs.vol with disk := disk}}
  (r.1, r.2.vol)

def walk (v : Vol) (path : List Name) : Option Nat :=
  path.foldlM (fun ino name => (dirLookupEntry v (diskInode v ino) name).toOption.map Prod.fst)
    v.rootIno

def attributes (v : Vol) (ino : Nat) : Nat × Nat × Nat × Nat × Nat :=
  let inn := diskInode v ino
  (ino, inn.mode, inn.linksCount, inn.sizeBytes, inn.blocksUsed)

def usedBlocks (v : Vol) : Nat :=
  ((Finset.range v.sb.totalBlocks).filter fun b => bmTest v.bmMem b = true).card

structure SameFs (disk disk' : Nat → Buf) : Prop where
  mounts : (mounted disk).1 = .eok ∧ (mounted disk').1 = .eok
  superblock : (mounted disk).2.sb = (mounted disk').2.sb
  inodeBitmap : ∀ i < (mounted disk).2.sb.totalInodes,
    bmTest (mounted disk).2.ibmMem i = bmTest (mounted disk').2.ibmMem i
  used : usedBlocks (mounted disk).2 = usedBlocks (mounted disk').2
  tree : ∀ path, (walk (mounted disk).2 path).map (attributes (mounted disk).2) =
    (walk (mounted disk').2 path).map (attributes (mounted disk').2)

structure Superblock.Fits (sb : Superblock) : Prop where
  magic : sb.magic < 2 ^ 32
  version : sb.version < 2 ^ 32
  blockSize : sb.blockSize < 2 ^ 32
  totalBlocks : sb.totalBlocks < 2 ^ 64
  freeBlocks : sb.freeBlocks < 2 ^ 64
  totalInodes : sb.totalInodes < 2 ^ 32
  freeInodes : sb.freeInodes < 2 ^ 32
  blockBitmapStart : sb.blockBitmapStart < 2 ^ 64
  blockBitmapBlocks : sb.blockBitmapBlocks < 2 ^ 32
  inodeBitmapStart : sb.inodeBitmapStart < 2 ^ 64
  inodeBitmapBlocks : sb.inodeBitmapBlocks < 2 ^ 32
  inodeTableStart : sb.inodeTableStart < 2 ^ 64
  inodeTableBlocks : sb.inodeTableBlocks < 2 ^ 32
  dataBlocksStart : sb.dataBlocksStart < 2 ^ 64
  rootInode : sb.rootInode < 2 ^ 32

theorem superblockOfBytes_superblockBytes {sb : Superblock} (h : sb.Fits) {b : Buf}
    (hb : ∀ j < 4096, b j = superblockBytes sb j) : superblockOfBytes b = sb := by
  have hword : ∀ off width, off + width ≤ 4096 →
      getLe b off width = getLe (superblockBytes sb) off width :=
    fun off width hle => getLe_congr off off width fun i hi => hb (off + i) (by omega)
  obtain ⟨h1, h2, h3, h4, h5, h6, h7, h8, h9, h10, h11, h12, h13, h14, h15⟩ := h
  rw [superblockOfBytes, Superblock.mk.injEq]
  refine ⟨?_, ?_, ?_, ?_, ?_, ?_, ?_, ?_, ?_, ?_, ?_, ?_, ?_, ?_, ?_⟩
  all_goals
    rw [hword _ _ (by decide)]
    simp (disch := omega) only [superblockBytes, getLe_putLe_disjoint]
    exact getLe_putLe_of_lt (by assumption)

theorem loadLoop_some {v : Vol} (hio : ∀ b, v.env.io b = true) (start n i : Nat) (m : Buf) :
    ∃ m', loadLoop v start n i m = some m' := by
  induction n generalizing i m with
  | zero => exact ⟨m, rfl⟩
  | succ n ih =>
    simp only [loadLoop, bcacheRead, hio, if_true]
    exact ih _ _

theorem mounted_spec {disk : Nat → Buf} {sb : Superblock} (hfits : sb.Fits)
    (hmagic : sb.magic = kzfsMagic) (hroot : sb.rootInode = 1)
    (h0 : ∀ j < 4096, disk 0 j = superblockBytes sb j) :
    (mounted disk).1 = .eok ∧ (mounted disk).2.sb = sb ∧ (mounted disk).2.disk = disk ∧
      (mounted disk).2.itBlock0 = sb.inodeTableStart ∧ (mounted disk).2.rootIno = 1 := by
  have hsb := superblockOfBytes_superblockBytes hfits h0
  have hload : ∀ v : Vol, v.env = blankFs.vol.env → v.disk = disk → v.sb = sb →
      (mountLoadBitmaps v).1 = .eok ∧ (mountLoadBitmaps v).2.sb = sb ∧
        (mountLoadBitmaps v).2.disk = disk ∧
        (mountLoadBitmaps v).2.itBlock0 = sb.inodeTableStart ∧
        (mountLoadBitmaps v).2.rootIno = 1 := by
    rintro v henv rfl rfl
    have hio : ∀ b, (layoutGlobalsLoad v).env.io b = true := by
      intro b
      change v.env.io b = true
      rw [henv]
      rfl
    obtain ⟨bm, hbm⟩ := loadLoop_some hio (layoutGlobalsLoad v).sb.blockBitmapStart
      (layoutGlobalsLoad v).bmBlocks 0 v.env.heap
    obtain ⟨ibm, hibm⟩ := loadLoop_some hio (layoutGlobalsLoad v).sb.inodeBitmapStart
      (layoutGlobalsLoad v).ibmBlocks 0 v.env.heap
    have hrun : mountLoadBitmaps v = (.eok, {layoutGlobalsLoad v with
        bmMem := bm, ibmMem := ibm, bmDirty := false, ibmDirty := false}) := by
      simp only [mountLoadBitmaps, hbm, hibm]
    rw [hrun]
    refine ⟨rfl, rfl, rfl, rfl, ?_⟩
    simp [layoutGlobalsLoad, hroot]
  have hread : sbLoad {blankFs.vol with disk := disk} =
      (.eok, {blankFs.vol with disk := disk, sb := sb}) := by
    change (let v' : Vol := {blankFs.vol with disk := disk, sb := superblockOfBytes (disk 0)}
      if v'.sb.magic ≠ kzfsMagic then (Rc.einval, v') else (.eok, v')) = _
    rw [hsb]
    exact if_neg (not_not.mpr hmagic)
  have hfinal := hload {blankFs.vol with disk := disk, sb := sb} rfl rfl rfl
  unfold mounted kfsInit
  dsimp only [inoCacheReset]
  rw [hread]
  exact hfinal

/-- The host computes the superblock that the kernel has after its format. -/
theorem mkfsSuperblock_eq (total : Nat) : mkfsSuperblock total = (layoutCompute total).afterApps :=
  rfl

theorem afterApps_fits {total : Nat} (hhigh : total ≤ 524287) :
    (layoutCompute total).afterApps.Fits := by
  unfold layoutCompute Superblock.afterApps
  constructor <;> dsimp only [kzfsMagic]
  all_goals first
    | decide
    | omega
    | (split_ifs <;> omega)

/-! ## The two roots -/

theorem Image.fwrite_before (im : Image) (data : Buf) (n : Nat) {b : Nat} (h : b < im.pos) :
    (im.fwrite data n).disk b = im.disk b :=
  if_neg (by omega)

open Image

theorem Image.fwrite_first (im : Image) (data : Buf) {n : Nat} (hn : 0 < n) :
    (im.fwrite data n).disk im.pos = data := by
  funext j
  simp [fwrite, hn]

theorem formatBlocks_mb (hlow : 8 ≤ mb) : formatBlocks (mb * 2048) = mb * 256 - 1 := by
  unfold formatBlocks
  dsimp only
  split_ifs <;> omega

theorem mkfs_spec (old : Nat → Buf) (hlow : 8 ≤ mb) (hhigh : mb ≤ 2048) :
    (mkfs old mb).2 0 = superblockBytes (mkfsSuperblock (mb * 256 - 1)) ∧
      (mkfs old mb).2 (mkfsSuperblock (mb * 256 - 1)).inodeTableStart = mkfsInode
          (mkfsInode (fun _ => 0) 0 3 (mkfsSuperblock (mb * 256 - 1)).dataBlocksStart) 128 2
          ((mkfsSuperblock (mb * 256 - 1)).dataBlocksStart + 1) := by
  have hsectors : (if mb * 1024 * 1024 / 512 > 8 then mb * 1024 * 1024 / 512 - 8
      else mb * 1024 * 1024 / 512) = (mb * 256 - 1) * 8 := by
    split <;> omega
  obtain ⟨total, htotal⟩ : ∃ total, mb * 256 - 1 = total := ⟨_, rfl⟩
  have hblocks : total * 8 / 8 = total := by omega
  have hbounds := @layoutCompute_bounds total (by omega) (by omega)
  obtain ⟨sb, hsb⟩ : ∃ sb, mkfsSuperblock total = sb := ⟨_, rfl⟩
  have hlayout : sb.inodeTableStart = 1 + sb.blockBitmapBlocks + sb.inodeBitmapBlocks ∧
      sb.dataBlocksStart = sb.inodeTableStart + sb.inodeTableBlocks ∧ 0 < sb.inodeTableBlocks ∧
      sb.dataBlocksStart + 1 < total := by
    rw [← hsb]
    refine ⟨rfl, rfl, ?_, hbounds.1⟩
    change 0 < ((layoutCompute total).totalInodes + 32 - 1) / 32
    omega
  unfold mkfs
  dsimp only
  rw [hsectors, htotal, hblocks, hsb]
  obtain ⟨head, hhead⟩ : ∃ head, (((Image.mk old 0).fwrite (superblockBytes sb) 1).fwrite
      (bmSetRun (fun _ => 0) 0 (sb.dataBlocksStart + 2)) sb.blockBitmapBlocks).fwrite
      (bmSet (bmSet (fun _ => 0) 1) 2) sb.inodeBitmapBlocks = head := ⟨_, rfl⟩
  have hpos : head.pos = sb.inodeTableStart := by
    rw [← hhead, hlayout.1]
    exact congrArg (· + sb.blockBitmapBlocks + sb.inodeBitmapBlocks) (Nat.zero_add 1)
  have hzero : head.disk 0 = superblockBytes sb := by
    rw [← hhead, fwrite_before _ _ _ (by change 0 < 0 + 1 + _; omega),
      fwrite_before _ _ _ (by change 0 < 0 + 1; omega)]
    exact fwrite_first _ _ Nat.one_pos
  rw [hhead]
  obtain ⟨it, hit⟩ : ∃ it, mkfsInode (mkfsInode (fun _ => 0) 0 3 sb.dataBlocksStart) 128 2
      (sb.dataBlocksStart + 1) = it := ⟨_, rfl⟩
  rw [hit]
  -- What follows the table does not reach back to it, and the tail is far behind.
  have hkeep : ∀ b < sb.dataBlocksStart, (((head.fwrite it sb.inodeTableBlocks).fwrite mkfsRootBlock
      1).fwrite mkfsAppsBlock 1).disk b = (head.fwrite it sb.inodeTableBlocks).disk b := by
    intro b hb
    rw [fwrite_before _ _ _ (by change b < head.pos + _ + 1; omega),
      fwrite_before _ _ _ (by change b < head.pos + _; omega)]
  have hend : ¬ (((head.fwrite it sb.inodeTableBlocks).fwrite mkfsRootBlock 1).fwrite mkfsAppsBlock
      1).pos * 4096 > total * 8 * 512 := by
    change ¬ (head.pos + _ + 1 + 1) * 4096 > total * 8 * 512
    omega
  rw [if_neg hend]
  dsimp only
  rw [if_neg (by omega), if_neg (by omega), hkeep 0 (by omega), hkeep _ (by omega),
    fwrite_before _ _ _ (by omega), ← hpos]
  exact ⟨hzero, fwrite_first _ _ hlayout.2.2.1⟩

theorem mkfs_root_links (old : Nat → Buf) (hlow : 8 ≤ mb) (hhigh : mb ≤ 2048) :
    (mounted (mkfs old mb).2).2.rootIno = 1 ∧
      (diskInode (mounted (mkfs old mb).2).2 1).linksCount = 3 := by
  obtain ⟨h0, htable⟩ := mkfs_spec old hlow hhigh
  have hfits : (mkfsSuperblock (mb * 256 - 1)).Fits := by
    rw [mkfsSuperblock_eq]
    exact afterApps_fits (by omega)
  obtain ⟨-, -, hdisk, hblock, hroot⟩ := mounted_spec hfits rfl rfl fun j _ => congrFun h0 j
  have hslot : slotBlock (mounted (mkfs old mb).2).2 1 =
      (mkfsSuperblock (mb * 256 - 1)).inodeTableStart := hblock
  refine ⟨hroot, ?_⟩
  rw [diskInode, hslot, hdisk, htable]
  change getLe _ (slotOff 1 + 6) 2 = 3
  simp (disch := decide) only [mkfsInode, slotOff, getLe_putLe_disjoint]
  exact getLe_putLe_of_lt (by decide)

theorem kfsFormatLocked_root_links (hlow : 8 ≤ mb) (hhigh : mb ≤ 2048) {fs : Fs}
    (hfs : fs.vol.NoFault) :
    (mounted (kfsFormatLocked fs (mb * 2048)).2.vol.disk).2.rootIno = 1 ∧
      (diskInode (mounted (kfsFormatLocked fs (mb * 2048)).2.vol.disk).2 1).linksCount = 4 := by
  obtain ⟨fs', hrun, hv, hsb, h0, hroot, -⟩ := kfsFormatLocked_spec hfs (formatBlocks_mb hlow)
    (by omega) (by omega)
  rw [hrun]
  rw [hsb] at h0
  obtain ⟨-, -, hdisk, hblock, hroot'⟩ := mounted_spec (afterApps_fits (by omega)) rfl rfl h0
  have htable : fs'.vol.itBlock0 = (mounted fs'.vol.disk).2.itBlock0 := by
    rw [hv.layout.itBlock0_eq, hsb, hblock]
  refine ⟨hroot', ?_⟩
  rw [← diskInode_congr htable (by rw [hdisk]), hroot]
  rfl

/-- No size gives the same filesystem: the root of the host has three links, that
of the kernel four, since `create_child` counts the new directory once more. -/
theorem formatters_differ {mb : Nat} (hlow : 8 ≤ mb) (hhigh : mb ≤ 2048) (old : Nat → Buf)
    (existing : Option Nat) {fs : Fs} (hfs : fs.vol.NoFault) :
    ¬ SameFs (mkfs old (mkfsSizeMb mb existing)).2 (kfsFormatLocked fs (mb * 2048)).2.vol.disk := by
  intro h
  have hmb : mkfsSizeMb mb existing = mb := by
    unfold mkfsSizeMb
    dsimp only
    split_ifs <;> omega
  rw [hmb] at h
  obtain ⟨hroot, hlinks⟩ := mkfs_root_links old hlow hhigh
  obtain ⟨hroot', hlinks'⟩ := kfsFormatLocked_root_links hlow hhigh hfs
  have hempty := h.tree []
  change some (attributes _ (mounted _).2.rootIno) =
    some (attributes _ (mounted _).2.rootIno) at hempty
  rw [hroot, hroot'] at hempty
  have hsame := congrArg (fun a => a.2.2.1) (Option.some.inj hempty)
  change (diskInode _ 1).linksCount = (diskInode _ 1).linksCount at hsame
  omega

theorem formatters_differ_8MiB :
    ¬ SameFs (mkfs (fun _ _ => 0) (mkfsSizeMb 8 none)).2
      (kfsFormatLocked blankFs (8 * 2048)).2.vol.disk :=
  formatters_differ (by decide) (by decide) _ none ⟨fun _ => rfl, fun _ => rfl⟩

/-- A disk of 8 MiB. -/
theorem root_links_8MiB :
    (diskInode (mounted (mkfs (fun _ _ => 0) 8).2).2 1).linksCount = 3 ∧
      (diskInode (mounted (kfsFormatLocked blankFs (8 * 2048)).2.vol.disk).2 1).linksCount = 4 :=
  ⟨(mkfs_root_links _ (by decide) (by decide)).2,
    (kfsFormatLocked_root_links le_rfl (by decide) ⟨fun _ => rfl, fun _ => rfl⟩).2⟩

end Kyuzen.Kfs
