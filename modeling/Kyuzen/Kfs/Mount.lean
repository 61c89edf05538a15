import Kyuzen.Kfs.Path

/-!
Format, mount and global sync of `kfs_super.c`.
-/

namespace Kyuzen.Kfs

def appsName : Name := [97, 112, 112, 115]

/-- The root inode as `kfs_format_locked` fills it in. -/
def rootInode : InodeMem := {freshInode 1 flagDir with linksCount := 3, dirty := false}

/-- The block that `kfs_format_locked` writes over the root directory: ".",
".." and "apps". -/
def rootBlock (appsIno : Nat) : Buf :=
  memcpy
    (memcpy (memcpy (fun _ => 0) 0 (direntRecord 1 12 flagDir dotName) 0 9)
      12 (direntRecord 1 12 flagDir dotdotName) 0 10)
    24 (direntRecord appsIno 4072 flagDir appsName) 0 12

def inoCacheReset (fs : Fs) : Fs :=
  {fs with
    inoPool := fun i =>
      {ino := {(fs.inode i) with refcount := 0}, used := false, dead := false}
    inoHash := fun _ => []}

/-- The volume of `kfs_format_locked` before the root directory exists. The
bitmaps come from `kmalloc` and are cleared. -/
def formatVol (v : Vol) (totalBlocks : Nat) : Vol :=
  let v1 := layoutGlobalsLoad {v with sb := layoutCompute totalBlocks}
  {v1 with
    bmMem := bmSetRun (fun _ => 0) 0 v1.sb.dataBlocksStart
    ibmMem := bmSet (fun _ => 0) 1
    bmDirty := true
    ibmDirty := true}

/-- The number of blocks that `kfs_format_locked` formats on a device of
`totalSectors` sectors: the last 8 sectors are kept for the crash dump. -/
def formatBlocks (totalSectors : Nat) : Nat :=
  let t0 := if totalSectors = 0 then 204800 else totalSectors
  let t1 := if t0 > 8 then t0 - 8 else t0
  t1 / 8

/-- `kfs_format_locked` on a device of `totalSectors` sectors. -/
def kfsFormatLocked (fs : Fs) (totalSectors : Nat) : Rc × Fs :=
  let fs1 := inoCacheReset {fs with vol := formatVol fs.vol (formatBlocks totalSectors)}
  match inoCacheSlot fs1 with
  | (none, fs2) => (.enomem, fs2)
  | (some re, fs2) =>
    let fs3 := (inoCacheInsertNolock (fs2.setIno re rootInode) re).syncEntry re
    match createChild fs3 re appsName flagDir with
    | (.error rc, fs4) =>
      (rc, inoCacheUnlink (fs4.mapInode re fun inn => {inn with refcount := 0}) re)
    | (.ok ae, fs4) =>
      let appsIno := (fs4.inode ae).ino
      let fs5 := (fs4.onInode re fun v inn =>
        let (_, v', inn', _) := blkWriteFile v inn 0 (rootBlock appsIno) 4096
        ((), v', inn')).2
      let fs6 := fs5.syncEntry re
      let fs7 := fs6.mapInode re fun inn => {inn with refcount := 0, dirty := false}
      let fs8 := fs7.mapInode ae fun inn => {inn with refcount := 0, dirty := false}
      (.eok, fs8.bmFlush.ibmFlush.sbSave)

/-- `kfs_init` on a disk that is formatted: every cache empty, then the
superblock and the bitmaps from disk. -/
def kfsInit (fs : Fs) : Rc × Fs :=
  let fs1 := inoCacheReset {fs with vnodes := []}
  match sbLoad fs1.vol with
  | (.eok, v1) =>
    let (rc, v2) := mountLoadBitmaps v1
    (rc, {fs1 with vol := v2})
  | (rc, v1) => (rc, {fs1 with vol := v1})

def blankFs : Fs where
  vol :=
    { disk := fun _ _ => 0
      env := ⟨fun _ => true, fun _ => true, fun _ => 0⟩
      sb := ⟨0, 0, 0, 0, 0, 0, 0, 0, 0, 0, 0, 0, 0, 0, 0⟩
      bmMem := fun _ => 0
      bmDirty := false
      ibmMem := fun _ => 0
      ibmDirty := false
      bmBlocks := 0
      ibmBlocks := 0
      itBlock0 := 0
      dataStart := 0
      rootIno := 1
      innerMerges := 0 }
  inoPool _ := ⟨freshInode 0 0, false, false⟩
  inoHash _ := []
  vnodes := []
  nextVnode := 0

def formatted : Fs := (kfsFormatLocked blankFs 208).2

end Kyuzen.Kfs
