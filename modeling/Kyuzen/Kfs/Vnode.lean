import Kyuzen.Kfs.InodeCache

/-!
`create_child` and `vnode_wrap_locked` of `kfs_dir.c`, and the vnode operations
of `kfs_vnode.c`. Each operation is the body of one `fs_lock` critical section.
-/

namespace Kyuzen.Kfs

/-- `links_count` is a `uint16_t`. -/
def incLinks (n : Nat) : Nat := (n + 1) % 65536
def decLinks (n : Nat) : Nat := (n + 65535) % 65536

def Fs.mapInode (fs : Fs) (e : Nat) (f : InodeMem → InodeMem) : Fs := fs.setIno e (f (fs.inode e))

/-- `ino_sync_nolock` on entry `e`, with the result dropped. -/
def Fs.syncEntry (fs : Fs) (e : Nat) : Fs :=
  {fs with vol := (inoSyncNolock fs.vol (fs.inode e)).2}

def Fs.bmFlush (fs : Fs) : Fs := {fs with vol := (Kyuzen.Kfs.bmFlush fs.vol).2}
def Fs.ibmFlush (fs : Fs) : Fs := {fs with vol := (Kyuzen.Kfs.ibmFlush fs.vol).2}
def Fs.sbSave (fs : Fs) : Fs := {fs with vol := (Kyuzen.Kfs.sbSave fs.vol).2}

/-- The new inode of `create_child`. -/
def freshInode (ino mode : Nat) : InodeMem where
  ino := ino
  mode := mode
  linksCount := 1
  sizeBytes := 0
  blocksUsed := 0
  direct _ := ⟨0, 0⟩
  indirectExtentBlock := 0
  dirty := true
  refcount := 1

/-- The middle of `create_child`: the first block of a new directory and the
entry in the parent. -/
def linkChild (fs : Fs) (parent ce : Nat) (name : Name) (mode newino : Nat) : Rc × Fs :=
  if mode = flagDir then
    match fs.onInode ce fun v inn => dirInitDots v inn (fs.inode parent).ino with
    | (.eok, fs1) =>
      let fs2 := fs1.mapInode parent fun d => {d with linksCount := incLinks d.linksCount}
      fs2.onInode parent fun v d => dirAddEntry v d name newino flagDir
    | r => r
  else fs.onInode parent fun v d => dirAddEntry v d name newino flagFile

/-- The error exit of `create_child`. -/
def undoChild (fs : Fs) (parent ce : Nat) (mode newino : Nat) : Fs :=
  let fs1 :=
    if mode = flagDir then
      fs.mapInode parent fun d => {d with linksCount := decLinks d.linksCount}
    else fs
  let fs2 := (fs1.onInode ce fun v inn => ((), inodeFreeAllExtents v inn)).2
  let fs3 := fs2.mapInode ce fun inn => {inn with dirty := false, refcount := 0}
  let fs4 := inoFreeNolock fs3 newino
  fs4.mapInode parent fun d => {d with dirty := true}

/-- `create_child`; on success the pool index of the new entry. -/
def createChild (fs : Fs) (parent : Nat) (name : Name) (mode : Nat) : Except Rc Nat × Fs :=
  if (fs.inode parent).mode ≠ flagDir then (.error .enotdir, fs)
  else if name.length = 0 then (.error .einval, fs)
  else if name.length > 255 then (.error .enametoolong, fs)
  else
    match dirLookupEntry fs.vol (fs.inode parent) name with
    | .ok _ => (.error .eexist, fs)
    | .error _ =>
      match inoAllocNolock fs.vol with
      | (none, _) => (.error .enospc, fs)
      | (some newino, v1) =>
        match inoCacheSlot {fs with vol := v1} with
        | (none, fs2) => (.error .enomem, inoFreeNolock fs2 newino)
        | (some ce, fs2) =>
          let fs3 := inoCacheInsertNolock (fs2.setIno ce (freshInode newino mode)) ce
          match linkChild fs3 parent ce name mode newino with
          | (.eok, fs4) =>
            let fs5 := (fs4.syncEntry ce).mapInode ce fun inn => {inn with dirty := false}
            let fs6 := fs5.mapInode parent fun d => {d with dirty := true}
            (.ok ce, fs6.syncEntry parent)
          | (rc, fs4) => (.error rc, undoChild fs4 parent ce mode newino)

/-- `vnode_wrap_locked`; the reference to the entry moves into the vnode. -/
def vnodeWrapLocked (fs : Fs) (e : Nat) : Except Rc Nat × Fs :=
  if fs.vol.env.kmalloc .vnodeWrap = false then (.error .enomem, fs)
  else
    let inn := fs.inode e
    let vn : Vnode :=
      { type := if inn.mode = flagDir then .vDir else .vReg
        refcount := 1
        size := inn.sizeBytes
        inodeNum := inn.ino
        fsData := e }
    (.ok fs.nextVnode,
      {fs with vnodes := (fs.nextVnode, vn) :: fs.vnodes, nextVnode := fs.nextVnode + 1})

def Fs.vnode (fs : Fs) (h : Nat) : Option Vnode := fs.vnodes.lookup h

/-- `n->size = size`. -/
def Fs.setVnodeSize (fs : Fs) (h size : Nat) : Fs :=
  {fs with vnodes := fs.vnodes.map fun p => if p.1 = h then (h, {p.2 with size := size}) else p}

/-- The piece loop of `v4_read`: at most 1 MiB a call. -/
def readPieces (v : Vol) (inn : InodeMem) (offset count : Nat) :
    Nat → Buf → Nat → Rc × Buf × Nat
  | 0, buf, total => (.eok, buf, total)
  | fuel + 1, buf, total =>
    if total < count then
      let remain := count - total
      let piece := if remain > 1048576 then 1048576 else remain
      match blkReadFile v inn (offset + total) (fun i => buf (total + i)) piece with
      | (.eok, b, got) =>
        let buf' := memcpy buf total b 0 got
        if got < piece then (.eok, buf', total + got)
        else readPieces v inn offset count fuel buf' (total + got)
      | (rc, b, got) => (rc, memcpy buf total b 0 got, total + got)
    else (.eok, buf, total)

/-- `v4_read`: the bytes read. -/
def v4Read (fs : Fs) (h : Nat) (offset : Nat) (buf : Buf) (count : Nat) : Except Rc (List UInt8) :=
  match fs.vnode h with
  | none => .error .einval
  | some n =>
    if n.type = .vDir then .error .eisdir
    else
      match readPieces fs.vol (fs.inode n.fsData) offset count count buf 0 with
      | (.eok, buf', got) => .ok ((List.range got).map buf')
      | (rc, _, _) => .error rc

/-- The piece loop of `v4_write`. -/
def writePieces (buf : Buf) (offset count : Nat) :
    Nat → Vol → InodeMem → Nat → Rc × Vol × InodeMem × Nat
  | 0, v, inn, total => (.eok, v, inn, total)
  | fuel + 1, v, inn, total =>
    if total < count then
      let remain := count - total
      let piece := if remain > 1048576 then 1048576 else remain
      match blkWriteFile v inn (offset + total) (fun i => buf (total + i)) piece with
      | (.eok, v', inn', w) =>
        if w < piece then (.eok, v', inn', total + w)
        else writePieces buf offset count fuel v' inn' (total + w)
      | (rc, v', inn', w) => (rc, v', inn', total + w)
    else (.eok, v, inn, total)

/-- `v4_write`; on success the number of bytes written. -/
def v4Write (fs : Fs) (h : Nat) (offset : Nat) (data : List UInt8) : Except Rc Nat × Fs :=
  match fs.vnode h with
  | none => (.error .einval, fs)
  | some n =>
    if n.type = .vDir then (.error .eisdir, fs)
    else
      let e := n.fsData
      match writePieces (nameBuf data) offset data.length data.length fs.vol (fs.inode e) 0 with
      | (rc, v', inn', wtotal) =>
        let fs1 := {fs with vol := v'}.setIno e inn'
        let fs2 :=
          if rc = .eok ∧ wtotal > 0 then (fs1.syncEntry e).bmFlush.sbSave else fs1
        let fs3 := fs2.setVnodeSize h (fs2.inode e).sizeBytes
        (if rc = .eok then .ok wtotal else .error rc, fs3)

def v4Truncate (fs : Fs) (h : Nat) (newSize : Nat) : Rc × Fs :=
  match fs.vnode h with
  | none => (.einval, fs)
  | some n =>
    match fs.onInode n.fsData fun v inn => truncateNolock v inn newSize with
    | (.eok, fs1) =>
      let fs2 := (fs1.syncEntry n.fsData).bmFlush.sbSave
      (.eok, fs2.setVnodeSize h (fs2.inode n.fsData).sizeBytes)
    | r => r

/-- `v4_lookup`; on success the new vnode. -/
def v4Lookup (fs : Fs) (h : Nat) (name : Name) : Except Rc Nat × Fs :=
  match fs.vnode h with
  | none => (.error .enotdir, fs)
  | some dir =>
    if dir.type ≠ .vDir then (.error .enotdir, fs)
    else if name = [] ∨ dirIsDot name then (.error .einval, fs)
    else
      match dirLookupEntry fs.vol (fs.inode dir.fsData) name with
      | .error rc => (.error rc, fs)
      | .ok (ino, _) =>
        match inoGetNolock fs ino with
        | (.error rc, fs1) => (.error rc, fs1)
        | (.ok e, fs1) => vnodeWrapLocked fs1 e

def v4Create (fs : Fs) (h : Nat) (name : Name) : Except Rc Nat × Fs :=
  match fs.vnode h with
  | none => (.error .enotdir, fs)
  | some dir =>
    if dir.type ≠ .vDir then (.error .enotdir, fs)
    else
      match createChild fs dir.fsData name flagFile with
      | (.error rc, fs1) => (.error rc, fs1)
      | (.ok ce, fs1) => vnodeWrapLocked fs1 ce

def v4Release (fs : Fs) (h : Nat) : Fs :=
  match fs.vnode h with
  | none => fs
  | some n =>
    if n.refcount > 1 then
      {fs with vnodes := fs.vnodes.map fun p =>
        if p.1 = h then (h, {p.2 with refcount := p.2.refcount - 1}) else p}
    else
      let fs1 := inoPutNolock fs n.fsData
      {fs1 with vnodes := fs1.vnodes.eraseP fun p => p.1 == h}

end Kyuzen.Kfs
