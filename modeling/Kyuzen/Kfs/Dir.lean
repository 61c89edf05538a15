import Kyuzen.Kfs.FileIo

/-!
`kfs_dir.c`, the dirent layer: a directory is a file of records
`inode_num:4 rec_len:2 name_len:1 file_type:1 name`, read block by block.
-/

namespace Kyuzen.Kfs

/-- The bytes of a C string, without its NUL. -/
abbrev Name := List UInt8

def nameBuf (name : Name) : Buf := fun i => name.getD i 0

def nameAt (b : Buf) (off n : Nat) : Name := (List.range n).map fun i => b (off + i)

/-- `(8 + nl + 3) & ~3`. -/
def direntRecLen (nl : Nat) : Nat := (8 + nl + 3) / 4 * 4

def direntRecord (ino recLen ftype : Nat) (name : Name) : Buf :=
  memcpy
    (putLe (putLe (putLe (putLe (fun _ => 0) 0 4 ino) 4 2 recLen) 6 1 name.length) 7 1 ftype)
    8 (nameBuf name) 0 name.length

/-- How the scan of one block ends in `dir_add_entry`. -/
inductive SlotScan where
  | slot (pos eRec : Nat)
  | corrupt
  | absent

/-- The record loop of `dir_add_entry` over one block of `chunk` bytes. -/
def addScan (tmp : Buf) (chunk recLen : Nat) : Nat → Nat → SlotScan
  | 0, _ => .absent
  | fuel + 1, pos =>
    if pos + 8 ≤ chunk then
      let eIno := getLe tmp pos 4
      let eRec := getLe tmp (pos + 4) 2
      if eRec < 12 ∨ eRec > chunk - pos then .corrupt
      else if eIno = 0 ∧ eRec ≥ recLen then .slot pos eRec
      else addScan tmp chunk recLen fuel (pos + eRec)
    else .absent

/-- The bytes of the block at `off` that belong to the directory. -/
def chunkAt (size off : Nat) : Nat := if off + 4096 > size then size - off else 4096

/-- The record that takes a free slot of `eRec` bytes. What is left of the slot
becomes a free record of its own, unless it is too small for one. -/
def slotRecord (ino recLen ftype eRec : Nat) (name : Name) : Buf :=
  let use := if eRec - recLen < 12 then eRec else recLen
  let record := direntRecord ino use ftype name
  if use < eRec then putLe (putLe record use 4 0) (use + 4) 2 (eRec - use) else record

/-- The block loop of `dir_add_entry`; `none` means that no slot was found. -/
def addLoop (v : Vol) (dir : InodeMem) (name : Name) (targetIno ftype : Nat) :
    Nat → Nat → Buf → Option (Rc × Vol × InodeMem)
  | 0, _, _ => none
  | fuel + 1, off, tmp =>
    if off < dir.sizeBytes then
      let chunk := chunkAt dir.sizeBytes off
      match blkReadFile v dir off tmp chunk with
      | (.eok, tmp', got) =>
        if got ≠ chunk then some (.eio, v, dir)
        else
          match addScan tmp' chunk (direntRecLen name.length) chunk 0 with
          | .corrupt => some (.eio, v, dir)
          | .slot pos eRec =>
            if v.env.kmalloc .addEntryRecord then
              let record :=
                slotRecord targetIno (direntRecLen name.length) ftype eRec name
              let (rc, v', dir', _) := blkWriteFile v dir (off + pos) record eRec
              some (rc, v', dir')
            else some (.enomem, v, dir)
          | .absent => addLoop v dir name targetIno ftype fuel (off + 4096) tmp'
      | _ => some (.eio, v, dir)
    else none

def dirAddEntry (v : Vol) (dir : InodeMem) (name : Name) (targetIno ftype : Nat) :
    Rc × Vol × InodeMem :=
  let nl := name.length
  if nl = 0 ∨ nl > 255 then (.enametoolong, v, dir)
  else if v.env.kmalloc .addEntryBlock = false then (.enomem, v, dir)
  else
    match addLoop v dir name targetIno ftype (dir.sizeBytes / 4096 + 1) 0 v.env.heap with
    | some r => r
    | none =>
      let recLen := direntRecLen nl
      let (rc, v', dir', _) :=
        blkWriteFile v dir dir.sizeBytes (direntRecord targetIno recLen ftype name) recLen
      (rc, v', dir')

inductive NameScan where
  | found (pos eIno eRec eFtype : Nat)
  | corrupt
  | absent

/-- The record loop of `dir_lookup_entry` and `dir_remove_entry`. -/
def nameScan (tmp : Buf) (chunk : Nat) (name : Name) : Nat → Nat → NameScan
  | 0, _ => .absent
  | fuel + 1, pos =>
    if pos + 8 ≤ chunk then
      let eIno := getLe tmp pos 4
      let eRec := getLe tmp (pos + 4) 2
      let eNlen := getLe tmp (pos + 6) 1
      let eFtype := getLe tmp (pos + 7) 1
      if eRec < 12 then .corrupt
      else if eIno ≠ 0 ∧ eNlen = name.length ∧ nameAt tmp (pos + 8) name.length = name then
        .found pos eIno eRec eFtype
      else nameScan tmp chunk name fuel (pos + eRec)
    else .absent

/-- The block loop of `dir_lookup_entry`. -/
def lookupLoop (v : Vol) (dir : InodeMem) (name : Name) :
    Nat → Nat → Buf → Except Rc (Nat × Nat)
  | 0, _, _ => .error .enoent
  | fuel + 1, off, tmp =>
    if off < dir.sizeBytes then
      let chunk := chunkAt dir.sizeBytes off
      match blkReadFile v dir off tmp chunk with
      | (.eok, tmp', _) =>
        match nameScan tmp' chunk name chunk 0 with
        | .found _ eIno _ eFtype => .ok (eIno, eFtype)
        | .corrupt => .error .eio
        | .absent => lookupLoop v dir name fuel (off + 4096) tmp'
      | _ => .error .eio
    else .error .enoent

/-- `dir_lookup_entry`: the inode number and the type of a name. -/
def dirLookupEntry (v : Vol) (dir : InodeMem) (name : Name) : Except Rc (Nat × Nat) :=
  if name.length > 255 then .error .enametoolong
  else if v.env.kmalloc .lookupBlock = false then .error .enomem
  else lookupLoop v dir name (dir.sizeBytes / 4096 + 1) 0 v.env.heap

/-- The block loop of `dir_remove_entry`. -/
def removeLoop (v : Vol) (dir : InodeMem) (name : Name) :
    Nat → Nat → Buf → Rc × Vol × InodeMem
  | 0, _, _ => (.enoent, v, dir)
  | fuel + 1, off, tmp =>
    if off < dir.sizeBytes then
      let chunk := chunkAt dir.sizeBytes off
      match blkReadFile v dir off tmp chunk with
      | (.eok, tmp', _) =>
        match nameScan tmp' chunk name chunk 0 with
        | .found pos _ eRec _ =>
          let tmp'' :=
            memset (putLe (putLe tmp' pos 4 0) (pos + 4) 2 eRec) (pos + 6) 0 (eRec - 6)
          let (rc, v', dir', _) :=
            blkWriteFile v dir (off + pos) (fun i => tmp'' (pos + i)) eRec
          (rc, v', dir')
        | .corrupt => (.eio, v, dir)
        | .absent => removeLoop v dir name fuel (off + 4096) tmp'
      | _ => (.eio, v, dir)
    else (.enoent, v, dir)

def dirRemoveEntry (v : Vol) (dir : InodeMem) (name : Name) : Rc × Vol × InodeMem :=
  if name.length > 255 then (.enametoolong, v, dir)
  else if v.env.kmalloc .removeBlock = false then (.enomem, v, dir)
  else removeLoop v dir name (dir.sizeBytes / 4096 + 1) 0 v.env.heap

/-- How the scan of one block for an index ends; `seen` counts the records in
use that it passed. -/
inductive IndexScan where
  | found (name : Name) (eFtype : Nat)
  | tooLong
  | corrupt
  | absent (seen : Nat)

/-- The record loop of `dir_read_index`. -/
def indexScan (tmp : Buf) (chunk index cap : Nat) : Nat → Nat → Nat → IndexScan
  | 0, _, seen => .absent seen
  | fuel + 1, pos, seen =>
    if pos + 8 ≤ chunk then
      let eIno := getLe tmp pos 4
      let eRec := getLe tmp (pos + 4) 2
      let eNlen := getLe tmp (pos + 6) 1
      let eFtype := getLe tmp (pos + 7) 1
      if eRec < 12 then .corrupt
      else if eIno ≠ 0 then
        if seen = index then
          if eNlen + 1 > cap then .tooLong
          else .found (nameAt tmp (pos + 8) eNlen) eFtype
        else indexScan tmp chunk index cap fuel (pos + eRec) (seen + 1)
      else indexScan tmp chunk index cap fuel (pos + eRec) seen
    else .absent seen

/-- The block loop of `dir_read_index`. -/
def readIndexLoop (v : Vol) (dir : InodeMem) (index cap : Nat) :
    Nat → Nat → Buf → Nat → Except Rc (Name × Nat)
  | 0, _, _, _ => .error .enoent
  | fuel + 1, off, tmp, seen =>
    if off < dir.sizeBytes then
      let chunk := chunkAt dir.sizeBytes off
      match blkReadFile v dir off tmp chunk with
      | (.eok, tmp', _) =>
        match indexScan tmp' chunk index cap chunk 0 seen with
        | .found name eFtype => .ok (name, eFtype)
        | .tooLong => .error .enametoolong
        | .corrupt => .error .eio
        | .absent seen' => readIndexLoop v dir index cap fuel (off + 4096) tmp' seen'
      | _ => .error .eio
    else .error .enoent

/-- `dir_read_index`: name and type of the record in use number `index`. -/
def dirReadIndex (v : Vol) (dir : InodeMem) (index cap : Nat) : Except Rc (Name × Nat) :=
  if v.env.kmalloc .readIndexBlock = false then .error .enomem
  else readIndexLoop v dir index cap (dir.sizeBytes / 4096 + 1) 0 v.env.heap 0

def dotName : Name := [46]
def dotdotName : Name := [46, 46]

def dirIsDot (nm : Name) : Bool :=
  nm.getD 0 0 == 46 && (nm.getD 1 0 == 0 || (nm.getD 1 0 == 46 && nm.getD 2 0 == 0))

/-- The first block of a new directory: "." in 12 bytes, ".." in the rest. -/
def dotsBlock (ino parentIno : Nat) : Buf :=
  memcpy (memcpy (fun _ => 0) 0 (direntRecord ino 12 flagDir dotName) 0 9)
    12 (direntRecord parentIno 4084 flagDir dotdotName) 0 10

def dirInitDots (v : Vol) (dir : InodeMem) (parentIno : Nat) : Rc × Vol × InodeMem :=
  if v.env.kmalloc .initDotsBlock = false then (.enomem, v, dir)
  else
    match blkWriteFile v dir 0 (dotsBlock dir.ino parentIno) 4096 with
    | (.eok, v', dir', _) => (.eok, v', {dir' with linksCount := 2, dirty := true})
    | (rc, v', dir', _) => (rc, v', dir')

end Kyuzen.Kfs
