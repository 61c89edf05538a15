import Kyuzen.Kfs.Mount
import Kyuzen.Kfs.Slots
import Kyuzen.Kfs.VnodeIo
import Kyuzen.Kfs.Mapping

/-!
What `kfs_format_locked` leaves on disk. The volume is empty, so the calls that
it makes have one outcome each: "/apps" gets the first data block, the root
directory the second.
-/

namespace Kyuzen.Kfs

open List Function

structure Blockless (inn : InodeMem) : Prop where
  direct : ∀ k, (inn.direct k).blockCount = 0
  indirect : inn.indirectExtentBlock = 0
  used : inn.blocksUsed = 0

theorem Blockless.fileInv {inn : InodeMem} (h : Blockless inn) (v : Vol) : FileInv v inn :=
  FileInv.of_empty h.direct h.indirect h.used

theorem Blockless.blocks {inn : InodeMem} (h : Blockless inn) (v : Vol) : inodeBlocks v inn = [] := by
  have hlen := (h.fileInv v).used
  rw [h.used] at hlen
  exact eq_nil_of_length_eq_zero hlen.symm

/-! ## The first block of an inode -/

section First

variable {v : Vol} {inn : InodeMem} {b : Nat}

theorem blkAllocRunNolock_one (hdata : 0 < v.dataStart) (hb : v.IsFree b)
    (hlow : ∀ b', v.IsFree b' → b ≤ b') : blkAllocRunNolock v 1 = (b, 1, v.take b 1) := by
  rcases blkAllocRunNolock_spec v 1 Nat.one_pos hdata with
    ⟨-, hnone⟩ | ⟨start, n, heq, -, hfit⟩
  · exact absurd hb (hnone b)
  · obtain rfl := hfit.length_eq hb.run
    obtain rfl : start = b :=
      le_antisymm (hfit.first b hb.run) (hlow start (hfit.run start le_rfl (by omega)))
    exact heq

def firstBlock (inn : InodeMem) (b : Nat) : InodeMem :=
  {inn with direct := update inn.direct ⟨0, by decide⟩ ⟨b, 1⟩, blocksUsed := 1, dirty := true}

theorem Blockless.slots (h : Blockless inn) (v : Vol) : SlotsFrom v inn 0 [] := by
  have hnil : extentList v inn = [] := by
    have hblocks : dataBlocks v inn = [] := (append_eq_nil_iff.mp (h.blocks v)).1
    cases hl : extentList v inn with
    | nil => rfl
    | cons e l =>
      have hpos := (h.fileInv v).slots.pos e (by rw [hl]; exact .head _)
      rw [dataBlocks, hl, blocksOf_cons, append_eq_nil_iff, range'_eq_nil_iff] at hblocks
      omega
  exact hnil ▸ (h.fileInv v).slots

section
variable (hv : v.Sound) (h : Blockless inn) (hb : v.IsFree b) (hlow : ∀ b', v.IsFree b' → b ≤ b')
include hv h hb hlow

theorem growToNolock_first : growToNolock v inn 0 = (.eok, v.take b 1, firstBlock inn b) := by
  have hne : b ≠ 0 := by
    have := hb.1
    have := hv.data
    omega
  have happend : extAppendNolock (v.take b 1) inn b 1 = (.eok, v.take b 1,
        {inn with direct := update inn.direct 0 ⟨b, 1⟩, dirty := true}) := by
    simp [extAppendNolock, appendLoop, extGetNolock, h.direct, extSetNolock]
  rw [growToNolock, coveredLoop_eq hv.io (h.slots v) rfl]
  simp [growLoop, blkAllocRunNolock_one hv.data hb hlow, hne, happend, firstBlock, h.used]

theorem writeTarget_first : writeTarget v inn 0 = (.ok b, v.take b 1, firstBlock inn b) := by
  have hnone : kzfsGetPhysBlock v inn 0 = none := by
    rw [kzfsGetPhysBlock_eq hv.io (h.slots v)]
    rfl
  have hsome : kzfsGetPhysBlock (v.take b 1) (firstBlock inn b) 0 = some b := by
    simp [kzfsGetPhysBlock, physLoop, extGetNolock, firstBlock]
  simp [writeTarget, hnone, growToNolock_first hv h hb hlow, hsome]

end

theorem blkWriteFile_first {v' : Vol} {inn' : InodeMem} {n : Nat} (data : Buf)
    (htarget : writeTarget v inn 0 = (.ok b, v', inn')) (hio : v'.env.io b = true) (hpos : 0 < n)
    (hle : n ≤ 4096) :
    blkWriteFile v inn 0 data n = (.eok, v'.putBlock b (memcpy (v'.disk b) 0 data 0 n),
        {inn' with sizeBytes := if n > inn'.sizeBytes then n else inn'.sizeBytes, dirty := true},
        n) := by
  obtain ⟨m, rfl⟩ : ∃ m, n = m + 1 := ⟨n - 1, by omega⟩
  have hchunk : (if 4096 - 0 % 4096 > m + 1 then m + 1 else 4096 - 0 % 4096) = m + 1 := by
    split <;> omega
  have hrest : ∀ w i, writeLoop data m w i (m + 1) 0 (m + 1) = (.eok, w, i, m + 1) := by
    intro w i
    cases m with
    | zero => rfl
    | succ m => simp [writeLoop]
  rw [blkWriteFile, writeLoop, if_neg (by omega)]
  simp [hchunk, Nat.zero_div, htarget, Nat.zero_mod, bcacheGet, bcacheRead, hio, hrest]

section
variable (hv : v.Sound) (hk : ∀ site, v.env.kmalloc site = true) (h : Blockless inn)
  (hsize : inn.sizeBytes = 0) (hb : v.IsFree b) (hlow : ∀ b', v.IsFree b' → b ≤ b')
include hv hk h hsize hb hlow

theorem dirInitDots_first (parent : Nat) : dirInitDots v inn parent =
      (.eok, (v.take b 1).putBlock b (memcpy (v.disk b) 0 (dotsBlock inn.ino parent) 0 4096),
        {firstBlock inn b with sizeBytes := 4096, linksCount := 2}) := by
  have hsize' : (firstBlock inn b).sizeBytes = 0 := hsize
  have hwrite := blkWriteFile_first (n := 4096) (dotsBlock inn.ino parent)
    (writeTarget_first hv h hb hlow) (hv.io b) (by omega) (by omega)
  simp only [dirInitDots, hk, hwrite, hsize']
  rfl

theorem dirAddEntry_first {name : Name} (hpos : 0 < name.length)
    (hle : name.length ≤ 255) (ino ftype : Nat) :
    dirAddEntry v inn name ino ftype = (.eok, (v.take b 1).putBlock b (memcpy (v.disk b) 0
          (direntRecord ino (direntRecLen name.length) ftype name) 0 (direntRecLen name.length)),
        {firstBlock inn b with sizeBytes := direntRecLen name.length}) := by
  have hrec : 0 < direntRecLen name.length ∧ direntRecLen name.length ≤ 4096 := by
    unfold direntRecLen
    omega
  have hsize' : (firstBlock inn b).sizeBytes = 0 := hsize
  have hwrite := blkWriteFile_first (direntRecord ino (direntRecLen name.length) ftype name)
    (writeTarget_first hv h hb hlow) (hv.io b) hrec.1 hrec.2
  have hnone : addLoop v inn name ino ftype (inn.sizeBytes / 4096 + 1) 0 v.env.heap = none := by
    simp [addLoop, hsize]
  rw [dirAddEntry, if_neg (by omega), if_neg (by simp [hk]), hnone]
  simp only [hsize, hwrite, hsize', gt_iff_lt, hrec.1, if_true]
  rfl

end

end First

/-! ## Volumes in use -/

section Volumes

variable {v : Vol} {b : Nat}

theorem VolOk.putData (hv : VolOk v) (hb : v.dataStart ≤ b) (data : Buf) :
    VolOk (v.putBlock b data) := by
  have hshape := SameShape.putBlock v b data
  have hend := hv.layout.bitmap_end
  have hend' := hv.layout.inodeBitmap_end
  have hend'' := hv.layout.itBlock0_le
  have hother : ∀ b' < v.dataStart, (v.putBlock b data).disk b' = v.disk b' :=
    fun b' hlt => if_neg (by omega)
  refine {hv with
      sound := hshape.sound hv.sound, layout := hshape.layout hv.layout,
      bmStored := fun hclean k hk j hj => ?_, ibmStored := fun hclean k hk j hj => ?_}
  · have hk' : k < v.bmBlocks := hk
    exact (congrFun (hother (v.sb.blockBitmapStart + k) (by omega)) j).trans
      (hv.bmStored hclean k hk j hj)
  · have hk' : k < v.ibmBlocks := hk
    exact (congrFun (hother (v.sb.inodeBitmapStart + k) (by omega)) j).trans
      (hv.ibmStored hclean k hk j hj)

theorem VolOk.take (hv : VolOk v) (start n : Nat) : VolOk (v.take start n) := by
  have hshape := SameShape.take v start n
  refine {hv with
      sound := hshape.sound hv.sound, layout := hshape.layout hv.layout, metaSet := fun b hb => ?_,
      bmStored := fun hclean => (nomatch hclean)}
  have hset := hv.metaSet b hb
  rw [Vol.take, bmTest_bmSetRun, hset, Bool.or_true]

/-- Only the metadata blocks are taken, and inode 1. -/
structure Vol.Empty (v : Vol) : Prop extends VolOk v where
  room : v.dataStart + 1 < v.sb.totalBlocks
  bits : ∀ b, v.dataStart ≤ b → bmTest v.bmMem b = false
  number : 2 < v.sb.totalInodes
  root : bmTest v.ibmMem 1 = true
  next : bmTest v.ibmMem 2 = false

theorem layoutCompute_bounds {total : Nat} (hlow : 2047 ≤ total) (hhigh : total ≤ 524287) :
    (layoutCompute total).dataBlocksStart + 1 < total ∧ 2 < (layoutCompute total).totalInodes ∧
      (layoutCompute total).totalInodes ≤ total := by
  unfold layoutCompute
  dsimp only
  split_ifs <;> omega

theorem bmTest_zero (b : Nat) : bmTest (fun _ => 0) b = false := by simp [bmTest]

theorem formatVol_empty (hv : v.NoFault) {total : Nat} (hlow : 2047 ≤ total)
    (hhigh : total ≤ 524287) : (formatVol v total).Empty := by
  obtain ⟨hroom, hnumber, -⟩ := layoutCompute_bounds hlow hhigh
  have hbits : ∀ b, bmTest (formatVol v total).bmMem b =
      decide (b < (layoutCompute total).dataBlocksStart) := by
    intro b
    change bmTest (bmSetRun (fun _ => 0) 0 (layoutCompute total).dataBlocksStart) b = _
    simp [bmTest_bmSetRun, bmTest_zero]
  have hinode : ∀ i, bmTest (formatVol v total).ibmMem i = decide (i = 1) := by
    intro i
    change bmTest (bmSet (fun _ => 0) 1) i = _
    simp [bmTest_bmSet, bmTest_zero]
  have hused : usedInodes (formatVol v total) = {1} := by
    ext i
    have htotal : (formatVol v total).sb.totalInodes = (layoutCompute total).totalInodes := rfl
    simp only [usedInodes, Finset.mem_filter, Finset.mem_range, hinode, decide_eq_true_eq,
      Finset.mem_singleton, htotal]
    omega
  refine ⟨⟨⟨hv.1, ?_, ?_⟩, hv.2, ⟨rfl, rfl, rfl, rfl, rfl, rfl, rfl, rfl, ?_⟩, rfl, rfl, ?_,
    fun b hb => ?_, fun h => (by cases h), fun h => (by cases h), hinode 0, ?_⟩, hroom,
    fun b hb => ?_, hnumber, hinode 1, hinode 2⟩
  · change 0 < (layoutCompute total).dataBlocksStart
    unfold layoutCompute
    dsimp only
    omega
  · change total ≤ 2 ^ 29
    omega
  · exact le_rfl
  · change 1 < (layoutCompute total).totalInodes
    omega
  · exact (hbits b).trans (decide_eq_true hb)
  · rw [hused]
    change (layoutCompute total).totalInodes - 1 + 1 ≤ (layoutCompute total).totalInodes
    omega
  · exact (hbits b).trans (decide_eq_false (not_lt.mpr hb))

theorem inoAllocNolock_empty (hv : v.Empty) : inoAllocNolock v = (some 2, v.takeInode 2) := by
  obtain ⟨n, hn⟩ : ∃ n, v.sb.totalInodes - 1 = n + 2 :=
    ⟨v.sb.totalInodes - 3, by have := hv.number; omega⟩
  simp [inoAllocNolock, hn, bmAllocBit, hv.root, hv.next, Vol.takeInode]

theorem Vol.Empty.metaWrite {v' : Vol} (h : v.Empty) (hmeta : MetaWrite v v') (hv : VolOk v') :
    v'.Empty := by
  have hibm : v'.ibmMem = v.ibmMem := by rw [hmeta.eq]
  refine ⟨hv, ?_, fun b hb => ?_, ?_, ?_, ?_⟩
  · rw [hmeta.dataStart_eq, hmeta.sb_eq]
    exact h.room
  · rw [hmeta.bmMem_eq]
    exact h.bits b (hmeta.dataStart_eq ▸ hb)
  · rw [hmeta.sb_eq]
    exact h.number
  · rw [hibm]
    exact h.root
  · rw [hibm]
    exact h.next

end Volumes

/-! ## The format -/

/-- The inode of "/apps", and that of the root before its block is written whole. -/
def appsInode (d : Nat) : InodeMem :=
  {firstBlock (freshInode 2 flagDir) d with sizeBytes := 4096, linksCount := 2}
def linkedRoot (d : Nat) : InodeMem :=
  {firstBlock rootInode (d + 1) with linksCount := 4, sizeBytes := 12}

/-- What the steps of the format keep of the superblock: two blocks and one
inode number are taken. -/
def Superblock.afterApps (sb : Superblock) : Superblock :=
  {sb with freeBlocks := sb.freeBlocks - 2, freeInodes := sb.freeInodes - 1}

section Steps

variable {fs : Fs} {d : Nat}

theorem Fs.onInode_eq {α : Type} (fs : Fs) (e : Nat)
    (call : Vol → InodeMem → α × Vol × InodeMem) {r : α} {v' : Vol} {inn' : InodeMem}
    (h : call fs.vol (fs.inode e) = (r, v', inn')) :
    fs.onInode e call = (r, {fs with vol := v'}.setIno e inn') := by
  simp [Fs.onInode, h]

theorem blockless_fresh (ino mode : Nat) : Blockless (freshInode ino mode) :=
  ⟨fun _ => rfl, rfl, rfl⟩

theorem linkApps (fs : Fs) (hv : VolOk fs.vol) (hd : fs.vol.dataStart = d)
    (hroom : d + 1 < fs.vol.sb.totalBlocks) (hbits : ∀ b, d ≤ b → bmTest fs.vol.bmMem b = false)
    (h0 : fs.inode 0 = rootInode) (h1 : fs.inode 1 = freshInode 2 flagDir) :
    ∃ fs', linkChild fs 0 1 appsName flagDir 2 = (.eok, fs') ∧ fs'.inode 0 = linkedRoot d ∧
      fs'.inode 1 = appsInode d ∧ VolOk fs'.vol ∧
      fs'.vol.sb = {fs.vol.sb with freeBlocks := fs.vol.sb.freeBlocks - 2} ∧
      fs'.vol.dataStart = d := by
  -- The lowest free block is the first one, then the one behind it.
  have hfree : fs.vol.IsFree d := ⟨hd.le, by omega, hbits d le_rfl⟩
  have hlow : ∀ b, fs.vol.IsFree b → d ≤ b := fun b hb => hd ▸ hb.1
  have hdots := dirInitDots_first hv.sound hv.kmalloc (h1 ▸ blockless_fresh 2 flagDir)
    (by rw [h1]; rfl) hfree hlow (fs.inode 0).ino
  have hv₁ : VolOk ((fs.vol.take d 1).putBlock d
      (memcpy (fs.vol.disk d) 0 (dotsBlock (fs.inode 1).ino (fs.inode 0).ino) 0 4096)) :=
    (hv.take d 1).putData hd.le _
  generalize hw : (fs.vol.take d 1).putBlock d
    (memcpy (fs.vol.disk d) 0 (dotsBlock (fs.inode 1).ino (fs.inode 0).ino) 0 4096) = w
    at hdots hv₁
  have hsb : w.sb = {fs.vol.sb with freeBlocks := fs.vol.sb.freeBlocks - 1} := by
    rw [← hw]
    rfl
  have hdata : w.dataStart = d := by
    rw [← hw]
    exact hd
  have hbit : ∀ b, bmTest w.bmMem b = (decide (b = d) || bmTest fs.vol.bmMem b) := by
    intro b
    rw [← hw]
    change bmTest (bmSetRun fs.vol.bmMem d 1) b = _
    rw [bmTest_bmSetRun]
    congr 2
    simp only [eq_iff_iff]
    omega
  have hfree' : w.IsFree (d + 1) := by
    refine ⟨by omega, by rw [hsb]; exact hroom, ?_⟩
    rw [hbit, hbits _ (by omega)]
    simp
  have hlow' : ∀ b, w.IsFree b → d + 1 ≤ b := by
    intro b hb
    have hclear := hb.2.2
    have hle := hb.1
    rw [hbit, Bool.or_eq_false_iff, decide_eq_false_iff_not] at hclear
    omega
  have hlen : 0 < appsName.length ∧ appsName.length ≤ 255 := by decide
  have hroot : Blockless {rootInode with linksCount := 4} := ⟨fun _ => rfl, rfl, rfl⟩
  have hadd := dirAddEntry_first hv₁.sound hv₁.kmalloc hroot rfl hfree' hlow' hlen.1 hlen.2 2
    flagDir
  have hinit := fs.onInode_eq 1 (fun v inn => dirInitDots v inn (fs.inode 0).ino) hdots
  -- The parent has one more link when its entry is added.
  generalize hfs₁ : ({fs with vol := w} : Fs).setIno 1 {firstBlock (fs.inode 1) d with
    sizeBytes := 4096, linksCount := 2} = fs₁ at hinit
  have hparent : (fs₁.mapInode 0 fun r => {r with linksCount := incLinks r.linksCount}).inode 0 =
      {rootInode with linksCount := 4} := by
    rw [← hfs₁, Fs.mapInode, Fs.inode_setIno_self, Fs.inode_setIno, if_neg (by decide)]
    change {fs.inode 0 with linksCount := incLinks (fs.inode 0).linksCount} = _
    rw [h0]
    rfl
  have hvol : (fs₁.mapInode 0 fun r => {r with linksCount := incLinks r.linksCount}).vol = w := by
    rw [← hfs₁]
    rfl
  have hlast := (fs₁.mapInode 0 fun r => {r with linksCount := incLinks r.linksCount}).onInode_eq 0
    (fun v r => dirAddEntry v r appsName 2 flagDir)
    ((congrArg₂ (fun v r => dirAddEntry v r appsName 2 flagDir) hvol hparent).trans hadd)
  have hrun : linkChild fs 0 1 appsName flagDir 2 =
      (fs₁.mapInode 0 fun r => {r with linksCount := incLinks r.linksCount}).onInode 0
        fun v r => dirAddEntry v r appsName 2 flagDir := by
    rw [linkChild, if_pos rfl, hinit]
  refine ⟨_, hrun.trans hlast, ?_, ?_, ?_, ?_, hdata⟩
  · rw [Fs.inode_setIno_self]
    rfl
  · rw [Fs.inode_setIno, if_neg (by decide)]
    change (fs₁.mapInode 0 fun r => {r with linksCount := incLinks r.linksCount}).inode 1 = _
    rw [Fs.mapInode, Fs.inode_setIno, if_neg (by decide), ← hfs₁, Fs.inode_setIno_self, h1]
    rfl
  · exact (hv₁.take (d + 1) 1).putData (show w.dataStart ≤ d + 1 by omega) _
  · change {w.sb with freeBlocks := w.sb.freeBlocks - 1} = _
    rw [hsb]
    rfl

theorem inoCacheSlot_first (fs : Fs) {e : Nat} (he : e < 64) (hu : (fs.inoPool e).used = false)
    (hlow : ∀ x < e, (fs.inoPool x).used = true) :
    inoCacheSlot fs = (some e, fs.setEntry e {fs.inoPool e with dead := false}) := by
  have hfind : (range 64).find? (fun i => !(fs.inoPool i).used) = some e := by
    rw [find?_range_eq_some]
    refine ⟨by simp [hu], mem_range.mpr he, fun x hx => ?_⟩
    simp [hlow x hx]
  simp [inoCacheSlot, hfind]

theorem syncEntry_spec (fs : Fs) (e : Nat) (hv : VolOk fs.vol) (hfits : Fits (fs.inode e))
    (hino : 1 ≤ (fs.inode e).ino) (hlt : (fs.inode e).ino < fs.vol.sb.totalInodes) :
    VolOk (fs.syncEntry e).vol ∧ (fs.syncEntry e).vol.sb = fs.vol.sb ∧
      (fs.syncEntry e).vol.dataStart = fs.vol.dataStart ∧
      ∀ i, 1 ≤ i → diskInode (fs.syncEntry e).vol i =
        if i = (fs.inode e).ino then (fs.inode e).core else diskInode fs.vol i := by
  obtain ⟨v', hrun, hmeta, hv', hslots⟩ := inoSyncNolock_spec hv hfits hino hlt
  have hvol : (fs.syncEntry e).vol = v' := congrArg Prod.snd hrun
  rw [hvol]
  exact ⟨hv', hmeta.sb_eq, hmeta.dataStart_eq, hslots⟩

theorem fits_firstBlock {inn : InodeMem} {b size links : Nat} (hb : b < 2 ^ 64)
    (hinn : ∀ k, inn.direct k = ⟨0, 0⟩) (hind : inn.indirectExtentBlock = 0)
    (hmode : inn.mode < 2 ^ 16) (hsize : size < 2 ^ 64) (hlinks : links < 2 ^ 16) :
    Fits {firstBlock inn b with sizeBytes := size, linksCount := links} := by
  have hdirect : ∀ k, (update inn.direct 0 ⟨b, 1⟩ k).startBlock < 2 ^ 64 ∧
      (update inn.direct 0 ⟨b, 1⟩ k).blockCount < 2 ^ 32 := by
    intro k
    by_cases hk : k = 0
    · rw [hk, update_self]
      exact ⟨hb, show 1 < 2 ^ 32 by decide⟩
    · rw [update_of_ne hk, hinn]
      decide
  have hused : 1 < 2 ^ 64 := by decide
  have hindirect : inn.indirectExtentBlock < 2 ^ 64 := by
    rw [hind]
    decide
  exact ⟨hmode, hlinks, hsize, hused, fun k => (hdirect k).1, fun k => (hdirect k).2, hindirect⟩

theorem createApps (hv : fs.vol.Empty) (hd : fs.vol.dataStart = d) (h0 : fs.inode 0 = rootInode)
    (hu0 : (fs.inoPool 0).used = true) (hu1 : (fs.inoPool 1).used = false) :
    ∃ fs', createChild fs 0 appsName flagDir = (.ok 1, fs') ∧ fs'.inode 0 = linkedRoot d ∧
      (fs'.inode 1).ino = 2 ∧ VolOk fs'.vol ∧ fs'.vol.sb = fs.vol.sb.afterApps ∧
      fs'.vol.dataStart = d ∧ diskInode fs'.vol 2 = (appsInode d).core := by
  have hlookup : dirLookupEntry fs.vol (fs.inode 0) appsName = .error .enoent := by
    rw [h0]
    simp [dirLookupEntry, hv.kmalloc, lookupLoop, rootInode, freshInode, appsName]
  have hlow : ∀ x < 1, (fs.inoPool x).used = true := by
    intro x hx
    rw [Nat.lt_one_iff.mp hx]
    exact hu0
  have hslot := inoCacheSlot_first {fs with vol := fs.vol.takeInode 2} (by decide) hu1 hlow
  have hroom := hv.room
  have htotal := hv.sound.total
  obtain ⟨fs₄, hlink, hroot, happs, hv₄, hsb₄, hd₄⟩ := linkApps
    (inoCacheInsertNolock ((({fs with vol := fs.vol.takeInode 2} : Fs).setEntry 1
      {fs.inoPool 1 with dead := false}).setIno 1 (freshInode 2 flagDir)) 1)
    (hv.toVolOk.takeInode (by decide)) hd (hd ▸ hroom) (fun b hb => hv.bits b (hd ▸ hb)) h0 rfl
  have hnumber : 2 < fs₄.vol.sb.totalInodes := by
    rw [hsb₄]
    exact hv.number
  have hfits : Fits (appsInode d) ∧ Fits (linkedRoot d) :=
    ⟨fits_firstBlock (by omega) (fun _ => rfl) rfl (by decide) (by decide) (by decide),
      fits_firstBlock (by omega) (fun _ => rfl) rfl (by decide) (by decide) (by decide)⟩
  -- The slot of "/apps", then that of the root.
  obtain ⟨hv₅, hsb₅, hd₅, hslots₅⟩ := syncEntry_spec fs₄ 1 hv₄ (happs ▸ hfits.1)
    (by rw [happs]; exact Nat.le_succ 1) (by rw [happs]; exact hnumber)
  let fs₆ := ((fs₄.syncEntry 1).mapInode 1 fun inn => {inn with dirty := false}).mapInode 0
    fun r => {r with dirty := true}
  have hroot₆ : fs₆.inode 0 = linkedRoot d := by
    change {fs₄.inode 0 with dirty := true} = _
    rw [hroot]
    rfl
  obtain ⟨hv₇, hsb₇, hd₇, hslots₇⟩ := syncEntry_spec fs₆ 0 hv₅ (hroot₆ ▸ hfits.2)
    (by rw [hroot₆]; exact le_rfl)
    (by rw [hroot₆]; change 1 < (fs₄.syncEntry 1).vol.sb.totalInodes; rw [hsb₅]; omega)
  have hrun : createChild fs 0 appsName flagDir = (.ok 1, fs₆.syncEntry 0) := by
    rw [createChild, if_neg (by rw [h0]; decide), if_neg (by decide), if_neg (by decide), hlookup]
    rw [inoAllocNolock_empty hv]
    dsimp only
    rw [hslot]
    dsimp only
    rw [hlink]
  refine ⟨_, hrun, hroot₆, ?_, hv₇, ?_, ?_, ?_⟩
  · change (fs₄.inode 1).ino = 2
    rw [happs]
    rfl
  · rw [hsb₇]
    change (fs₄.syncEntry 1).vol.sb = _
    rw [hsb₅, hsb₄]
    rfl
  · rw [hd₇]
    change (fs₄.syncEntry 1).vol.dataStart = _
    rw [hd₅, hd₄]
  · have hne : ¬ 2 = (linkedRoot d).ino := show ¬ 2 = 1 by decide
    rw [hslots₇ 2 (by decide), hroot₆, if_neg hne]
    change diskInode (fs₄.syncEntry 1).vol 2 = _
    rw [hslots₅ 2 (by decide), happs]
    rfl

/-- `kfs_format_locked` on a device of 8 MiB to 2 GiB that works. -/
theorem kfsFormatLocked_spec {total sectors : Nat} (hv : fs.vol.NoFault)
    (htotal : formatBlocks sectors = total) (hlow : 2047 ≤ total) (hhigh : total ≤ 524287) :
    ∃ fs', kfsFormatLocked fs sectors = (.eok, fs') ∧ VolOk fs'.vol ∧
      fs'.vol.sb = (layoutCompute total).afterApps ∧
      (∀ j < 4096, fs'.vol.disk 0 j = superblockBytes fs'.vol.sb j) ∧
      diskInode fs'.vol 1 =
        {linkedRoot (layoutCompute total).dataBlocksStart with sizeBytes := 4096}.core ∧
      diskInode fs'.vol 2 = (appsInode (layoutCompute total).dataBlocksStart).core := by
  have hempty := formatVol_empty hv hlow hhigh
  have hslot := inoCacheSlot_first (inoCacheReset {fs with vol := formatVol fs.vol total})
    (show 0 < 64 by decide) rfl (fun x hx => absurd hx (Nat.not_lt_zero x))
  obtain ⟨d, hd⟩ : ∃ d, (layoutCompute total).dataBlocksStart = d := ⟨_, rfl⟩
  have hbound : d + 1 < 2 ^ 29 := by
    have := (layoutCompute_bounds hlow hhigh).1
    omega
  have hfits : Fits rootInode :=
    ⟨by decide, by decide, by decide, by decide, fun _ => (by decide : 0 < 2 ^ 64),
      fun _ => (by decide : 0 < 2 ^ 32), by decide⟩
  -- The root gets its slot, and "/apps" its entry.
  obtain ⟨v₃, hrun₃, hmeta₃, hv₃, -⟩ := inoSyncNolock_spec hempty.toVolOk hfits
    le_rfl (Nat.lt_of_succ_lt hempty.number)
  let fs₁ := inoCacheReset {fs with vol := formatVol fs.vol total}
  let fs₂ := inoCacheInsertNolock ((fs₁.setEntry 0 {fs₁.inoPool 0 with dead := false}).setIno 0
    rootInode) 0
  have hvol₃ : (fs₂.syncEntry 0).vol = v₃ := congrArg Prod.snd hrun₃
  have hd₃ : (fs₂.syncEntry 0).vol.dataStart = d := by
    rw [hvol₃, hmeta₃.dataStart_eq]
    exact hd
  obtain ⟨fs₄, hrun₄, hroot₄, -, hv₄, hsb₄, hd₄, happs₄⟩ := createApps
    (hvol₃ ▸ hempty.metaWrite hmeta₃ hv₃ : (fs₂.syncEntry 0).vol.Empty) hd₃ rfl rfl rfl
  have hsb : fs₄.vol.sb = (layoutCompute total).afterApps := by
    rw [hsb₄, hvol₃, hmeta₃.sb_eq]
    rfl
  -- The root block is written whole, and the slot again.
  have htarget : writeTarget fs₄.vol (fs₄.inode 0) 0 = (.ok (d + 1), fs₄.vol, linkedRoot d) := by
    rw [hroot₄]
    simp [writeTarget, kzfsGetPhysBlock, physLoop, extGetNolock, linkedRoot, firstBlock]
  have hwrite := blkWriteFile_first (n := 4096) (rootBlock (fs₄.inode 1).ino) htarget
    (hv₄.sound.io (d + 1)) (by decide) le_rfl
  have hv₅ := hv₄.putData (show fs₄.vol.dataStart ≤ d + 1 by omega)
    (memcpy (fs₄.vol.disk (d + 1)) 0 (rootBlock (fs₄.inode 1).ino) 0 4096)
  generalize hw : fs₄.vol.putBlock (d + 1)
    (memcpy (fs₄.vol.disk (d + 1)) 0 (rootBlock (fs₄.inode 1).ino) 0 4096) = w at hwrite hv₅
  have hsb₅ : w.sb = (layoutCompute total).afterApps := by
    rw [← hw]
    exact hsb
  have happs₅ : diskInode w 2 = diskInode fs₄.vol 2 := by
    rw [← hw]
    refine diskInode_congr rfl (if_neg ?_)
    have hslot := hv₄.slotBlock_lt (show 1 ≤ 2 by decide) (by rw [hsb]; exact hempty.number)
    omega
  let fs₅ := ({fs₄ with vol := w} : Fs).setIno 0 {linkedRoot d with sizeBytes := 4096}
  have hfits₅ : Fits {firstBlock rootInode (d + 1) with sizeBytes := 4096, linksCount := 4} :=
    fits_firstBlock (by omega) (fun _ => rfl) rfl (by decide) (by decide) (by decide)
  obtain ⟨hv₆, hsb₆, -, hslots₆⟩ := syncEntry_spec fs₅ 0 hv₅ hfits₅ le_rfl (by
      change 1 < w.sb.totalInodes
      rw [hsb₅]
      exact Nat.lt_of_succ_lt hempty.number)
  -- The two bitmaps and the superblock.
  obtain ⟨v₇, hrun₇, hmeta₇, hv₇, -, -, hslots₇⟩ := bmFlush_spec hv₆
  obtain ⟨v₈, hrun₈, hmeta₈, hv₈, -, -, hslots₈⟩ := ibmFlush_spec hv₇
  obtain ⟨v₉, hrun₉, hmeta₉, hv₉, -, -, hzero₉, -, hslots₉⟩ := sbSave_spec hv₈
  have hsb₉ : v₉.sb = (layoutCompute total).afterApps := by
    rw [hmeta₉.sb_eq, hmeta₈.sb_eq, hmeta₇.sb_eq, hsb₆]
    exact hsb₅
  have hslots : ∀ i, diskInode v₉ i = diskInode (fs₅.syncEntry 0).vol i := fun i => by
    rw [hslots₉, hslots₈, hslots₇]
  let fs₇ := (fs₅.syncEntry 0).mapInode 0 fun inn => {inn with refcount := 0, dirty := false}
  let fs₈ := fs₇.mapInode 1 fun inn => {inn with refcount := 0, dirty := false}
  have hrun : kfsFormatLocked fs sectors = (.eok, fs₈.bmFlush.ibmFlush.sbSave) := by
    unfold kfsFormatLocked
    rw [htotal]
    dsimp only
    rw [hslot]
    dsimp only
    rw [show createChild _ 0 appsName flagDir = _ from hrun₄]
    simp only [Fs.onInode, hwrite]
    rfl
  have hvol : fs₈.bmFlush.ibmFlush.sbSave.vol = v₉ := by
    change (sbSave (ibmFlush (bmFlush (fs₅.syncEntry 0).vol).2).2).2 = v₉
    rw [hrun₇, hrun₈, hrun₉]
  refine ⟨_, hrun, hvol ▸ hv₉, hvol ▸ hsb₉, ?_, ?_, ?_⟩
  · rw [hvol, hmeta₉.sb_eq]
    exact hzero₉
  · rw [hvol, hslots, hslots₆ 1 le_rfl, hd]
    rfl
  · have hne : ¬ 2 = (fs₅.inode 0).ino := show ¬ 2 = 1 by decide
    rw [hvol, hslots, hslots₆ 2 (by decide), if_neg hne, hd]
    exact happs₅.trans happs₄

end Steps

end Kyuzen.Kfs
