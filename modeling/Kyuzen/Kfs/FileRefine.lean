import Kyuzen.Base.ByteFile
import Kyuzen.Base.Run
import Kyuzen.Kfs.InOrder
import Kyuzen.Kfs.Mapping

/-!
A regular file as a byte array: what a sequence of `v4_write`, `v4_truncate` and
`v4_read` calls on one file has to do with the array that the same operations
build, and which bytes the code shows without anybody having written them.
-/

namespace Kyuzen.Kfs

open List Fs

variable {v v' : Vol} {inn inn' : InodeMem} {f : ByteFile} {e h size : Nat} {fs : Fs}

structure Shows (v : Vol) (inn : InodeMem) (f : ByteFile) : Prop where
  size : inn.sizeBytes = f.size
  bytes : ∀ p < f.size, fileByte v inn p = f.byte p

/-- A position that a call makes visible without writing it: it is in the file
and mapped afterwards, and was outside the file or in a hole before. -/
def Exposed (v : Vol) (inn : InodeMem) (v' : Vol) (inn' : InodeMem) (off n p : Nat) : Prop :=
  p < inn'.sizeBytes ∧ p < covered v' inn' ∧ ¬ (off ≤ p ∧ p < off + n) ∧
    (inn.sizeBytes ≤ p ∨ covered v inn ≤ p)

/-- A call that writes `n` bytes at `off` shows no old byte of a block: it
merges no run into an inner extent, and what it exposes is zero already. -/
structure Clean (v : Vol) (inn : InodeMem) (v' : Vol) (inn' : InodeMem) (off n : Nat) : Prop where
  merges : v'.innerMerges = v.innerMerges
  zero : ∀ p, Exposed v inn v' inn' off n p → fileByte v' inn' p = 0

/-- A write of `n` bytes at `off` finds everything it will show without writing it
to be zero: the mapped bytes from the end of the file up to `off`, and, if it
leaves bytes of new blocks unwritten inside the file, all free blocks. The blocks
it adds come in order. -/
structure WriteReady (v : Vol) (inn : InodeMem) (off n : Nat) : Prop where
  inOrder : InOrder v inn off n
  tail : ∀ p, inn.sizeBytes ≤ p → p < off → p < covered v inn → fileByte v inn p = 0
  fresh : off + n ≤ covered v inn ∨
    off ≤ covered v inn ∧ (inn.sizeBytes ≤ off + n ∨ (off + n) % 4096 = 0) ∨
    ∀ b, v.IsFree b → ∀ i < 4096, v.disk b i = 0

variable {data : List UInt8} {v'' : Vol} {f' : ByteFile} {fs' : Fs}

theorem WriteReady.clean {off n : Nat} {buf : Buf} (h : WriteReady v inn off n) (hn : n ≠ 0)
    (hwritten : Written v inn v' inn' off n buf) (htidy : Tidy v inn v' inn' (off + n)) :
    Clean v inn v' inn' off n := by
  refine ⟨htidy.merges, fun p hp => ?_⟩
  obtain ⟨hsize, hcov, hout, hnew⟩ := hp
  rw [hwritten.size, if_neg hn] at hsize
  have hbound := htidy.bound
  by_cases hold : p < covered v inn
  · rw [hwritten.outside htidy.merges p hold hout]
    exact h.tail p (by omega) (by omega) hold
  have hmul : covered v inn % 4096 = 0 := Nat.mul_mod_left _ _
  rcases h.fresh with hall | ⟨hstart, hend | hend⟩ | hzero
  · omega
  · omega
  · omega
  obtain ⟨b, hb, hbyte⟩ := hwritten.fresh htidy.merges p (by omega) hcov hout
  rw [hbyte]
  exact hzero b hb _ (Nat.mod_lt _ (by decide))

/-- A successful write that found everything ready shows no old byte; one of no
bytes changes nothing. -/
theorem writePieces_clean {off w : Nat} (hv : v.Sound) (hinv : FileInv v inn)
    (hready : data ≠ [] → WriteReady v inn off data.length)
    (hcall : writePieces (nameBuf data) off data.length data.length v inn 0 = (.eok, v', inn', w))
    (hwritten : Written v inn v' inn' off data.length (nameBuf data)) :
    Clean v inn v' inn' off data.length := by
  by_cases hnil : data = []
  · subst hnil
    cases hcall
    refine ⟨rfl, fun p hp => ?_⟩
    obtain ⟨hsize, hcov, -, hnew⟩ := hp
    omega
  · have hpos : data.length ≠ 0 := fun h => hnil (length_eq_zero_iff.mp h)
    have hready := hready hnil
    have hstart : InOrder v inn (off + 0) (data.length - 0) := hready.inOrder
    exact hready.clean hpos hwritten
      (writePieces_tidy hv hinv hstart le_rfl (Nat.zero_le _) hcall)

theorem Shows.write {v v' : Vol} {inn inn' : InodeMem} {off : Nat} (h : Shows v inn f)
    (hwritten : Written v inn v' inn' off data.length (nameBuf data))
    (hclean : Clean v inn v' inn' off data.length) : Shows v' inn' (f.write off data) := by
  have hsize : inn'.sizeBytes = (f.write off data).size := by
    rw [hwritten.size, h.size]
    simp [ByteFile.write]
  refine ⟨hsize, fun p hp => ?_⟩
  rw [← hsize] at hp
  have hgrows := hwritten.grows
  by_cases hin : off ≤ p ∧ p < off + data.length
  · have hbyte := hwritten.inside hclean.merges (p - off) (by omega)
    rw [show off + (p - off) = p by omega] at hbyte
    rw [hbyte]
    exact (if_pos hin).symm
  have hkeep : (f.write off data).byte p = f.byte p := if_neg hin
  rw [hkeep]
  by_cases hcov : p < covered v inn
  · by_cases hold : p < f.size
    · rw [hwritten.outside hclean.merges p hcov hin, h.bytes p hold]
    · rw [f.beyond p (by omega)]
      exact hclean.zero p ⟨hp, by omega, hin, Or.inl (by rw [h.size]; omega)⟩
  -- Outside of the old blocks the file read as zero, in it and behind it.
  have hzero : f.byte p = 0 := by
    by_cases hold : p < f.size
    · rw [← h.bytes p hold, fileByte_hole (by omega)]
    · exact f.beyond p (by omega)
  rw [hzero]
  by_cases hcov' : p < covered v' inn'
  · exact hclean.zero p ⟨hp, hcov', hin, Or.inr (by omega)⟩
  · exact fileByte_hole (by omega)

theorem Shows.truncate (h : Shows v inn f) (hinv : FileInv v inn) (hsize : inn'.sizeBytes = size)
    (hblocks : dataBlocks v' inn' = (dataBlocks v inn).take (sizeBlocks size))
    (hdisk : ∀ b ∉ indirectBlocks inn, v'.disk b = v.disk b)
    (htail : ∀ p, inn.sizeBytes ≤ p → p < size → p < covered v inn → fileByte v inn p = 0) :
    Shows v' inn' (f.truncate size) := by
  refine ⟨hsize, fun p hp => ?_⟩
  change p < size at hp
  have hkeep : (f.truncate size).byte p = f.byte p := if_pos hp
  have hlt : p / 4096 < sizeBlocks size := by
    unfold sizeBlocks
    omega
  have hsame : fileByte v' inn' p = fileByte v inn p := by
    unfold fileByte
    rw [hblocks, getElem?_take_of_lt hlt]
    cases hget : (dataBlocks v inn)[p / 4096]? with
    | none => rfl
    | some b =>
      have hdata : b ∈ dataBlocks v inn := mem_of_getElem? hget
      have hnot : b ∉ indirectBlocks inn := fun hb =>
        (nodup_append.mp hinv.nodup).2.2 b hdata b hb rfl
      simp only [hdisk b hnot]
  rw [hkeep]
  by_cases hold : p < f.size
  · rw [hsame, h.bytes p hold]
  · rw [f.beyond p (by omega), hsame]
    by_cases hcov : p < covered v inn
    · exact htail p (by rw [h.size]; omega) hp hcov
    · exact fileByte_hole (by omega)

/-! ## One open file -/

structure FileEntry (e : Nat) (fs : Fs) (f : ByteFile) : Prop where
  sound : fs.vol.Sound
  layout : fs.vol.Layout
  slot : slotBlock fs.vol (fs.inode e).ino < fs.vol.dataStart
  inv : FileInv fs.vol (fs.inode e)
  shows_ : Shows fs.vol (fs.inode e) f

/-- Vnode `h` is a regular file over cache entry `e` that shows `f`. -/
structure OpenFile (h e : Nat) (fs : Fs) (f : ByteFile) : Prop extends FileEntry e fs f where
  vnode : ∃ n, fs.vnode h = some n ∧ n.type = .vReg ∧ n.fsData = e

inductive FileOp where
  | write (off : Nat) (data : List UInt8)
  | truncate (size : Nat)
  | read (off count : Nat)

def FileOp.apply (f : ByteFile) : FileOp → ByteFile
  | .write off data => f.write off data
  | .truncate size => f.truncate size
  | .read _ _ => f

/-- The operation through vnode `h`, when it succeeds. -/
def FileOp.Succeeds (h : Nat) (fs : Fs) : FileOp → Fs → Prop
  | .write off data, fs' => ∃ w, v4Write fs h off data = (.ok w, fs')
  | .truncate size, fs' => v4Truncate fs h size = (.eok, fs')
  | .read _ _, fs' => fs' = fs

/-- The file and the volume before the call are such that it shows no old byte. A
truncation that makes the file longer shows the mapped bytes behind its end. -/
def FileOp.Ready (e : Nat) (fs : Fs) : FileOp → Prop
  | .write off data => data ≠ [] → WriteReady fs.vol (fs.inode e) off data.length
  | .truncate size => ∀ p, (fs.inode e).sizeBytes ≤ p → p < size →
    p < covered fs.vol (fs.inode e) → fileByte fs.vol (fs.inode e) p = 0
  | .read _ _ => True

theorem Shows.of_meta (h : Shows v inn f) (hmeta : MetaWrite v v') (hinv : FileInv v inn) :
    Shows v' inn f :=
  ⟨h.size, fun p hp => by rw [hmeta.fileByte_eq hinv, h.bytes p hp]⟩

theorem slotBlock_congr (h : v'.itBlock0 = v.itBlock0) (ino : Nat) :
    slotBlock v' ino = slotBlock v ino := by
  rw [slotBlock, slotBlock, h]

theorem Effect.slot_lt (h : Effect v inn v' inn') (hslot : slotBlock v inn.ino < v.dataStart) :
    slotBlock v' inn'.ino < v'.dataStart := by
  rw [slotBlock_congr h.shape.itBlock0, h.same.ino, h.shape.dataStart]
  exact hslot

theorem FileEntry.update (hfile : FileEntry e fs f)
    (heffect : Effect fs.vol (fs.inode e) v' inn') (hmeta : MetaWrite v' v'')
    (hshows : Shows v' inn' f') (size : Nat) :
    FileEntry e (({fs with vol := v''}.setIno e inn').setVnodeSize h size) f' := by
  have hslot := heffect.slot_lt hfile.slot
  refine ⟨hmeta.sound (heffect.shape.sound hfile.sound),
    hmeta.layout (heffect.shape.layout hfile.layout), ?_, ?_, ?_⟩
  · rw [setVnodeSize_inode, inode_setIno_self]
    change slotBlock v'' inn'.ino < v''.dataStart
    rw [slotBlock_congr (by rw [hmeta.eq]), hmeta.dataStart_eq]
    exact hslot
  · rw [setVnodeSize_inode, inode_setIno_self]
    exact (hmeta.fileInv heffect.inv).1
  · rw [setVnodeSize_inode, inode_setIno_self]
    exact hshows.of_meta hmeta heffect.inv

/-- A call through vnode `h` changes the size field of that vnode and no other. -/
theorem OpenFile.of_entry (hopen : OpenFile h e fs f)
    (hfile : FileEntry e (({fs with vol := v}.setIno e inn).setVnodeSize h size) f') :
    OpenFile h e (({fs with vol := v}.setIno e inn).setVnodeSize h size) f' := by
  obtain ⟨n, hn, htype, he⟩ := hopen.vnode
  refine ⟨hfile, {n with size := size}, ?_, htype, he⟩
  have hvnode : ({fs with vol := v}.setIno e inn).vnode h = some n := hn
  rw [vnode_setVnodeSize, hvnode]
  simp

open FileOp

theorem FileEntry.write {h off w : Nat} {n : Vnode} (hfile : FileEntry n.fsData fs f)
    (hn : fs.vnode h = some n)
    (htype : n.type = .vReg) (hcall : v4Write fs h off data = (.ok w, fs'))
    (hready : (write off data).Ready n.fsData fs) :
    FileEntry n.fsData fs' (f.write off data) ∧
      ∃ v' inn' size, fs' = ({fs with vol := v'}.setIno n.fsData inn').setVnodeSize h size := by
  obtain ⟨rc, v', inn', w', hpieces, hwritten, -, hfull, hrun⟩ :=
    v4Write_spec hn htype hfile.sound hfile.inv off data
  rw [hrun] at hcall
  by_cases hok : rc = .eok
  · rw [if_pos hok] at hcall
    have hw := hfull hok
    subst hw
    rw [hok] at hpieces
    have hclean := writePieces_clean hfile.sound hfile.inv hready hpieces hwritten
    have hmeta : MetaWrite v'
        (if rc = .eok ∧ data.length > 0 then persist v' inn' else v') := by
      split
      · exact persist_meta (hwritten.effect.shape.sound hfile.sound)
          (hwritten.effect.shape.layout hfile.layout) (hwritten.effect.slot_lt hfile.slot)
      · exact MetaWrite.refl v'
    have hfs : fs' = _ := (congrArg Prod.snd hcall).symm
    subst hfs
    exact ⟨hfile.update hwritten.effect hmeta (hfile.shows_.write hwritten hclean) _, _, _, _, rfl⟩
  · rw [if_neg hok] at hcall
    exact absurd (congrArg Prod.fst hcall) (by simp)

theorem OpenFile.write {h e off : Nat}
    (hopen : OpenFile h e fs f) (hcall : (write off data).Succeeds h fs fs')
    (hready : (write off data).Ready e fs) : OpenFile h e fs' (f.write off data) := by
  obtain ⟨n, hn, htype, rfl⟩ := hopen.vnode
  obtain ⟨w, hcall⟩ := hcall
  obtain ⟨hfile, v', inn', size, rfl⟩ := hopen.toFileEntry.write hn htype hcall hready
  exact hopen.of_entry hfile

theorem OpenFile.truncate {fs' : Fs} (hopen : OpenFile h e fs f)
    (hcall : (truncate size).Succeeds h fs fs')
    (hready : (truncate size).Ready e fs) : OpenFile h e fs' (f.truncate size) := by
  obtain ⟨n, hn, -, rfl⟩ := hopen.vnode
  obtain ⟨v', inn', htrunc, hrun⟩ := v4Truncate_spec hn hopen.sound hopen.inv size
  obtain ⟨v'', inn'', htrunc', heffect, hsize, hblocks, hdisk, -⟩ :=
    truncateNolock_spec hopen.sound hopen.inv size
  rw [htrunc] at htrunc'
  cases htrunc'
  have hmeta := persist_meta (heffect.shape.sound hopen.sound)
    (heffect.shape.layout hopen.layout) (heffect.slot_lt hopen.slot)
  have hfs : fs' = _ := (congrArg Prod.snd (hrun.symm.trans hcall)).symm
  subst hfs
  exact hopen.of_entry (hopen.toFileEntry.update heffect hmeta
    (hopen.shows_.truncate hopen.inv hsize hblocks hdisk hready) _)

/-- Over any sequence of successful calls, each made when the file and the volume
are ready for it, `v4_read` returns the bytes of the array that the same writes and
truncates build from an empty one. -/
theorem v4Read_eq_of_run {h e : Nat} {fs fs' : Fs} {ops : List FileOp}
    (hopen : OpenFile h e fs .empty)
    (hrun : Run (fun s op s' => FileOp.Succeeds h s op s' ∧ op.Ready e s) fs ops fs')
    (off : Nat) (buf : Buf) (count : Nat) :
    v4Read fs' h off buf count = .ok ((ops.foldl FileOp.apply .empty).read off count) := by
  have hfinal : OpenFile h e fs' (ops.foldl apply .empty) := by
    refine Run.simulation ?_ hrun hopen
    rintro s f op s' hs ⟨hcall, hready⟩
    cases op with
    | write off data => exact hs.write hcall hready
    | truncate size => exact hs.truncate hcall hready
    | read off count =>
      cases hcall
      exact hs
  obtain ⟨n, hn, htype, rfl⟩ := hfinal.vnode
  rw [v4Read_spec hn htype hfinal.sound hfinal.inv, ByteFile.read, hfinal.shows_.size]
  refine congrArg Except.ok (map_congr_left fun i hi => ?_)
  rw [List.mem_range] at hi
  exact hfinal.shows_.bytes _ (by omega)

/-! ## A file on the small volume -/

def smallFs : Fs where
  vol := smallVol
  inoPool i := ⟨emptyFile, i = 0, false⟩
  inoHash k := if k = 2 then [0] else []
  vnodes := [(0, ⟨.vReg, 1, 0, 2, 0⟩)]
  nextVnode := 1

theorem smallFs_open : OpenFile 0 0 smallFs .empty where
  vnode := ⟨⟨.vReg, 1, 0, 2, 0⟩, rfl, rfl, rfl⟩
  sound := smallVol_sound
  layout := ⟨rfl, rfl, rfl, rfl, rfl, rfl, rfl, rfl, by decide⟩
  slot := by decide
  inv := FileInv.of_empty (fun _ => rfl) rfl rfl
  shows_ := ⟨rfl, fun p hp => absurd hp (Nat.not_lt_zero p)⟩

def written2 : Fs := (v4Write smallFs 0 0 [1, 2]).2
def cut1 : Fs := (v4Truncate written2 0 1).2
def written1 : Fs := (v4Write cut1 0 1 [9]).2

theorem snug_of_nil {v : Vol} {inn : InodeMem} (h : extentList v inn = []) : Snug v inn :=
  ⟨by simp [h], by simp [h]⟩

/-- Two bytes are written, one is cut off and another one written in its place. -/
theorem v4Read_eq_of_run_smallFs : v4Read written1 0 0 (fun _ => 0) 4 = .ok [1, 9] := by
  have hfirst : (write 0 [1, 2]).Succeeds 0 smallFs written2 ∧ (write 0 [1, 2]).Ready 0 smallFs := by
    refine ⟨⟨2, Prod.ext (by decide +kernel) rfl⟩, fun _ => ⟨.inr ⟨snug_of_nil ?_, ?_⟩, ?_, ?_⟩⟩
    · decide +kernel
    · exact oneRun_of_le (Nat.zero_le _)
    · exact fun p _ hlt => absurd hlt (Nat.not_lt_zero p)
    · exact .inr (.inl ⟨Nat.zero_le _, .inl (by decide +kernel)⟩)
  have hsecond : (truncate 1).Succeeds 0 written2 cut1 ∧ (truncate 1).Ready 0 written2 := by
    have hsize : (written2.inode 0).sizeBytes = 2 := by decide +kernel
    refine ⟨Prod.ext (by decide +kernel) rfl, fun p hp hlt => ?_⟩
    omega
  have hthird : (write 1 [9]).Succeeds 0 cut1 written1 ∧ (write 1 [9]).Ready 0 cut1 := by
    have hsize : (cut1.inode 0).sizeBytes = 1 := by decide +kernel
    have hcov : covered cut1.vol (cut1.inode 0) = 4096 := by decide +kernel
    refine ⟨⟨1, Prod.ext (by decide +kernel) rfl⟩, fun _ => ⟨.inl ?_, fun p hp hlt => ?_, .inl ?_⟩⟩
    · rw [hcov]
      decide
    · omega
    · rw [hcov]
      decide
  exact v4Read_eq_of_run smallFs_open (.cons hfirst (.cons hsecond (.cons hthird (.nil _))))
    0 (fun _ => 0) 4

/-- One byte at offset 1 of an empty file shows the old byte of its block at
offset 0, where the byte array has a zero. -/
theorem v4Write_shows_old_byte : ∃ fs', (FileOp.write 1 [7]).Succeeds 0 smallFs fs' ∧
      v4Read fs' 0 0 (fun _ => 0) 2 = .ok [5, 7] ∧
      (FileOp.apply .empty (.write 1 [7])).read 0 2 = [0, 7] :=
  ⟨(v4Write smallFs 0 1 [7]).2, ⟨1, Prod.ext (by decide +kernel) rfl⟩, by decide +kernel,
    by decide +kernel⟩

end Kyuzen.Kfs
