import Kyuzen.Kfs.FileRefine
import Kyuzen.Vfs.Fd

/-!
`vfs_write` through descriptions opened with `VFS_O_APPEND`: where the data of
interleaved writes through several descriptions of one file ends up.
-/

namespace Kyuzen.Vfs

open Kyuzen.Kfs List

/-- One `vfs_write`: the task, its descriptor, and the data. -/
structure WriteCall where
  task : Nat
  fd : Nat
  data : List UInt8

/-- The descriptor names a description, opened with `VFS_O_APPEND`, of vnode `h`,
which is a regular file. -/
structure AppendTo (s : State) (c : WriteCall) (d h : Nat) (n : Vnode) : Prop where
  resolve : resolveOpen s c.task c.fd = some d
  kind : (s.opens d).kind = .file
  append : hasFlag (s.opens d).flags oAppend = true
  vnode : (s.opens d).vnode = some h
  lookup : s.fs.vnode h = some n
  type : n.type = .vReg

/-- A `vfs_write` that writes all its data through an append description of the
file in cache entry `e`. -/
def AppendStep (e : Nat) (s : State) (c : WriteCall) (s' : State) : Prop :=
  vfsWrite s c.task c.fd c.data = (some (c.data.length : Int), s') ∧
    ∃ d h n, AppendTo s c d h n ∧ n.fsData = e

/-- The write will land at the true end of the file: the size that the vnode
remembers is the size of the inode and fits the 32-bit offset, and file and volume
are ready for a write there. -/
def AtEnd (e : Nat) (s : State) (c : WriteCall) : Prop :=
  c.data ≠ [] → (s.fs.inode e).sizeBytes < 2 ^ 32 ∧
    (∀ d h n, AppendTo s c d h n → n.size = (s.fs.inode e).sizeBytes) ∧
    WriteReady s.fs.vol (s.fs.inode e) (s.fs.inode e).sizeBytes c.data.length

variable {s : State} {c : WriteCall}

theorem vfsWrite_append {s' : State} {d h : Nat} {n : Vnode} (hto : AppendTo s c d h n)
    (hcall : vfsWrite s c.task c.fd c.data = (some (c.data.length : Int), s')) :
    ∃ w, v4Write s.fs h (n.size % 2 ^ 32) (c.data.take 0x40000000) = (.ok w, s'.fs) ∧
      w = c.data.length := by
  unfold vfsWrite at hcall
  simp only [hto.resolve, hto.kind] at hcall
  cases hflags : hasFlag (s.opens d).flags (oWronly ||| oRdwr) with
  | false =>
    rw [hflags] at hcall
    simp only [Bool.false_eq_true, not_false_eq_true, if_true, Prod.mk.injEq,
      Option.some.injEq] at hcall
    omega
  | true =>
    simp only [hflags, not_true_eq_false, if_false, writeDesc, hto.vnode, hto.append, hto.lookup,
      if_true] at hcall
    cases hwrite : v4Write s.fs h (n.size % 2 ^ 32) (c.data.take 0x40000000) with
    | mk r fs' =>
      rw [hwrite] at hcall
      cases r with
      | ok w =>
        simp only [Prod.mk.injEq, Option.some.injEq, Int.natCast_inj] at hcall
        obtain ⟨hw, hs⟩ := hcall
        refine ⟨w, ?_, hw⟩
        rw [← hs]
      | error rc =>
        simp only [Prod.mk.injEq, Option.some.injEq] at hcall
        omega

theorem AppendStep.fileEntry {e : Nat} {s' : State} {f : ByteFile} (hfile : FileEntry e s.fs f)
    (hstep : AppendStep e s c s') (hend : AtEnd e s c) :
    FileEntry e s'.fs (f.write f.size c.data) := by
  obtain ⟨hcall, d, h, n, hto, rfl⟩ := hstep
  obtain ⟨w, hwrite, hw⟩ := vfsWrite_append hto hcall
  -- All the data was written, so the clamp of the count did not cut it.
  have hlen := v4Write_ok_length hto.lookup hto.type hfile.sound hfile.inv hwrite
  have htake : c.data.take 0x40000000 = c.data := by
    refine take_of_length_le ?_
    rw [length_take] at hlen
    omega
  rw [htake] at hwrite
  by_cases hnil : c.data = []
  · -- Writing nothing leaves every byte, wherever the description stands.
    rw [hnil] at hwrite ⊢
    have hfile' := (hfile.write hto.lookup hto.type hwrite (absurd rfl)).1
    rwa [ByteFile.write_nil] at hfile' ⊢
  · obtain ⟨hlt, hsize, hready⟩ := hend hnil
    have hpos : n.size % 2 ^ 32 = (s.fs.inode n.fsData).sizeBytes := by
      rw [hsize d h n hto, Nat.mod_eq_of_lt hlt]
    rw [hpos] at hwrite
    have hfile' := (hfile.write hto.lookup hto.type hwrite fun _ => hready).1
    rwa [hfile.shows_.size] at hfile'

/-- In any interleaving of append writes that each land at the true end, the file
ends up with its old content followed by the data of the writes in their order. -/
theorem appendRun_content {e : Nat} {s s' : State} {calls : List WriteCall} {f : ByteFile}
    (hfile : FileEntry e s.fs f)
    (hrun : Run (fun s c s' => AppendStep e s c s' ∧ AtEnd e s c) s calls s') :
    ∃ f', FileEntry e s'.fs f' ∧
      f'.toList = f.toList ++ calls.flatMap fun c => c.data := by
  have hsim := Run.simulation (R := fun (s : State) f => FileEntry e s.fs f)
    (f := fun f (c : WriteCall) => f.write f.size c.data)
    (fun s f c s' hs hstep => hstep.1.fileEntry hs hstep.2) hrun hfile
  refine ⟨_, hsim, ?_⟩
  clear hsim hrun hfile
  induction calls generalizing f with
  | nil => simp
  | cons c calls ih =>
    rw [foldl_cons, ih, ByteFile.toList_write_end, flatMap_cons, append_assoc]

/-! ## One description, and two -/

def noDesc : OpenDesc := ⟨0, .tty, none, 0, 0⟩

def oneDesc : State where
  fs := smallFs
  fds i := ⟨i = 0, 0, 0⟩
  opens d := if d = 0 then ⟨1, .file, some 0, 0, oWronly ||| oAppend⟩ else noDesc
  nextOpen := 1

def oneDesc1 : State := (vfsWrite oneDesc 0 0 [1]).2
def oneDesc2 : State := (vfsWrite oneDesc1 0 0 [2]).2

theorem AppendTo.unique {d d' h h' : Nat} {n n' : Vnode} (hto : AppendTo s c d h n)
    (hto' : AppendTo s c d' h' n') : n = n' := by
  have hd := hto.resolve.symm.trans hto'.resolve
  cases hd
  have hh := hto.vnode.symm.trans hto'.vnode
  cases hh
  have hn := hto.lookup.symm.trans hto'.lookup
  cases hn
  rfl

theorem appendRun_content_oneDesc :
    ∃ f', FileEntry 0 oneDesc2.fs f' ∧ f'.toList = [] ++ [1, 2] := by
  have hto : AppendTo oneDesc ⟨0, 0, [1]⟩ 0 0 ⟨.vReg, 1, 0, 2, 0⟩ := by
    constructor <;> decide +kernel
  have hto' : AppendTo oneDesc1 ⟨0, 0, [2]⟩ 0 0 ⟨.vReg, 1, 1, 2, 0⟩ := by
    constructor <;> decide +kernel
  have hsize : (oneDesc.fs.inode 0).sizeBytes = 0 ∧ (oneDesc1.fs.inode 0).sizeBytes = 1 := by
    decide +kernel
  have hcov : covered oneDesc1.fs.vol (oneDesc1.fs.inode 0) = 4096 := by decide +kernel
  have hfirst : AppendStep 0 oneDesc ⟨0, 0, [1]⟩ oneDesc1 ∧ AtEnd 0 oneDesc ⟨0, 0, [1]⟩ := by
    refine ⟨⟨Prod.ext (by decide +kernel) rfl, 0, 0, _, hto, rfl⟩, fun _ => ?_⟩
    rw [hsize.1]
    refine ⟨by decide, fun d h n hn => by rw [hn.unique hto], .inr ⟨snug_of_nil ?_, ?_⟩, ?_, ?_⟩
    · decide +kernel
    · exact oneRun_of_le (Nat.zero_le _)
    · exact fun p _ hlt => absurd hlt (Nat.not_lt_zero p)
    · exact .inr (.inl ⟨Nat.zero_le _, .inl (by rw [hsize.1]; decide)⟩)
  have hsecond : AppendStep 0 oneDesc1 ⟨0, 0, [2]⟩ oneDesc2 ∧ AtEnd 0 oneDesc1 ⟨0, 0, [2]⟩ := by
    refine ⟨⟨Prod.ext (by decide +kernel) rfl, 0, 0, _, hto', rfl⟩, fun _ => ?_⟩
    rw [hsize.2]
    refine ⟨by decide, fun d h n hn => by rw [hn.unique hto'], .inl ?_, fun p hp hlt => ?_, .inl ?_⟩
    · rw [hcov]
      decide
    · rw [hsize.2] at hp
      omega
    · rw [hcov]
      decide
  exact appendRun_content smallFs_open.toFileEntry (.cons hfirst (.cons hsecond (.nil _)))

/-- A file that two tasks open for appending, each with its own `vfs_open`. -/
def aPath : Name := [47, 97]
def unopened : State := ⟨formatted, fun _ => ⟨false, 0, 0⟩, fun _ => noDesc, 0⟩
def opened1 : State := (vfsOpen unopened 0 aPath (oWronly ||| oCreat ||| oAppend)).2
def opened2 : State := (vfsOpen opened1 1 aPath (oWronly ||| oAppend)).2
def appended1 : State := (vfsWrite opened2 0 0 [1]).2
def appended2 : State := (vfsWrite appended1 1 0 [2]).2

/-- The second task still holds the size 0 of its open, so its write overwrites
the byte of the first one. -/
theorem append_overwrites :
    AppendStep 2 opened2 ⟨0, 0, [1]⟩ appended1 ∧ AppendStep 2 appended1 ⟨1, 0, [2]⟩ appended2 ∧
      v4Read opened2.fs 2 0 (fun _ => 0) 8 = .ok [] ∧
      v4Read appended2.fs 2 0 (fun _ => 0) 8 = .ok [2] := by
  have hfirst : (vfsWrite opened2 0 0 [1]).1 = some 1 := by decide +kernel
  have hsecond : (vfsWrite appended1 1 0 [2]).1 = some 1 := by decide +kernel
  refine ⟨⟨Prod.ext hfirst (by rw [appended1]), 0, 2, ⟨.vReg, 1, 0, 3, 2⟩, ?_, rfl⟩,
    ⟨Prod.ext hsecond (by rw [appended2]), 1, 4, ⟨.vReg, 1, 0, 3, 2⟩, ?_, rfl⟩,
    by decide +kernel, by decide +kernel⟩
  · constructor <;> decide +kernel
  · constructor <;> decide +kernel

end Kyuzen.Vfs
