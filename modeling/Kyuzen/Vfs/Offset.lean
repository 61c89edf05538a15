import Kyuzen.Vfs.Append

/-!
The offset of an open file. It is 32 bits wide and `vfs_lseek` returns an `int`,
so calls that lead to 2 GiB or 4 GiB lose it, and an append moves it to the end.
-/

namespace Kyuzen.Vfs

open Kyuzen.Kfs

inductive FileCall where
  | read (buf : Buf) (count : Nat)
  | write (data : List UInt8)
  | lseek (offset : Int) (whence : Nat)

/-- What a call returns, the bytes it reads, and the state after it. -/
def vfsCall (s : State) (task fd : Nat) : FileCall → Option Int × List UInt8 × State
  | .read buf count => vfsRead s task fd buf count
  | .write data => ((vfsWrite s task fd data).1, [], (vfsWrite s task fd data).2)
  | .lseek offset whence =>
    (some (vfsLseek s task fd offset whence).1, [], (vfsLseek s task fd offset whence).2)

def vfsCalls (s : State) (task fd : Nat) (cs : List FileCall) : State :=
  cs.foldl (fun s c => (vfsCall s task fd c).2.2) s

/-- The descriptor names description `d` of the file behind vnode `h`. -/
structure OpenFile (s : State) (task fd d h : Nat) : Prop where
  resolve : resolveOpen s task fd = some d
  kind : (s.opens d).kind = .file
  vnode : (s.opens d).vnode = some h
  fits : (s.opens d).pos < 2 ^ 32

/-- A call that returns `n ≥ 0` transferred its bytes at the offset, and the
offset follows them. -/
def Moved (s : State) (d h : Nat) (c : FileCall) (n : Int) (bytes : List UInt8) (s' : State) :
    Prop :=
  match c with
  | .read buf count => v4Read s.fs h (s.opens d).pos buf (min count 0x40000000) = .ok bytes ∧
      n = bytes.length ∧ ((s'.opens d).pos : Int) = (s.opens d).pos + n
  | .write data =>
      v4Write s.fs h (s.opens d).pos (data.take 0x40000000) = (.ok n.toNat, s'.fs) ∧
      ((s'.opens d).pos : Int) = (s.opens d).pos + n
  | .lseek offset whence => n = seekTarget s d offset whence ∧ ((s'.opens d).pos : Int) = n

def Follows (s : State) (d h : Nat) (c : FileCall) (r : Option Int × List UInt8 × State) : Prop :=
  ∃ n, r.1 = some n ∧ (0 ≤ n → Moved s d h c n r.2.1 r.2.2) ∧
    (n < 0 → (r.2.2.opens d).pos = (s.opens d).pos)

/-- Where `vfs_write` writes. -/
def writePos (s : State) (d h : Nat) : Nat :=
  if hasFlag (s.opens d).flags oAppend then (s.fs.vnode h).elim 0 Vnode.size % 2 ^ 32
  else (s.opens d).pos

/-- The call stays below 4 GiB, an append finds the offset at the end, and
`vfs_lseek` stays below 2 GiB or where it is. -/
def Fits (s : State) (d h : Nat) : FileCall → Prop
  | .read buf count => hasFlag (s.opens d).flags oWronly = false →
      ∀ bytes, v4Read s.fs h (s.opens d).pos buf (min count 0x40000000) = .ok bytes →
        (s.opens d).pos + bytes.length < 2 ^ 32
  | .write data => hasFlag (s.opens d).flags (oWronly ||| oRdwr) = true →
      writePos s d h = (s.opens d).pos ∧
      ∀ n fs', v4Write s.fs h (s.opens d).pos (data.take 0x40000000) = (.ok n, fs') →
        (s.opens d).pos + n < 2 ^ 32
  | .lseek offset whence => 2 ^ 31 ≤ seekTarget s d offset whence →
      seekTarget s d offset whence < 2 ^ 32 →
      seekTarget s d offset whence = (s.opens d).pos

variable {s : State} {task fd d h : Nat}

theorem follows_read (ho : OpenFile s task fd d h) (buf : Buf) (count : Nat) :
    Follows s d h (.read buf count) (vfsCall s task fd (.read buf count)) ↔
      Fits s d h (.read buf count) := by
  simp only [vfsCall, vfsRead, ho.resolve, ho.kind, Fits]
  cases hflag : hasFlag (s.opens d).flags oWronly with
  | true => simp [Follows]
  | false =>
    simp only [Bool.false_eq_true, if_false, readDesc, ho.vnode, forall_const]
    cases hread : v4Read s.fs h (s.opens d).pos buf (min count 0x40000000) with
    | error rc => simp [Follows]
    | ok bytes =>
      simp only [Follows, Moved, hread, State.setPos, if_true, Except.ok.injEq]
      constructor
      · rintro ⟨n, hn, hmoved, -⟩ _ rfl
        obtain rfl := Option.some.inj hn
        have := (hmoved (Int.natCast_nonneg _)).2.2
        omega
      · intro hlt
        have := hlt bytes rfl
        exact ⟨_, rfl, fun _ => ⟨trivial, rfl, by omega⟩, fun h => by omega⟩

theorem writeDesc_eq (hv : (s.opens d).vnode = some h) (data : List UInt8) :
    writeDesc s d data = match v4Write s.fs h (writePos s d h) (data.take 0x40000000) with
      | (.ok w, fs') => ((w : Int), {s with fs := fs'}.setPos d ((writePos s d h + w) % 2 ^ 32))
      | (.error _, fs') => (-1, {s with fs := fs'}.setPos d (writePos s d h)) := by
  simp only [writeDesc, writePos, State.setPos, hv]
  cases s.fs.vnode h <;> rfl

section
variable (ho : OpenFile s task fd d h)
include ho

theorem writePos_lt : writePos s d h < 2 ^ 32 := by
  have hfits := ho.fits
  unfold writePos
  split <;> omega

theorem follows_write (data : List UInt8) :
    Follows s d h (.write data) (vfsCall s task fd (.write data)) ↔ Fits s d h (.write data) := by
  have hlt := writePos_lt ho
  simp only [vfsCall, vfsWrite, ho.resolve, ho.kind, Fits]
  cases hflag : hasFlag (s.opens d).flags (oWronly ||| oRdwr) with
  | false => simp [Follows]
  | true =>
    simp only [not_true_eq_false, if_false, forall_const, writeDesc_eq ho.vnode]
    generalize writePos s d h = pos at hlt
    rcases hwrite : v4Write s.fs h pos (data.take 0x40000000) with ⟨_ | w, fs'⟩
    · simp only [Follows, State.setPos, if_true]
      refine ⟨fun ⟨n, hn, _, hkeep⟩ => ?_, fun ⟨heq, _⟩ => ⟨-1, rfl, by omega, fun _ => heq⟩⟩
      obtain rfl := Option.some.inj hn
      have heq := hkeep (by omega)
      refine ⟨heq, fun n fs₁ hok => ?_⟩
      rw [← heq, hwrite] at hok
      cases hok
    · simp only [Follows, Moved, State.setPos, if_true]
      constructor
      · rintro ⟨n, hn, hmoved, -⟩
        obtain rfl := Option.some.inj hn
        have heq : pos = (s.opens d).pos := by omega
        refine ⟨heq, fun n fs₁ hok => ?_⟩
        rw [← heq, hwrite] at hok
        cases hok
        omega
      · rintro ⟨rfl, hroom⟩
        have := hroom w fs' hwrite
        exact ⟨w, rfl, fun _ => ⟨hwrite, by omega⟩, fun h => by omega⟩

theorem follows_lseek (offset : Int) (whence : Nat) :
    Follows s d h (.lseek offset whence) (vfsCall s task fd (.lseek offset whence)) ↔
      Fits s d h (.lseek offset whence) := by
  simp only [vfsCall, vfsLseek, ho.resolve, ho.kind, Fits, ne_eq, not_true_eq_false, if_false]
  generalize hnp : seekTarget s d offset whence = np
  by_cases hout : np < 0 ∨ np ≥ 2 ^ 32
  · simp only [hout, if_true, Follows]
    exact ⟨fun _ => by omega, fun _ => ⟨-1, rfl, by omega, fun _ => trivial⟩⟩
  · simp only [hout, if_false, Follows, Moved, State.setPos, if_true, hnp, Option.some.injEq,
      exists_eq_left']
    split <;> omega

theorem OpenFile.setPos (fs : Fs) {pos : Nat} (hpos : pos < 2 ^ 32) :
    OpenFile ({s with fs := fs}.setPos d pos) task fd d h := by
  refine ⟨ho.resolve, ?_, ?_, ?_⟩ <;> simp [State.setPos]
  exacts [ho.kind, ho.vnode, hpos]

theorem OpenFile.call (c : FileCall) : OpenFile (vfsCall s task fd c).2.2 task fd d h := by
  cases c with
  | read buf count =>
    simp only [vfsCall, vfsRead, ho.resolve, ho.kind, readDesc, ho.vnode]
    repeat' split
    · exact ho
    · exact ho.setPos s.fs (Nat.mod_lt _ (by omega))
    · exact ho
  | write data =>
    simp only [vfsCall, vfsWrite, ho.resolve, ho.kind, writeDesc_eq ho.vnode]
    repeat' split
    · exact ho
    · exact ho.setPos _ (Nat.mod_lt _ (by omega))
    · exact ho.setPos _ (writePos_lt ho)
  | lseek offset whence =>
    simp only [vfsCall, vfsLseek, ho.resolve, ho.kind, ne_eq, not_true_eq_false, if_false]
    split
    · exact ho
    · exact ho.setPos s.fs (by omega)

end

/-- In any sequence of calls on an open file, a call leaves the offset where its
result says exactly when it fits. -/
theorem offset_follows (ho : OpenFile s task fd d h) (cs : List FileCall) (c : FileCall) :
    Follows (vfsCalls s task fd cs) d h c (vfsCall (vfsCalls s task fd cs) task fd c) ↔
      Fits (vfsCalls s task fd cs) d h c := by
  have ho : OpenFile (vfsCalls s task fd cs) task fd d h := by
    unfold vfsCalls
    induction cs generalizing s with
    | nil => exact ho
    | cons c cs ih => exact ih (ho.call c)
  cases c with
  | read buf count => exact follows_read ho buf count
  | write data => exact follows_write ho data
  | lseek offset whence => exact follows_lseek ho offset whence

theorem oneDesc_open : OpenFile oneDesc 0 0 0 0 := by
  constructor <;> decide +kernel

def seekFar : State := vfsCalls oneDesc 0 0 [.lseek 0x7FFFFFFF 0]

def rdwrDesc : State :=
  {oneDesc with
    opens := fun d => if d = 0 then ⟨1, .file, some 0, 0, oRdwr⟩ else noDesc}

theorem rdwrDesc_open : OpenFile rdwrDesc 0 0 0 0 := by
  constructor <;> decide +kernel

/-- Three bytes are written, the offset is set to the second one and two are read. -/
theorem offset_follows_read :
    let s := vfsCalls rdwrDesc 0 0 [.write [1, 2, 3], .lseek 1 0]
    (vfsCall s 0 0 (.read (fun _ => 0) 2)).2.1 = [2, 3] ∧
      Follows s 0 0 (.read (fun _ => 0) 2) (vfsCall s 0 0 (.read (fun _ => 0) 2)) := by
  refine ⟨by decide +kernel, (offset_follows rdwrDesc_open _ _).mpr fun _ bytes hbytes => ?_⟩
  have hread : v4Read (vfsCalls rdwrDesc 0 0 [.write [1, 2, 3], .lseek 1 0]).fs 0
      ((vfsCalls rdwrDesc 0 0 [.write [1, 2, 3], .lseek 1 0]).opens 0).pos (fun _ => 0)
      (min 2 0x40000000) = .ok [2, 3] := by decide +kernel
  have heq := Except.ok.inj (hread.symm.trans hbytes)
  rw [← heq]
  decide +kernel

/-- The position 2 GiB, one byte behind the largest `int`: the call reports
failure, and the offset has moved. -/
theorem offset_lost_at_2GiB : (vfsLseek seekFar 0 0 1 seekCur).1 = -2147483648 ∧
    ¬ Follows seekFar 0 0 (.lseek 1 seekCur) (vfsCall seekFar 0 0 (.lseek 1 seekCur)) :=
  ⟨by decide +kernel, fun h => absurd ((follows_lseek (oneDesc_open.call _) 1 seekCur).mp h
    (by decide +kernel) (by decide +kernel)) (by decide +kernel)⟩

end Kyuzen.Vfs
