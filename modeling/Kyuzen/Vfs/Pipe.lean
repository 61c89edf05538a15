import Kyuzen.Base.Ring
import Kyuzen.Base.Run

/-!
The pipes of `vfs_fd.c`: a circular buffer with a read index, a write index and
a fill count, under the lock of its wait queue. One step is one critical
section of `pipe_read`, `pipe_write` or `pipe_end_closed`.
-/

namespace Kyuzen.Vfs

open List Option

/-- `VFS_PIPE_CAP`. -/
def pipeCap : Nat := 4096

/-- `vfs_pipe_t`. -/
structure Pipe where
  buf : Nat → UInt8
  rpos : Nat
  wpos : Nat
  used : Nat
  readers : Bool
  writers : Bool

/-- The pipe that `vfs_pipe` makes, in the memory it got for the buffer. -/
def Pipe.fresh (buf : Nat → UInt8) : Pipe := ⟨buf, 0, 0, 0, true, true⟩

/-- `pipe_read` under the lock: the bytes, or `none` when the reader waits. -/
def pipeRead (p : Pipe) (count : Nat) : Option (List UInt8) × Pipe :=
  if p.used > 0 then
    let n := if count < p.used then count else p.used
    let (out, rpos) := ringTake pipeCap p.buf n p.rpos
    (some out, {p with rpos := rpos, used := p.used - n})
  else if p.writers = false then (some [], p)
  else (none, p)

/-- `pipe_write` under the lock: the result, or `none` when the writer waits. -/
def pipeWrite (p : Pipe) (data : List UInt8) : Option Int × Pipe :=
  if p.readers = false then (some (-1), p)
  else if p.used < pipeCap then
    let free := pipeCap - p.used
    let n := if data.length < free then data.length else free
    let (buf, wpos) := ringPut pipeCap (data.take n) p.buf p.wpos
    (some n, {p with buf := buf, wpos := wpos, used := p.used + n})
  else (none, p)

inductive PipeEnd where
  | read
  | write
  deriving DecidableEq, Repr

/-- The flag change of `pipe_end_closed`. -/
def pipeEndClosed (p : Pipe) : PipeEnd → Pipe
  | .read => {p with readers := false}
  | .write => {p with writers := false}

/-- The critical sections, with what they return. A waiter leaves with
`PIPE_KILLED` when a kill wakes it. -/
inductive PipeEvent where
  | read (count : Nat) (out : List UInt8)
  | readWaits (count : Nat)
  | write (data : List UInt8) (ret : Int)
  | writeWaits (data : List UInt8)
  | killed
  | closed (side : PipeEnd)

inductive PipeStep : Pipe → PipeEvent → Pipe → Prop where
  /-- `vfs_read` returns before `pipe_read` when it is asked for no bytes. -/
  | read {p p' : Pipe} {count : Nat} {out : List UInt8} (hcount : count ≠ 0)
      (h : pipeRead p count = (some out, p')) : PipeStep p (.read count out) p'
  | readWaits {p p' : Pipe} {count : Nat} (hcount : count ≠ 0)
      (h : pipeRead p count = (none, p')) : PipeStep p (.readWaits count) p'
  | write {p p' : Pipe} {data : List UInt8} {ret : Int}
      (h : pipeWrite p data = (some ret, p')) : PipeStep p (.write data ret) p'
  | writeWaits {p p' : Pipe} {data : List UInt8} (h : pipeWrite p data = (none, p')) :
      PipeStep p (.writeWaits data) p'
  | killed (p : Pipe) : PipeStep p .killed p
  | closed (p : Pipe) (side : PipeEnd) : PipeStep p (.closed side) (pipeEndClosed p side)

/-! ### The queue of bytes -/

def Pipe.contents (p : Pipe) : List UInt8 := ringList pipeCap p.buf p.rpos p.used

structure Pipe.Ok (p : Pipe) : Prop where
  used : p.used ≤ pipeCap
  rpos : p.rpos < pipeCap
  wpos : p.wpos = (p.rpos + p.used) % pipeCap

variable {p : Pipe}

open Pipe

theorem Pipe.fresh_ok (buf : Nat → UInt8) : (fresh buf).Ok where
  used := Nat.zero_le _
  rpos := by simp [fresh, pipeCap]
  wpos := rfl

theorem pipeRead_spec (hp : p.Ok) (count : Nat) :
    (∃ out p', pipeRead p count = (some out, p') ∧ p'.Ok ∧ out ++ p'.contents = p.contents ∧
      (count ≠ 0 → out = [] → p.used = 0 ∧ p.writers = false)) ∨
    pipeRead p count = (none, p) := by
  have hrpos := hp.rpos
  unfold pipeRead
  by_cases hused : p.used > 0
  · left
    rw [if_pos hused]
    simp only
    generalize hn : (if count < p.used then count else p.used) = n
    have hle : n ≤ p.used := by
      rw [← hn]
      split <;> omega
    rw [ringTake_eq hrpos]
    refine ⟨_, _, rfl, ⟨?_, Nat.mod_lt _ (by omega), ?_⟩, ?_, fun hcount hnil => ?_⟩
    · have := hp.used
      simp only
      omega
    · simp only
      rw [hp.wpos, Nat.mod_add_mod]
      congr 1
      omega
    · rw [contents, contents, ← ringList_add]
      simp only
      congr 1
      omega
    · have hlength := congrArg length hnil
      rw [ringList_length, length_nil] at hlength
      rw [hlength] at hn
      split at hn <;> omega
  · rw [if_neg hused]
    cases hwriters : p.writers with
    | true => exact Or.inr rfl
    | false => exact Or.inl ⟨[], p, rfl, hp, rfl, fun _ _ => ⟨by omega, rfl⟩⟩

theorem pipeWrite_spec (hp : p.Ok) (data : List UInt8) : pipeWrite p data = (some (-1), p) ∨
    (∃ n : Nat, ∃ p', pipeWrite p data = (some (n : Int), p') ∧ p'.Ok ∧ n ≤ data.length ∧
      (data ≠ [] → 1 ≤ n) ∧ p'.contents = p.contents ++ data.take n) ∨
    pipeWrite p data = (none, p) := by
  unfold pipeWrite
  cases hreaders : p.readers with
  | false => exact Or.inl rfl
  | true =>
    right
    rw [if_neg Bool.noConfusion]
    by_cases hused : p.used < pipeCap
    · left
      rw [if_pos hused]
      simp only
      generalize hn : (if data.length < pipeCap - p.used then data.length else pipeCap - p.used) = n
      have hle : n ≤ data.length ∧ p.used + n ≤ pipeCap := by
        rw [← hn]
        split <;> omega
      have htake : (data.take n).length = n := by
        rw [length_take]
        omega
      obtain ⟨hlist, hpos⟩ := @ringPut_eq UInt8 pipeCap p.buf p.rpos p.used (data.take n)
        (by omega)
      rw [← hp.wpos, htake] at hlist hpos
      refine ⟨n, _, rfl, ⟨hle.2, hp.rpos, hpos⟩, hle.1, fun hne => ?_, hlist⟩
      have hlength : 0 < data.length := length_pos_iff.mpr hne
      rw [← hn]
      split <;> omega
    · right
      rw [if_neg hused]

/-! ### Runs -/

def delivered (evs : List PipeEvent) : List UInt8 :=
  evs.flatMap fun
    | .read _ out => out
    | _ => []

def accepted (evs : List PipeEvent) : List UInt8 :=
  evs.flatMap fun
    | .write data ret => data.take ret.toNat
    | _ => []

/-- One critical section: what it delivers comes from the front of the buffer
and what it accepts goes to the end. -/
theorem PipeStep.contents {p' : Pipe} {ev : PipeEvent} (h : PipeStep p ev p') (hp : p.Ok) :
    p'.Ok ∧ delivered [ev] ++ p'.contents = p.contents ++ accepted [ev] := by
  cases h with
  | @read _ count out hcount h =>
    rcases pipeRead_spec hp count with ⟨out', p'', hrun, hok, hcontents, -⟩ | hrun
    · cases h.symm.trans hrun
      exact ⟨hok, by simpa [delivered, accepted] using hcontents⟩
    · cases h.symm.trans hrun
  | @readWaits _ count hcount h =>
    rcases pipeRead_spec hp count with ⟨out', p'', hrun, -⟩ | hrun
    · cases h.symm.trans hrun
    · cases h.symm.trans hrun
      exact ⟨hp, by simp [delivered, accepted]⟩
  | @write _ data ret h =>
    rcases pipeWrite_spec hp data with hrun | ⟨n, p'', hrun, hok, -, -, hcontents⟩ | hrun
    · cases h.symm.trans hrun
      exact ⟨hp, by simp [delivered, accepted]⟩
    · cases h.symm.trans hrun
      exact ⟨hok, by simpa [delivered, accepted] using hcontents⟩
    · cases h.symm.trans hrun
  | @writeWaits _ data h =>
    rcases pipeWrite_spec hp data with hrun | ⟨n, p'', hrun, -⟩ | hrun
    · cases h.symm.trans hrun
    · cases h.symm.trans hrun
    · cases h.symm.trans hrun
      exact ⟨hp, by simp [delivered, accepted]⟩
  | killed => exact ⟨hp, by simp [delivered, accepted]⟩
  | closed side =>
    cases side with
    | read
    | write => exact ⟨{hp with}, by simp [delivered, accepted, pipeEndClosed, Pipe.contents]⟩

theorem PipeRun.contents {p' : Pipe} {evs : List PipeEvent} (h : Run PipeStep p evs p') (hp : p.Ok) :
    p'.Ok ∧ delivered evs ++ p'.contents = p.contents ++ accepted evs := by
  induction h with
  | nil p => exact ⟨hp, by simp [delivered, accepted]⟩
  | @cons p p' p'' ev evs hstep hrest ih =>
    obtain ⟨hok, hfirst⟩ := hstep.contents hp
    obtain ⟨hok', hlast⟩ := ih hok
    refine ⟨hok', ?_⟩
    have hd : delivered (ev :: evs) = delivered [ev] ++ delivered evs := by simp [delivered]
    have ha : accepted (ev :: evs) = accepted [ev] ++ accepted evs := by simp [accepted]
    rw [hd, ha, append_assoc, hlast, ← append_assoc, hfirst, append_assoc]

/-- A pipe is a lossless queue: what was read and what is still buffered is what
the writes accepted, the buffer never overflows, a read gives end of file only
when the write side is closed and everything was delivered, and a write that
succeeds accepts at least one byte from the front of its data. -/
theorem pipe_lossless_fifo {buf : Nat → UInt8} {evs : List PipeEvent} {p : Pipe}
    (h : Run PipeStep (Pipe.fresh buf) evs p) :
    delivered evs ++ p.contents = accepted evs ∧ p.contents.length = p.used ∧ p.used ≤ pipeCap ∧
    (∀ count p', PipeStep p (.read count []) p' →
      p.writers = false ∧ delivered evs = accepted evs) ∧
    ∀ data ret p', PipeStep p (.write data ret) p' → data ≠ [] → 0 ≤ ret →
      1 ≤ ret ∧ ret ≤ data.length ∧ p'.contents = p.contents ++ data.take ret.toNat := by
  obtain ⟨hp, hcontents⟩ := PipeRun.contents h (fresh_ok buf)
  have hqueue : delivered evs ++ p.contents = accepted evs := by
    simpa [contents, fresh, ringList] using hcontents
  refine ⟨hqueue, ringList_length, hp.used, fun count p' hstep => ?_,
    fun data ret p' hstep hne hret => ?_⟩
  · cases hstep with
    | read hcount hrun =>
      rcases pipeRead_spec hp count with ⟨out, p'', hrun', -, -, heof⟩ | hrun'
      · rw [hrun] at hrun'
        obtain ⟨hempty, hclosed⟩ := heof hcount (some.inj (Prod.mk.inj hrun').1).symm
        refine ⟨hclosed, ?_⟩
        rw [← hqueue, contents, hempty]
        simp [ringList]
      · rw [hrun] at hrun'
        cases (Prod.mk.inj hrun').1
  · cases hstep with
    | write hrun =>
      rcases pipeWrite_spec hp data with hrun' | ⟨n, p'', hrun', -, hle, hpos, hlist⟩ | hrun'
      · rw [hrun] at hrun'
        obtain rfl := some.inj (Prod.mk.inj hrun').1
        omega
      · rw [hrun] at hrun'
        obtain ⟨hret', rfl⟩ := Prod.mk.inj hrun'
        obtain rfl := some.inj hret'
        have := hpos hne
        exact ⟨by omega, by omega, hlist⟩
      · rw [hrun] at hrun'
        cases (Prod.mk.inj hrun').1

def pipeWritten : Pipe := (pipeWrite (fresh fun _ => 0) [1, 2, 3]).2
def pipeDrained : Pipe := (pipeRead pipeWritten 2).2

theorem pipe_lossless_fifo_drained : [1, 2] ++ pipeDrained.contents = [1, 2, 3] := by
  have hwrite : PipeStep (fresh fun _ => 0) (.write [1, 2, 3] 3) pipeWritten :=
    .write (Prod.ext (by decide) rfl)
  have hread : PipeStep pipeWritten (.read 2 [1, 2]) pipeDrained :=
    .read (by decide) (Prod.ext (by decide) rfl)
  exact (pipe_lossless_fifo (.cons hwrite (.cons hread (.nil _)))).1

end Kyuzen.Vfs
