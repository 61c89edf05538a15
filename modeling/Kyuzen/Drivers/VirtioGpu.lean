import Kyuzen.Base.Run
import Kyuzen.Drivers.Virtqueue

/-!
The queues of the virtio-gpu driver (`virtio_gpu_dev.c`) with the device at their other end.
A driver call holds `cmd_lock` (or `cursor_lock`) from its first to its last access, so the
calls on one queue do not overlap; the device returns chains in any order, between any two
polls of a call.
-/

namespace Kyuzen.Drivers

open List Nat

/-! ## Memory that the device sees -/

/-- The pages that `virtio_gpu_dev_probe` allocates: `cmd_pages`, `resp_page`, the two pages of
each pair of `async_cmd`, and `cursor_page`. -/
inductive DmaPage where
  | cmd (i : Nat)
  | resp
  | async (pair : Nat) (second : Bool)
  | cursor
  deriving DecidableEq, Repr

structure Span where
  page : DmaPage
  off : Nat
  len : Nat
  deriving DecidableEq, Repr

def Span.Overlaps (a b : Span) : Prop :=
  a.page = b.page ∧ a.off < b.off + b.len ∧ b.off < a.off + a.len

instance (a b : Span) : Decidable (a.Overlaps b) := inferInstanceAs (Decidable (_ ∧ _ ∧ _))

def respSyncMax : Nat := 512
def respSlot : Nat := 64
def fenceMaxHeads : Nat := 64
def asyncPairs : Nat := 8
def cursorMaxTimeouts : Nat := 3

/-- `sizeof(virtio_gpu_ctrl_hdr_t)` -/
def ctrlHdrSize : Nat := 24

def cmdPages (cmdLen : Nat) : Nat := (cmdLen + 4095) / 4096

def commandBufs (cmdLen outLen : Nat) : List Span :=
  (range (cmdPages cmdLen)).map (fun i =>
      ⟨.cmd i, 0, if i = cmdPages cmdLen - 1 then cmdLen - i * 4096 else 4096⟩) ++
    if outLen = 0 then [] else [⟨.resp, 0, if outLen > respSyncMax then respSyncMax else outLen⟩]

/-- The response slots of a pair: `s1 = pair * 2 + 1` and the one behind it. -/
def respOff (slot : Nat) : Nat := respSyncMax + slot * respSlot

def batchBufs (pair cmdLen : Nat) (second : Bool) : List Span :=
  [⟨.async pair second, 0, cmdLen⟩,
    ⟨.resp, respOff (pair * 2 + if second then 2 else 1), respSlot⟩]

/-- What `virtio_gpu_dev_submit2` writes: the commands, their headers, and both slots. -/
def batchWrites (pair cmd1Len cmd2Len : Nat) : List Span :=
  [⟨.async pair false, 0, max cmd1Len ctrlHdrSize⟩, ⟨.async pair true, 0, max cmd2Len ctrlHdrSize⟩,
    ⟨.resp, respOff (pair * 2 + 1), 2 * respSlot⟩]

def cursorBufs (cmdLen : Nat) : List Span := [⟨.cursor, 0, cmdLen⟩, ⟨.cursor, 512, 64⟩]

/-! ## The state -/

/-- A chain from its submission until it is polled: its head, its fence (0 for a synchronous
command), its pair plus one (0 likewise) and its buffers. -/
structure Flight where
  head : Nat
  fence : Nat
  pair : Nat
  bufs : List Span
  deriving DecidableEq, Repr

/-- The calls that first drain the used ring. -/
inductive Drain where
  | submit2 (cmd1Len cmd2Len : Nat)
  | pollFences
  | fenceDone (fence : Nat)
  deriving DecidableEq, Repr

/-- The arguments that `virtio_gpu_dev_submit2` takes. -/
def Drain.accepted : Drain → Bool
  | .submit2 cmd1Len cmd2Len => 0 < cmd1Len ∧ 0 < cmd2Len ∧ cmd1Len ≤ 4096 ∧ cmd2Len ≤ 4096
  | _ => true

/-- Who holds `cmd_lock`: nobody, a call in `dev_wait_head`, or a call in
`dev_poll_fences_locked`. -/
inductive Control where
  | idle
  | wait (head : Nat)
  | drain (call : Drain)
  deriving DecidableEq, Repr

/-- The fields of `g_vgpu` that the queues use. The chains that the device owns and those it
returned but the driver has not polled are listed per queue. `fenceCounter` is a `uint64_t`
that never wraps. -/
structure Gpu where
  cmdPagesN : Nat
  controlq : Virtq Span
  fenceOfHead : Nat → Nat
  pairOfHead : Nat → Nat
  asyncOutstanding : Nat → Nat
  fenceCounter : Nat
  lastFenceDone : Nat
  control : Control
  device : List Flight
  returned : List Flight
  cursorq : Virtq Span
  cursorTimeouts : Nat
  cursorDead : Bool
  cursorWait : Option Nat
  cursorDevice : List Flight
  cursorReturned : List Flight

/-- The size of a queue: `setup_queues` gives up when the control queue is larger than the
fence table. -/
abbrev QueueSize := {n : Nat // 0 < n ∧ n ≤ fenceMaxHeads}

/-- After `virtio_gpu_dev_probe`. -/
def probe (cmdPagesN : Nat) (controlSize : QueueSize) (cursorSize : Nat) : Gpu where
  cmdPagesN := cmdPagesN
  controlq := .init controlSize ⟨.resp, 0, 0⟩
  fenceOfHead _ := 0
  pairOfHead _ := 0
  asyncOutstanding _ := 0
  fenceCounter := 0
  lastFenceDone := 0
  control := .idle
  device := []
  returned := []
  cursorq := .init cursorSize ⟨.resp, 0, 0⟩
  cursorTimeouts := 0
  cursorDead := false
  cursorWait := none
  cursorDevice := []
  cursorReturned := []

namespace Gpu

variable {pair : Nat} {g' : Gpu} (g : Gpu)

/-! ## The driver -/

/-- The loop of `dev_on_reap` over the fence table. -/
def watermark (done : Nat) (table : List Nat) : Nat :=
  table.foldl (fun done pending => if pending ≠ 0 ∧ pending ≤ done then pending - 1 else done) done

/-- `dev_on_reap` -/
def onReap (head : Nat) : Gpu :=
  if head ≥ fenceMaxHeads then g
  else if g.fenceOfHead head = 0 then g
  else
    let fenceOfHead := fun h => if h = head then 0 else g.fenceOfHead h
    let p := g.pairOfHead head
    {g with
      fenceOfHead := fenceOfHead
      pairOfHead := fun h => if h = head then 0 else g.pairOfHead h
      asyncOutstanding := fun i =>
        if p ≠ 0 ∧ i = p - 1 ∧ i < asyncPairs then g.asyncOutstanding i - 1 else g.asyncOutstanding i
      lastFenceDone := watermark g.fenceCounter ((range fenceMaxHeads).map fenceOfHead)}

/-- A chain of the control queue that was submitted, with the tables set for its head. -/
def launch (q : Virtq Span) (c : Flight) : Gpu :=
  {g with
    controlq := q
    fenceOfHead := fun h => if h = c.head then c.fence else g.fenceOfHead h
    pairOfHead := fun h => if h = c.head then c.pair else g.pairOfHead h
    device := c :: g.device}

/-- `dev_command_impl` up to the wait. -/
def command (cmdLen outLen : Nat) : Gpu :=
  if cmdLen = 0 ∨ cmdPages cmdLen > g.cmdPagesN then g
  else
    match g.controlq.submit (commandBufs cmdLen outLen) with
    | (none, _) => g
    | (some head, q) =>
      {g.launch q ⟨head, 0, 0, commandBufs cmdLen outLen⟩ with control := .wait head}

/-- The pair that `virtio_gpu_dev_submit2` takes, once the used ring is drained. -/
def freePair : Option Nat :=
  if g.controlq.numFree < 4 then none
  else (range asyncPairs).find? fun i => g.asyncOutstanding i = 0

/-- `virtio_gpu_dev_submit2` behind `dev_poll_fences_locked`: the fence it returns. -/
def submit2 (cmd1Len cmd2Len : Nat) : Nat × Gpu :=
  match g.freePair with
  | none => (0, g)
  | some pair =>
    let fence := g.fenceCounter + 1
    let g := {g with
      asyncOutstanding := fun i => if i = pair then 2 else g.asyncOutstanding i
      fenceCounter := fence}
    match g.controlq.submit (batchBufs pair cmd1Len false) with
    | (none, _) =>
      (0, {g with asyncOutstanding := fun i => if i = pair then 0 else g.asyncOutstanding i})
    | (some head1, q1) =>
      let g := g.launch q1 ⟨head1, fence, pair + 1, batchBufs pair cmd1Len false⟩
      match g.controlq.submit (batchBufs pair cmd2Len true) with
      | (none, _) =>
        (fence,
          {g with asyncOutstanding := fun i => if i = pair then 1 else g.asyncOutstanding i})
      | (some head2, q2) =>
        (fence, g.launch q2 ⟨head2, fence, pair + 1, batchBufs pair cmd2Len true⟩)

/-- The answer of `virtio_gpu_dev_fence_done` behind `dev_poll_fences_locked`. -/
def fenceDone (fence : Nat) : Bool := fence ≠ 0 ∧ fence ≤ g.lastFenceDone

/-- One poll of the control queue and its `dev_on_reap`, when a chain was returned. -/
def reap : Option (Nat × Gpu) :=
  match g.returned, g.controlq.poll with
  | _ :: returned, (some head, q) => some (head, {g with controlq := q, returned := returned}.onReap head)
  | _, _ => none

/-- `virtio_gpu_dev_cursor_command` up to the wait; the lock is free. -/
def cursorCommand (cmdLen : Nat) : Gpu :=
  if cmdLen = 0 ∨ cmdLen > 512 ∨ g.cursorDead then g
  else
    match g.cursorq.submit (cursorBufs cmdLen) with
    | (none, _) => g
    | (some head, q) =>
      {g with
        cursorq := q
        cursorDevice := ⟨head, 0, 0, cursorBufs cmdLen⟩ :: g.cursorDevice
        cursorWait := some head}

/-- The end of `virtio_gpu_dev_cursor_command`. -/
def cursorEnd (timeout : Bool) : Gpu :=
  if timeout then
    {g with
      cursorWait := none
      cursorTimeouts := g.cursorTimeouts + 1
      cursorDead := g.cursorDead || decide (g.cursorTimeouts + 1 ≥ cursorMaxTimeouts)}
  else {g with cursorWait := none, cursorTimeouts := 0}

/-! ## Steps -/

/-- What can happen: the device returns a chain, or a call of the driver goes on. A wait ends
by timeout only at a poll that finds nothing. -/
inductive Act where
  | complete (c : Flight)
  | command (cmdLen outLen : Nat)
  | waitPoll
  | waitTimeout
  | begin (call : Drain)
  | drainPoll
  | drainEnd
  | cursorComplete (c : Flight)
  | cursorCommand (cmdLen : Nat)
  | cursorPoll
  | cursorTimeout

/-- The state behind an act, where it can happen. A call that does not get a lock waits or
gives up, and changes nothing. -/
def step : Act → Option Gpu
  | .complete c =>
    if c ∈ g.device then
      some {g with
        controlq := g.controlq.complete c.head
        device := g.device.erase c
        returned := g.returned ++ [c]}
    else none
  | .command cmdLen outLen => if g.control = .idle then some (g.command cmdLen outLen) else none
  | .waitPoll =>
    match g.control, g.reap with
    | .wait head, some (h, g') => some (if h = head then {g' with control := .idle} else g')
    | _, _ => none
  | .waitTimeout =>
    match g.control, g.returned with
    | .wait _, [] => some {g with control := .idle}
    | _, _ => none
  | .begin call =>
    if g.control = .idle ∧ call.accepted then some {g with control := .drain call} else none
  | .drainPoll =>
    match g.control, g.reap with
    | .drain _, some (_, g') => some g'
    | _, _ => none
  | .drainEnd =>
    match g.control, g.returned with
    | .drain (.submit2 cmd1Len cmd2Len), [] =>
      some {(g.submit2 cmd1Len cmd2Len).2 with control := .idle}
    | .drain _, [] => some {g with control := .idle}
    | _, _ => none
  | .cursorComplete c =>
    if c ∈ g.cursorDevice then
      some {g with
        cursorq := g.cursorq.complete c.head
        cursorDevice := g.cursorDevice.erase c
        cursorReturned := g.cursorReturned ++ [c]}
    else none
  | .cursorCommand cmdLen => if g.cursorWait = none then some (g.cursorCommand cmdLen) else none
  | .cursorPoll =>
    match g.cursorWait, g.cursorReturned, g.cursorq.poll with
    | some head, _ :: returned, (some h, q) =>
      let g' := {g with cursorq := q, cursorReturned := returned}
      some (if h = head then g'.cursorEnd false else g')
    | _, _, _ => none
  | .cursorTimeout =>
    match g.cursorWait, g.cursorReturned with
    | some _, [] => some (g.cursorEnd true)
    | _, _ => none

/-! ## The fence table -/

theorem watermark_spec (done : Nat) (table : List Nat) : watermark done table ≤ done ∧
      (∀ pending ∈ table, pending ≠ 0 → watermark done table < pending) ∧
      ∀ f ≤ done, (∀ pending ∈ table, pending ≠ 0 → f < pending) → f ≤ watermark done table := by
  induction table generalizing done with
  | nil => exact ⟨le_rfl, nofun, fun f hf _ => hf⟩
  | cons x table ih =>
    have hstep : watermark done (x :: table) =
        watermark (if x ≠ 0 ∧ x ≤ done then x - 1 else done) table := rfl
    obtain ⟨hle, hlt, hge⟩ := ih (if x ≠ 0 ∧ x ≤ done then x - 1 else done)
    rw [hstep]
    split_ifs at hle hlt hge ⊢ with hx
    · refine ⟨by omega, ?_, ?_⟩
      · intro pending hp hne
        rcases mem_cons.mp hp with rfl | hp
        · omega
        · exact hlt pending hp hne
      · intro f hf hall
        have hfx := hall x (.head _) hx.1
        exact hge f (by omega) fun pending hp => hall pending (.tail _ hp)
    · refine ⟨hle, ?_, ?_⟩
      · intro pending hp hne
        rcases mem_cons.mp hp with rfl | hp
        · have hgt : done < pending := by
            by_contra hnot
            exact hx ⟨hne, not_lt.mp hnot⟩
          exact hle.trans_lt hgt
        · exact hlt pending hp hne
      · intro f hf hall
        exact hge f hf fun pending hp => hall pending (.tail _ hp)

/-- The tables say what is outstanding, and `last_fence_done` is the largest fence that is
below all of it. -/
structure Tables (g : Gpu) (l : List Flight) : Prop where
  fence : ∀ c ∈ l, g.fenceOfHead c.head = c.fence
  pair : ∀ c ∈ l, g.pairOfHead c.head = c.pair
  pending : ∀ h, g.fenceOfHead h ≠ 0 → ∃ c ∈ l, c.head = h
  fence_le : ∀ c ∈ l, c.fence ≤ g.fenceCounter
  done_lt : ∀ c ∈ l, c.fence ≠ 0 → g.lastFenceDone < c.fence
  done_le : g.lastFenceDone ≤ g.fenceCounter
  done_ge : ∀ f ≤ g.fenceCounter, (∀ c ∈ l, c.fence ≠ 0 → f < c.fence) → f ≤ g.lastFenceDone
  async : ∀ c ∈ l, c.fence = 0 ↔ c.pair = 0
  pair_le : ∀ c ∈ l, c.pair ≤ asyncPairs
  count : ∀ p, p < asyncPairs → g.asyncOutstanding p = l.countP fun c => c.pair = p + 1

variable {g} {l l' : List Flight} {c : Flight}

theorem Tables.perm (h : g.Tables l) (hp : l.Perm l') : g.Tables l' where
  fence c hc := h.fence c (hp.mem_iff.mpr hc)
  pair c hc := h.pair c (hp.mem_iff.mpr hc)
  pending head hne := by
    obtain ⟨c, hc, hhead⟩ := h.pending head hne
    exact ⟨c, hp.mem_iff.mp hc, hhead⟩
  fence_le c hc := h.fence_le c (hp.mem_iff.mpr hc)
  done_lt c hc := h.done_lt c (hp.mem_iff.mpr hc)
  done_le := h.done_le
  done_ge f hf hall := h.done_ge f hf fun c hc => hall c (hp.mem_iff.mp hc)
  async c hc := h.async c (hp.mem_iff.mpr hc)
  pair_le c hc := h.pair_le c (hp.mem_iff.mpr hc)
  count p hlt := (h.count p hlt).trans (hp.countP_eq _)

theorem Tables.drop_sync (h : g.Tables (c :: l)) (hfence : c.fence = 0) : g.Tables l where
  fence d hd := h.fence d (.tail _ hd)
  pair d hd := h.pair d (.tail _ hd)
  pending head hne := by
    obtain ⟨d, hd, hhead⟩ := h.pending head hne
    rcases mem_cons.mp hd with rfl | hd
    · rw [← hhead, h.fence d (.head _), hfence] at hne
      exact absurd rfl hne
    · exact ⟨d, hd, hhead⟩
  fence_le d hd := h.fence_le d (.tail _ hd)
  done_lt d hd := h.done_lt d (.tail _ hd)
  done_le := h.done_le
  done_ge f hf hall := by
    apply h.done_ge f hf
    intro d hd hne
    rcases mem_cons.mp hd with rfl | hd
    · exact absurd hfence hne
    · exact hall d hd hne
  async d hd := h.async d (.tail _ hd)
  pair_le d hd := h.pair_le d (.tail _ hd)
  count p hlt := by
    have hpair : c.pair = 0 := (h.async c (.head _)).mp hfence
    rw [h.count p hlt, countP_cons_of_neg]
    rw [hpair]
    exact of_decide_eq_false rfl

theorem Tables.onReap (h : g.Tables (c :: l)) (hhead : c.head < fenceMaxHeads)
    (hbound : ∀ d ∈ l, d.head < fenceMaxHeads) (hout : ∀ d ∈ l, d.head ≠ c.head) :
    (g.onReap c.head).Tables l := by
  rw [Gpu.onReap, if_neg (not_le.mpr hhead), h.fence c (.head _)]
  split_ifs with hfence
  · exact h.drop_sync hfence
  rw [h.pair c (.head _)]
  have hpair : c.pair ≠ 0 := fun heq => hfence ((h.async c (.head _)).mpr heq)
  have hother : ∀ d ∈ l, (if d.head = c.head then 0 else g.fenceOfHead d.head) = d.fence :=
    fun d hd => (if_neg (hout d hd)).trans (h.fence d (.tail _ hd))
  -- The table behind the reap holds exactly the fences of `l`.
  have hpending : ∀ head, (if head = c.head then 0 else g.fenceOfHead head) ≠ 0 →
      ∃ d ∈ l, d.head = head := by
    intro head hne
    split_ifs at hne with heq
    · exact absurd rfl hne
    · obtain ⟨d, hd, hdh⟩ := h.pending head hne
      rcases mem_cons.mp hd with rfl | hd
      · exact absurd hdh.symm heq
      · exact ⟨d, hd, hdh⟩
  obtain ⟨hle, hlt, hge⟩ := watermark_spec g.fenceCounter ((range fenceMaxHeads).map
    fun head => if head = c.head then 0 else g.fenceOfHead head)
  constructor
  · exact hother
  · intro d hd
    exact (if_neg (hout d hd)).trans (h.pair d (.tail _ hd))
  · exact hpending
  · exact fun d hd => h.fence_le d (.tail _ hd)
  · intro d hd hne
    apply hlt d.fence _ hne
    exact mem_map.mpr ⟨d.head, mem_range.mpr (hbound d hd), hother d hd⟩
  · exact hle
  · intro f hf hall
    apply hge f hf
    intro pending hp hne
    obtain ⟨head, _, rfl⟩ := mem_map.mp hp
    obtain ⟨d, hd, rfl⟩ := hpending head hne
    rw [hother d hd] at hne ⊢
    exact hall d hd hne
  · exact fun d hd => h.async d (.tail _ hd)
  · exact fun d hd => h.pair_le d (.tail _ hd)
  · intro p hp
    have hcount := h.count p hp
    dsimp only
    rw [countP_cons] at hcount
    by_cases heq : c.pair = p + 1
    · rw [if_pos (decide_eq_true heq)] at hcount
      rw [if_pos ⟨hpair, by omega, hp⟩, hcount, Nat.add_sub_cancel]
    · rw [if_neg (mt of_decide_eq_true heq)] at hcount
      rw [if_neg (fun hc => heq (by omega)), hcount, add_zero]

theorem Tables.launch_sync (h : g.Tables l) (q : Virtq Span) (hfence : c.fence = 0)
    (hpair : c.pair = 0) (hout : ∀ d ∈ l, d.head ≠ c.head) : (g.launch q c).Tables (c :: l) where
  fence := forall_mem_cons.mpr
    ⟨if_pos rfl, fun d hd => (if_neg (hout d hd)).trans (h.fence d hd)⟩
  pair := forall_mem_cons.mpr
    ⟨if_pos rfl, fun d hd => (if_neg (hout d hd)).trans (h.pair d hd)⟩
  pending head hne := by
    by_cases heq : head = c.head
    · exact ⟨c, (.head _), heq.symm⟩
    · obtain ⟨d, hd, hhead⟩ := h.pending head (fun h0 => hne ((if_neg heq).trans h0))
      exact ⟨d, mem_cons_of_mem _ hd, hhead⟩
  fence_le := forall_mem_cons.mpr ⟨by rw [hfence]; exact Nat.zero_le _, h.fence_le⟩
  done_lt := forall_mem_cons.mpr ⟨absurd hfence, h.done_lt⟩
  done_le := h.done_le
  done_ge f hf hall := h.done_ge f hf fun d hd => hall d (.tail _ hd)
  async := forall_mem_cons.mpr ⟨iff_of_true hfence hpair, h.async⟩
  pair_le := forall_mem_cons.mpr ⟨by rw [hpair]; exact Nat.zero_le _, h.pair_le⟩
  count p hp := by
    rw [countP_cons_of_neg]
    · exact h.count p hp
    · rw [hpair]
      exact of_decide_eq_false rfl

/-- Both chains of a batch enter the tables, with the next fence and a pair that nothing
uses. -/
theorem Tables.launch_batch (h : g.Tables l) (q1 q2 : Virtq Span) {c1 c2 : Flight}
    (hpair : pair < asyncPairs) (hfree : g.asyncOutstanding pair = 0)
    (h1 : c1.fence = g.fenceCounter + 1 ∧ c1.pair = pair + 1)
    (h2 : c2.fence = g.fenceCounter + 1 ∧ c2.pair = pair + 1) (hout1 : ∀ d ∈ l, d.head ≠ c1.head)
    (hout2 : ∀ d ∈ c1 :: l, d.head ≠ c2.head) :
    (({g with
        asyncOutstanding := fun i => if i = pair then 2 else g.asyncOutstanding i
        fenceCounter := g.fenceCounter + 1}.launch q1 c1).launch q2 c2).Tables (c2 :: c1 :: l) := by
  obtain ⟨hc1, hout2⟩ := forall_mem_cons.mp hout2
  constructor
  · rw [forall_mem_cons, forall_mem_cons]
    refine ⟨if_pos rfl, (if_neg hc1).trans (if_pos rfl), fun d hd => ?_⟩
    exact (if_neg (hout2 d hd)).trans ((if_neg (hout1 d hd)).trans (h.fence d hd))
  · rw [forall_mem_cons, forall_mem_cons]
    refine ⟨if_pos rfl, (if_neg hc1).trans (if_pos rfl), fun d hd => ?_⟩
    exact (if_neg (hout2 d hd)).trans ((if_neg (hout1 d hd)).trans (h.pair d hd))
  · intro head hne
    by_cases heq2 : head = c2.head
    · exact ⟨c2, (.head _), heq2.symm⟩
    by_cases heq1 : head = c1.head
    · exact ⟨c1, mem_cons_of_mem _ (.head _), heq1.symm⟩
    · obtain ⟨d, hd, hhead⟩ := h.pending head
        (fun h0 => hne ((if_neg heq2).trans ((if_neg heq1).trans h0)))
      exact ⟨d, mem_cons_of_mem _ (.tail _ hd), hhead⟩
  · rw [forall_mem_cons, forall_mem_cons]
    exact ⟨Nat.le_of_eq h2.1, Nat.le_of_eq h1.1, fun d hd => le_succ_of_le (h.fence_le d hd)⟩
  · have hlast : g.lastFenceDone < g.fenceCounter + 1 := lt_succ_of_le h.done_le
    rw [forall_mem_cons, forall_mem_cons, h1.1, h2.1]
    exact ⟨fun _ => hlast, fun _ => hlast, h.done_lt⟩
  · exact le_succ_of_le h.done_le
  · intro f hf hall
    have hf2 := hall c2 (.head _) (by rw [h2.1]; exact succ_ne_zero _)
    rw [h2.1] at hf2
    apply h.done_ge f (le_of_lt_succ hf2)
    exact fun d hd => hall d (.tail _ (.tail _ hd))
  · rw [forall_mem_cons, forall_mem_cons, h1.1, h1.2, h2.1, h2.2]
    have hne := iff_of_false (succ_ne_zero g.fenceCounter) (succ_ne_zero pair)
    exact ⟨hne, hne, h.async⟩
  · rw [forall_mem_cons, forall_mem_cons, h1.2, h2.2]
    exact ⟨hpair, hpair, h.pair_le⟩
  · intro p hp
    have hcount := h.count p hp
    change (if p = pair then 2 else g.asyncOutstanding p) = _
    rw [countP_cons, countP_cons, h1.2, h2.2, ← hcount]
    by_cases heq : p = pair
    · rw [if_pos heq, heq, hfree, if_pos (decide_eq_true rfl)]
    · have hne : ¬ decide (pair + 1 = p + 1) = true := by
        rw [decide_eq_true_iff]
        omega
      rw [if_neg heq, if_neg hne, Nat.add_zero]

/-! ## What a step keeps -/

theorem Tables.of_eq (h : g.Tables l) (hfence : g'.fenceOfHead = g.fenceOfHead)
    (hpair : g'.pairOfHead = g.pairOfHead) (hasync : g'.asyncOutstanding = g.asyncOutstanding)
    (hcounter : g'.fenceCounter = g.fenceCounter) (hdone : g'.lastFenceDone = g.lastFenceDone) :
    g'.Tables l := by
  constructor
  · rw [hfence]
    exact h.fence
  · rw [hpair]
    exact h.pair
  · rw [hfence]
    exact h.pending
  · rw [hcounter]
    exact h.fence_le
  · rw [hdone]
    exact h.done_lt
  · rw [hdone, hcounter]
    exact h.done_le
  · rw [hdone, hcounter]
    exact h.done_ge
  · exact h.async
  · exact h.pair_le
  · rw [hasync]
    exact h.count

/-- The queue holds the chains that are out, in the used ring are those that came back, and
the tables describe them all. -/
structure Inv (g : Gpu) : Prop where
  holds : g.controlq.Holds ((g.device ++ g.returned).map Flight.head)
  used : g.controlq.used = g.returned.map Flight.head
  size : g.controlq.queueSize ≤ fenceMaxHeads
  tables : g.Tables (g.device ++ g.returned)

theorem inv_probe (cmdPagesN : Nat) (controlSize : QueueSize) (cursorSize : Nat) :
    (probe cmdPagesN controlSize cursorSize).Inv where
  holds := Virtq.holds_init _ _
  used := rfl
  size := controlSize.2.2
  tables := by
    constructor
    · exact nofun
    · exact nofun
    · exact fun _ hne => absurd rfl hne
    · exact nofun
    · exact nofun
    · exact le_rfl
    · exact fun _ hf _ => hf
    · exact nofun
    · exact nofun
    · exact fun _ _ => rfl

theorem Inv.head_lt (h : g.Inv) (hc : c ∈ g.device ++ g.returned) : c.head < fenceMaxHeads :=
  lt_of_lt_of_le (h.holds.lt (mem_map_of_mem hc)) h.size

theorem onReap_frame (g : Gpu) (head : Nat) :
    (g.onReap head).controlq = g.controlq ∧ (g.onReap head).device = g.device ∧
      (g.onReap head).returned = g.returned ∧ (g.onReap head).fenceCounter = g.fenceCounter := by
  rw [onReap]
  split
  · exact ⟨rfl, rfl, rfl, rfl⟩
  split
  · exact ⟨rfl, rfl, rfl, rfl⟩
  · exact ⟨rfl, rfl, rfl, rfl⟩

/-- A poll takes the first returned chain out of the queue and out of the tables. -/
theorem Inv.reap (h : g.Inv) {head : Nat} (hreap : g.reap = some (head, g')) :
    g'.Inv ∧ g.lastFenceDone ≤ g'.lastFenceDone ∧ g'.device = g.device ∧
      g'.returned.length < g.returned.length := by
  rw [Gpu.reap] at hreap
  cases hret : g.returned with
  | nil =>
    rw [hret] at hreap
    exact nomatch hreap
  | cons c rest =>
    have hused : g.controlq.used = c.head :: rest.map Flight.head := by
      rw [h.used, hret]
      rfl
    have hmem : c ∈ g.device ++ g.returned := by
      rw [hret]
      exact mem_append_right _ (.head _)
    obtain ⟨q, hpoll, hholds, hused', hsize⟩ := h.holds.poll (mem_map_of_mem hmem) hused
    rw [hret, hpoll] at hreap
    have heq := Option.some.inj hreap
    obtain rfl : c.head = head := congrArg Prod.fst heq
    obtain rfl : {g with controlq := q, returned := rest}.onReap c.head = g' := congrArg Prod.snd heq
    have hperm : (g.device ++ g.returned).Perm (c :: (g.device ++ rest)) := by
      rw [hret]
      exact perm_middle
    have hnodup := (hperm.map Flight.head).nodup_iff.mp h.holds.nodup
    have htables : {g with controlq := q, returned := rest}.Tables (c :: (g.device ++ rest)) :=
      (h.tables.perm hperm).of_eq rfl rfl rfl rfl rfl
    have hout : ∀ d ∈ g.device ++ rest, d.head ≠ c.head := fun d hd heq =>
      (nodup_cons.mp hnodup).1 (heq ▸ mem_map_of_mem hd)
    have hafter := htables.onReap (h.head_lt hmem)
      (fun d hd => h.head_lt (hperm.mem_iff.mpr (.tail _ hd))) hout
    obtain ⟨hq, hdev, hrest, hcounter⟩ :=
      onReap_frame {g with controlq := q, returned := rest} c.head
    refine ⟨⟨?_, ?_, ?_, ?_⟩, ?_, hdev, ?_⟩
    · rw [hq, hdev, hrest]
      apply hholds.perm
      have herase := (hperm.map Flight.head).erase c.head
      rw [map_cons, erase_cons_head] at herase
      exact herase
    · rw [hq, hrest]
      exact hused'
    · rw [hq]
      exact hsize.trans_le h.size
    · rw [hdev, hrest]
      exact hafter
    · apply hafter.done_ge
      · rw [hcounter]
        exact h.tables.done_le
      · intro d hd hne
        exact h.tables.done_lt d (hperm.mem_iff.mpr (.tail _ hd)) hne
    · rw [hrest]
      exact lt_succ_self _

theorem Inv.complete (h : g.Inv) (hc : c ∈ g.device) : Inv {g with
      controlq := g.controlq.complete c.head
      device := g.device.erase c
      returned := g.returned ++ [c]} := by
  have hperm : (g.device ++ g.returned).Perm (g.device.erase c ++ (g.returned ++ [c])) := by
    rw [← append_assoc]
    apply ((perm_cons_erase hc).append_right _).trans
    exact (perm_append_singleton c (g.device.erase c ++ g.returned)).symm
  constructor
  · exact (h.holds.complete c.head).perm (hperm.map Flight.head)
  · change g.controlq.used ++ [c.head] = (g.returned ++ [c]).map Flight.head
    rw [h.used, map_append]
    rfl
  · exact h.size
  · exact (h.tables.perm hperm).of_eq rfl rfl rfl rfl rfl

theorem fresh_head {q : Virtq Span} {head : Nat} (hholds : q.Holds (head :: l.map Flight.head)) :
    ∀ d ∈ l, d.head ≠ head := by
  intro d hd heq
  apply (nodup_cons.mp hholds.nodup).1
  rw [← heq]
  exact mem_map_of_mem hd

theorem commandBufs_ne_nil {cmdLen outLen : Nat} (h : cmdLen ≠ 0) : commandBufs cmdLen outLen ≠ [] := by
  have hpages : cmdPages cmdLen ≠ 0 := by
    rw [cmdPages]
    omega
  intro hnil
  have hlen := congrArg length (append_eq_nil_iff.mp hnil).1
  rw [length_map, length_range] at hlen
  exact hpages hlen

theorem Inv.command (h : g.Inv) (cmdLen outLen : Nat) :
    (g.command cmdLen outLen).Inv ∧ (g.command cmdLen outLen).lastFenceDone = g.lastFenceDone := by
  rw [Gpu.command]
  split
  · exact ⟨h, rfl⟩
  rename_i hlen
  have hne : commandBufs cmdLen outLen ≠ [] := commandBufs_ne_nil (not_or.mp hlen).1
  by_cases hfit : (commandBufs cmdLen outLen).length ≤ g.controlq.numFree
  · obtain ⟨head, q, hsub, hholds, _, hused, hsize⟩ := h.holds.submit hne hfit
    rw [hsub]
    refine ⟨⟨hholds, hused.trans h.used, ?_, ?_⟩, rfl⟩
    · exact hsize.trans_le h.size
    · exact (h.tables.launch_sync q rfl rfl (fresh_head hholds)).of_eq rfl rfl rfl rfl rfl
  · rw [Virtq.submit_full (Nat.lt_of_not_le hfit)]
    exact ⟨h, rfl⟩

theorem freePair_spec (h : g.freePair = some pair) :
    4 ≤ g.controlq.numFree ∧ pair < asyncPairs ∧ g.asyncOutstanding pair = 0 := by
  rw [freePair] at h
  split at h
  · exact nomatch h
  rename_i hfree
  have hmem := mem_of_find?_eq_some h
  have hzero := find?_some h
  exact ⟨not_lt.mp hfree, mem_range.mp hmem, of_decide_eq_true hzero⟩

section
variable (h : g.Inv)
include h

theorem Inv.submit2_eq (hpair : g.freePair = some pair) (cmd1Len cmd2Len : Nat) :
    ∃ head1 head2 q1 q2, g.submit2 cmd1Len cmd2Len = (g.fenceCounter + 1, ({g with
            asyncOutstanding := fun i => if i = pair then 2 else g.asyncOutstanding i
            fenceCounter := g.fenceCounter + 1}.launch q1
          ⟨head1, g.fenceCounter + 1, pair + 1, batchBufs pair cmd1Len false⟩).launch q2
          ⟨head2, g.fenceCounter + 1, pair + 1, batchBufs pair cmd2Len true⟩) ∧
      q1.Holds (head1 :: (g.device ++ g.returned).map Flight.head) ∧
      q2.Holds (head2 :: head1 :: (g.device ++ g.returned).map Flight.head) ∧
      q2.used = g.controlq.used ∧ q2.queueSize = g.controlq.queueSize := by
  obtain ⟨hfree, _, _⟩ := freePair_spec hpair
  have hne : ∀ len second, batchBufs pair len second ≠ [] := fun _ _ => cons_ne_nil _ _
  have hfit1 : (batchBufs pair cmd1Len false).length ≤ g.controlq.numFree :=
    le_trans (Nat.le_add_left 2 2) hfree
  obtain ⟨head1, q1, hsub1, hholds1, hnum1, hused1, hsize1⟩ := h.holds.submit (hne _ _) hfit1
  have hfit2 : (batchBufs pair cmd2Len true).length ≤ q1.numFree := by
    rw [hnum1]
    exact le_sub_of_add_le hfree
  obtain ⟨head2, q2, hsub2, hholds2, _, hused2, hsize2⟩ := hholds1.submit (hne _ _) hfit2
  refine ⟨head1, head2, q1, q2, ?_, hholds1, hholds2, hused2.trans hused1, hsize2.trans hsize1⟩
  rw [submit2, hpair]
  dsimp only
  rw [hsub1]
  dsimp only [launch]
  rw [hsub2]

theorem Inv.submit2 (cmd1Len cmd2Len : Nat) : (g.submit2 cmd1Len cmd2Len).2.Inv ∧
      (g.submit2 cmd1Len cmd2Len).2.lastFenceDone = g.lastFenceDone := by
  cases hpair : g.freePair with
  | none =>
    rw [Gpu.submit2, hpair]
    exact ⟨h, rfl⟩
  | some pair =>
    obtain ⟨_, hlt, hzero⟩ := freePair_spec hpair
    obtain ⟨head1, head2, q1, q2, heq, hholds1, hholds2, hused, hsize⟩ :=
      h.submit2_eq hpair cmd1Len cmd2Len
    rw [heq]
    refine ⟨⟨hholds2, hused.trans h.used, hsize.trans_le h.size, ?_⟩, rfl⟩
    apply h.tables.launch_batch q1 q2 hlt hzero ⟨rfl, rfl⟩ ⟨rfl, rfl⟩ (fresh_head hholds1)
    apply fresh_head (l := _ :: _)
    exact hholds2

theorem Inv.cursorCommand (cmdLen : Nat) :
    (g.cursorCommand cmdLen).Inv ∧ (g.cursorCommand cmdLen).lastFenceDone = g.lastFenceDone := by
  rw [Gpu.cursorCommand]
  split
  · exact ⟨h, rfl⟩
  split
  · exact ⟨h, rfl⟩
  · exact ⟨{h with tables := h.tables.of_eq rfl rfl rfl rfl rfl}, rfl⟩

theorem Inv.cursorEnd (timeout : Bool) :
    (g.cursorEnd timeout).Inv ∧ (g.cursorEnd timeout).lastFenceDone = g.lastFenceDone := by
  rw [Gpu.cursorEnd]
  split
  · exact ⟨{h with tables := h.tables.of_eq rfl rfl rfl rfl rfl}, rfl⟩
  · exact ⟨{h with tables := h.tables.of_eq rfl rfl rfl rfl rfl}, rfl⟩

theorem Inv.setControl (control : Control) : Inv {g with control := control} :=
  {h with tables := h.tables.of_eq rfl rfl rfl rfl rfl}

theorem Inv.step {a : Act} (hs : g.step a = some g') :
    g'.Inv ∧ g.lastFenceDone ≤ g'.lastFenceDone := by
  revert hs
  -- one goal for each way a step succeeds, in the order of the definition
  fun_cases Gpu.step g a <;> rintro ⟨⟩
  next c hc => exact ⟨h.complete hc, le_rfl⟩
  next cmdLen outLen _ =>
    obtain ⟨hinv, hdone⟩ := h.command cmdLen outLen
    exact ⟨hinv, le_of_eq hdone.symm⟩
  next hreap _ =>
    obtain ⟨hinv, hdone, -⟩ := h.reap hreap
    split
    · exact ⟨hinv.setControl .idle, hdone⟩
    · exact ⟨hinv, hdone⟩
  next => exact ⟨h.setControl .idle, le_rfl⟩
  next => exact ⟨h.setControl _, le_rfl⟩
  next hreap =>
    obtain ⟨hinv, hdone, -⟩ := h.reap hreap
    exact ⟨hinv, hdone⟩
  next cmd1Len cmd2Len _ _ =>
    obtain ⟨hinv, hdone⟩ := h.submit2 cmd1Len cmd2Len
    exact ⟨hinv.setControl .idle, le_of_eq hdone.symm⟩
  next => exact ⟨h.setControl .idle, le_rfl⟩
  next => exact ⟨{h with tables := h.tables.of_eq rfl rfl rfl rfl rfl}, le_rfl⟩
  next cmdLen _ =>
    obtain ⟨hinv, hdone⟩ := h.cursorCommand cmdLen
    exact ⟨hinv, le_of_eq hdone.symm⟩
  next returned _ q _ _ _ polled =>
    have hpolled : polled.Inv := {h with tables := h.tables.of_eq rfl rfl rfl rfl rfl}
    split
    · obtain ⟨hinv, hdone⟩ := hpolled.cursorEnd false
      exact ⟨hinv, le_of_eq hdone.symm⟩
    · exact ⟨hpolled, le_rfl⟩
  next =>
    obtain ⟨hinv, hdone⟩ := h.cursorEnd true
    exact ⟨hinv, le_of_eq hdone.symm⟩

end

/-! ## Fences -/

abbrev GpuRun : Gpu → List Act → Gpu → Prop := Run fun g a g' => g.step a = some g'

theorem inv_run {cmdPagesN : Nat} {controlSize : QueueSize} {cursorSize : Nat} {acts : List Act}
    (h : GpuRun (probe cmdPagesN controlSize cursorSize) acts g) : g.Inv :=
  h.invariant (fun _ _ _ hinv hs => (hinv.step hs).1) (inv_probe _ _ _)

/-- Fences tell the truth in a state: the watermark does not fall; when the used ring is
drained `fence_done` says whether the device returned all chains up to the fence; a drain comes
to its end; and a pair that is taken has no chain out. -/
structure FencesTruthful (g : Gpu) : Prop where
  monotone : ∀ a g', g.step a = some g' → g.lastFenceDone ≤ g'.lastFenceDone
  answer : ∀ fence, g.control = .drain (.fenceDone fence) → g.returned = [] → 0 < fence →
    fence ≤ g.fenceCounter →
    (g.fenceDone fence = true ↔ ∀ c ∈ g.device, c.fence ≠ 0 → fence < c.fence)
  drains : ∀ call, g.control = .drain call →
    (g.returned = [] ∧ ∃ g', g.step .drainEnd = some g') ∨
      ∃ g', g.step .drainPoll = some g' ∧
        g'.device.length + g'.returned.length < g.device.length + g.returned.length
  reuse : ∀ pair, g.freePair = some pair → ∀ c ∈ g.device ++ g.returned, c.pair ≠ pair + 1

theorem Inv.fenceDone_iff (h : g.Inv) (hret : g.returned = []) {fence : Nat} (hpos : 0 < fence)
    (hle : fence ≤ g.fenceCounter) :
    g.fenceDone fence = true ↔ ∀ c ∈ g.device, c.fence ≠ 0 → fence < c.fence := by
  have htables := h.tables
  rw [hret, append_nil] at htables
  rw [fenceDone, decide_eq_true_iff]
  constructor
  · intro hdone c hc hne
    exact lt_of_le_of_lt hdone.2 (htables.done_lt c hc hne)
  · intro hall
    exact ⟨hpos.ne', htables.done_ge fence hle hall⟩

theorem Inv.reap_some (h : g.Inv) (hne : g.returned ≠ []) : ∃ r, g.reap = some r := by
  obtain ⟨c, rest, hret⟩ := exists_cons_of_ne_nil hne
  have hused : g.controlq.used = c.head :: rest.map Flight.head := by
    rw [h.used, hret]
    rfl
  have hmem : c ∈ g.device ++ g.returned := by
    rw [hret]
    exact mem_append_right _ (.head _)
  obtain ⟨q, hpoll, -⟩ := h.holds.poll (mem_map_of_mem hmem) hused
  rw [Gpu.reap, hret, hpoll]
  exact ⟨_, rfl⟩

theorem Inv.drains (h : g.Inv) {call : Drain} (hcontrol : g.control = .drain call) :
    (g.returned = [] ∧ ∃ g', g.step .drainEnd = some g') ∨ ∃ g', g.step .drainPoll = some g' ∧
        g'.device.length + g'.returned.length < g.device.length + g.returned.length := by
  by_cases hret : g.returned = []
  · left
    rw [Gpu.step, hcontrol, hret]
    cases call with
    | submit2 | pollFences | fenceDone => exact ⟨rfl, _, rfl⟩
  · right
    obtain ⟨⟨head, g'⟩, hreap⟩ := h.reap_some hret
    obtain ⟨-, -, hdev, hlt⟩ := h.reap hreap
    rw [Gpu.step, hcontrol, hreap]
    refine ⟨g', rfl, ?_⟩
    rw [hdev]
    exact Nat.add_lt_add_left hlt _

theorem Inv.pair_free (h : g.Inv) (hpair : g.freePair = some pair) :
    ∀ c ∈ g.device ++ g.returned, c.pair ≠ pair + 1 := by
  obtain ⟨_, hlt, hzero⟩ := freePair_spec hpair
  have hcount := h.tables.count pair hlt
  rw [hzero] at hcount
  intro c hc heq
  have hnone := countP_eq_zero.mp hcount.symm c hc
  exact hnone (decide_eq_true heq)

theorem fences_truthful (cmdPagesN : Nat) (controlSize : QueueSize) (cursorSize : Nat)
    (acts : List Act) (g : Gpu) (h : GpuRun (probe cmdPagesN controlSize cursorSize) acts g) :
    g.FencesTruthful := by
  have hinv := inv_run h
  constructor
  · exact fun _ _ hs => (hinv.step hs).2
  · exact fun _ _ hret hpos hle => hinv.fenceDone_iff hret hpos hle
  · exact fun _ hcontrol => hinv.drains hcontrol
  · exact fun _ hpair => hinv.pair_free hpair

/-- After a batch the queue can be asked for its fence. -/
theorem fences_truthful_batch : ∃ g,
    GpuRun (probe 16 ⟨32, by decide⟩ 16)
      [.begin (.submit2 24 24), .drainEnd, .begin (.fenceDone 1)] g ∧ g.FencesTruthful := by
  obtain ⟨g, hg⟩ : ∃ g, GpuRun (probe 16 ⟨32, by decide⟩ 16)
      [.begin (.submit2 24 24), .drainEnd, .begin (.fenceDone 1)] g :=
    ⟨_, .cons rfl (.cons rfl (.cons rfl (.nil _)))⟩
  exact ⟨g, hg, fences_truthful 16 ⟨32, by decide⟩ 16 _ g hg⟩

end Gpu

end Kyuzen.Drivers
