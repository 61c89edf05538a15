import Kyuzen.Base.Ring
import Kyuzen.Base.Run

/-!
The descriptor rings of the e1000 driver with the device at their other end: the
device transmits from TDH up to TDT and fills from RDH up to RDT, the driver
judges a descriptor by its done bit.
-/

namespace Kyuzen.Drivers

open Function List Nat

abbrev Frame := List UInt8

/-- `E1000_NUM_TX_DESC` and `E1000_NUM_RX_DESC` -/
def numDesc : Nat := 16

/-- `dd` is the bit `E1000_TXSTA_DD` of the status. -/
structure TxDesc where
  length : Nat
  cmd : Nat
  dd : Bool
  deriving DecidableEq, Repr

/-- `dd` and `eop` are the bits of the status that the driver looks at. -/
structure RxDesc where
  length : Nat
  dd : Bool
  eop : Bool
  errors : Nat
  deriving DecidableEq, Repr

/-- What the device puts into one receive descriptor and its buffer. -/
structure RxFill where
  data : Frame
  eop : Bool
  errors : Nat
  deriving DecidableEq, Repr

def RxFill.whole (f : RxFill) : Bool := f.eop && f.errors == 0 && decide (0 < f.data.length)

/-- The frames of one descriptor without an error, in the order they came in. -/
def rxFrames (l : List RxFill) : List Frame := (l.filter RxFill.whole).map RxFill.data

/-- The driver, its rings and the registers of the device. `pollTail` is the `tail` of
`e1000_poll` while it runs. The frames that `e1000_send` accepted and the device
transmitted, what the device filled in and what went to `e1000_rx_callback` are kept
in the last four fields. -/
structure Nic where
  initialized : Bool
  txDescs : Nat → TxDesc
  txBufs : Nat → List UInt8
  txTail : Nat
  rxDescs : Nat → RxDesc
  rxBufs : Nat → List UInt8
  rxTail : Nat
  pollTail : Option Nat
  tdh : Nat
  tdt : Nat
  rdh : Nat
  rdt : Nat
  accepted : List Frame
  transmitted : List Frame
  filled : List RxFill
  passed : List Frame

inductive NicOp where
  | send (data : Frame)
  /-- `e1000_poll` up to its loop. -/
  | poll
  /-- One turn of the loop of `e1000_poll`. -/
  | pollNext
  /-- The device transmits one descriptor. -/
  | transmit
  /-- The device fills one descriptor. -/
  | fill (f : RxFill)
  deriving Repr

def memcpy (buf data : List UInt8) : List UInt8 := data ++ buf.drop data.length

namespace Nic

/-- The state `e1000_init` leaves, with what the pages of the buffers hold. -/
def init (txBufs rxBufs : Nat → List UInt8) : Nic where
  initialized := true
  txDescs := fun _ => ⟨0, 0, true⟩
  txBufs := txBufs
  txTail := 0
  rxDescs := fun _ => ⟨0, false, false, 0⟩
  rxBufs := rxBufs
  rxTail := numDesc - 1
  pollTail := none
  tdh := 0
  tdt := 0
  rdh := 0
  rdt := numDesc - 1
  accepted := []
  transmitted := []
  filled := []
  passed := []

/-- `e1000_send`, with its result. -/
def send (s : Nic) (data : Frame) : Nic × Int :=
  if s.initialized = false then (s, -1)
  else if data.length = 0 ∨ 1522 < data.length then (s, -1)
  else if (s.txDescs s.txTail).dd = false then (s, -1)
  else
    ({s with
      txBufs := update s.txBufs s.txTail (memcpy (s.txBufs s.txTail) data)
      -- EOP, IFCS and RS
      txDescs := update s.txDescs s.txTail ⟨data.length, 1 + 2 + 8, false⟩
      txTail := (s.txTail + 1) % numDesc
      tdt := (s.txTail + 1) % numDesc
      accepted := s.accepted ++ [data]}, 0)

def txFrame (s : Nic) (i : Nat) : Frame := (s.txBufs i).take (s.txDescs i).length

def rxHeld (s : Nic) (i : Nat) : RxFill :=
  ⟨(s.rxBufs i).take (s.rxDescs i).length, (s.rxDescs i).eop, (s.rxDescs i).errors⟩

/-- One turn of the loop of `e1000_poll`, from its `tail`. -/
def pollLoop (s : Nic) (tail : Nat) : Nic :=
  let next := (tail + 1) % numDesc
  let desc := s.rxDescs next
  if desc.dd = false then {s with pollTail := none, rxTail := tail}
  else
    {s with
      passed :=
        if desc.eop = true ∧ desc.errors = 0 ∧ 0 < desc.length then
          s.passed ++ [(s.rxBufs next).take desc.length]
        else s.passed
      rxDescs := update s.rxDescs next ⟨0, false, false, 0⟩
      rdt := next
      pollTail := some next}

def transmit (s : Nic) : Nic :=
  if s.tdh = s.tdt then s
  else
    {s with
      transmitted := s.transmitted ++ [s.txFrame s.tdh]
      txDescs := update s.txDescs s.tdh {s.txDescs s.tdh with dd := true}
      tdh := (s.tdh + 1) % numDesc}

/-- The device fills the descriptor at RDH, with at most the size of a buffer. -/
def fill (s : Nic) (f : RxFill) : Nic :=
  if s.rdh = s.rdt ∨ 2048 < f.data.length then s
  else
    {s with
      rxBufs := update s.rxBufs s.rdh (memcpy (s.rxBufs s.rdh) f.data)
      rxDescs := update s.rxDescs s.rdh ⟨f.data.length, true, f.eop, f.errors⟩
      rdh := (s.rdh + 1) % numDesc
      filled := s.filled ++ [f]}

def exec (s : Nic) : NicOp → Nic
  | .send data => (s.send data).1
  | .poll =>
    if s.initialized = true ∧ s.pollTail = none then {s with pollTail := some s.rxTail} else s
  | .pollNext =>
    match s.pollTail with
    | some tail => s.pollLoop tail
    | none => s
  | .transmit => s.transmit
  | .fill f => s.fill f

end Nic

def NicStep (s : Nic) (op : NicOp) (s' : Nic) : Prop := s' = s.exec op

theorem take_memcpy (buf data : List UInt8) : (memcpy buf data).take data.length = data := by
  rw [memcpy, take_left]

theorem rxFrames_append (l l' : List RxFill) : rxFrames (l ++ l') = rxFrames l ++ rxFrames l' := by
  rw [rxFrames, filter_append, map_append, rxFrames, rxFrames]

theorem rxFrames_singleton (f : RxFill) :
    rxFrames [f] = if f.eop = true ∧ f.errors = 0 ∧ 0 < f.data.length then [f.data] else [] := by
  by_cases h : f.eop = true ∧ f.errors = 0 ∧ 0 < f.data.length
  · have hwhole : f.whole = true := by simp [RxFill.whole, h]
    rw [if_pos h, rxFrames, filter_cons_of_pos hwhole, filter_nil, map_singleton]
  · have hwhole : ¬ f.whole = true := by simpa [RxFill.whole, and_assoc] using h
    rw [if_neg h, rxFrames, filter_cons_of_neg hwhole, filter_nil, map_nil]

namespace Nic

variable {s : Nic} {handled waiting : List RxFill} {out : List Frame}

def txFree (s : Nic) (i : Nat) : Bool := (s.txDescs i).dd

def rxFree (s : Nic) (i : Nat) : Bool := !(s.rxDescs i).dd

/-- The accepted frames are the transmitted ones and those in the descriptors from TDH on. -/
structure TxQueue (s : Nic) (out : List Frame) : Prop where
  accepted : s.accepted = s.transmitted ++ out
  ring : RingQueue numDesc s.txFrame s.txFree s.tdh out
  tdt_eq : s.tdt = (s.tdh + out.length) % numDesc
  txTail_eq : s.txTail = s.tdt

/-- The filled descriptors are those that were handled and those behind RDT. -/
structure RxQueue (s : Nic) (handled waiting : List RxFill) : Prop where
  filled : s.filled = handled ++ waiting
  ring : RingQueue numDesc s.rxHeld s.rxFree ((s.rdt + 1) % numDesc) waiting
  rdh_eq : s.rdh = ((s.rdt + 1) % numDesc + waiting.length) % numDesc
  rdt_lt : s.rdt < numDesc
  length_lt : waiting.length < numDesc
  tail_eq : s.pollTail.getD s.rxTail = s.rdt
  passed : s.passed = rxFrames handled
  fits : ∀ i, (s.rxDescs i).length ≤ (s.rxBufs i).length

theorem TxQueue.init (txBufs rxBufs : Nat → List UInt8) : TxQueue (init txBufs rxBufs) [] where
  accepted := rfl
  ring := ⟨(by decide : 0 < numDesc), Nat.zero_le _, rfl, fun _ _ => rfl⟩
  tdt_eq := rfl
  txTail_eq := rfl

theorem RxQueue.init (txBufs rxBufs : Nat → List UInt8) : RxQueue (init txBufs rxBufs) [] [] where
  filled := rfl
  ring := ⟨mod_lt _ (by decide), Nat.zero_le _, rfl, fun _ _ => rfl⟩
  rdh_eq := (by decide : 0 = ((numDesc - 1 + 1) % numDesc + 0) % numDesc)
  rdt_lt := (by decide : numDesc - 1 < numDesc)
  length_lt := by decide
  tail_eq := rfl
  passed := rfl
  fits _ := Nat.zero_le _

theorem TxQueue.congr {s s' : Nic} {out : List Frame} (h : s.TxQueue out)
    (hlog : s'.accepted = s.accepted ∧ s'.transmitted = s.transmitted)
    (hmem : s'.txDescs = s.txDescs ∧ s'.txBufs = s.txBufs)
    (hreg : s'.tdh = s.tdh ∧ s'.tdt = s.tdt ∧ s'.txTail = s.txTail) : s'.TxQueue out := by
  have hframe : s'.txFrame = s.txFrame := by
    funext i
    rw [txFrame, hmem.1, hmem.2, txFrame]
  have hfree : s'.txFree = s.txFree := by
    funext i
    rw [txFree, hmem.1, txFree]
  refine ⟨?_, ?_, ?_, ?_⟩
  · rw [hlog.1, hlog.2, h.accepted]
  · rw [hframe, hfree, hreg.1]
    exact h.ring
  · rw [hreg.2.1, hreg.1, h.tdt_eq]
  · rw [hreg.2.2, hreg.2.1, h.txTail_eq]

theorem RxQueue.congr {s s' : Nic} {handled waiting : List RxFill} (h : s.RxQueue handled waiting)
    (hlog : s'.filled = s.filled ∧ s'.passed = s.passed)
    (hmem : s'.rxDescs = s.rxDescs ∧ s'.rxBufs = s.rxBufs)
    (hreg : s'.rdh = s.rdh ∧ s'.rdt = s.rdt)
    (htail : s'.pollTail.getD s'.rxTail = s.pollTail.getD s.rxTail) : s'.RxQueue handled waiting := by
  have hheld : s'.rxHeld = s.rxHeld := by
    funext i
    rw [rxHeld, hmem.1, hmem.2, rxHeld]
  have hfree : s'.rxFree = s.rxFree := by
    funext i
    rw [rxFree, hmem.1, rxFree]
  refine ⟨?_, ?_, ?_, ?_, h.length_lt, ?_, ?_, ?_⟩
  · rw [hlog.1, h.filled]
  · rw [hheld, hfree, hreg.2]
    exact h.ring
  · rw [hreg.1, hreg.2, h.rdh_eq]
  · rw [hreg.2]
    exact h.rdt_lt
  · rw [htail, hreg.2, h.tail_eq]
  · rw [hlog.2, h.passed]
  · rw [hmem.1, hmem.2]
    exact h.fits

theorem TxQueue.send (h : s.TxQueue out) (data : Frame) : ∃ out', (s.send data).1.TxQueue out' := by
  unfold Nic.send
  split
  · exact ⟨out, h⟩
  split
  · exact ⟨out, h⟩
  split
  · exact ⟨out, h⟩
  next hdd =>
    -- the driver's test: the descriptor behind the queue is free, so there is room
    have hpos : s.txTail = (s.tdh + out.length) % numDesc := h.txTail_eq.trans h.tdt_eq
    have hroom : out.length < numDesc := by
      apply h.ring.length_lt_of_free
      rw [← hpos]
      exact Bool.eq_true_of_not_eq_false hdd
    have htdt : (s.txTail + 1) % numDesc = (s.tdh + (out ++ [data]).length) % numDesc := by
      rw [hpos, length_append, length_singleton, mod_add_mod, add_assoc]
    refine ⟨out ++ [data], ?_, ?_, htdt, rfl⟩
    · rw [← append_assoc, ← h.accepted]
    have hring := h.ring.push (x := data) hroom
    rw [← hpos] at hring
    convert hring using 1
    · funext i
      by_cases hi : i = s.txTail
      · simp [hi, txFrame, take_memcpy]
      · simp [txFrame, update_of_ne hi]
    · funext i
      by_cases hi : i = s.txTail
      · simp [hi, txFree]
      · simp [txFree, update_of_ne hi]

theorem TxQueue.transmit (h : s.TxQueue out) : ∃ out', s.transmit.TxQueue out' := by
  unfold Nic.transmit
  split
  · exact ⟨out, h⟩
  next hne =>
    cases out with
    | nil =>
      rw [h.tdt_eq, length_nil, add_zero, mod_eq_of_lt h.ring.pos_lt] at hne
      exact absurd rfl hne
    | cons frame out =>
      obtain ⟨hframe, hring⟩ := h.ring.pop frame
      refine ⟨out, ?_, ?_, ?_, h.txTail_eq⟩
      · rw [h.accepted, hframe, append_assoc, singleton_append]
      · convert hring using 1
        · funext i
          by_cases hi : i = s.tdh
          · rw [hi, update_self, ← hframe]
            simp [txFrame]
          · simp [txFrame, update_of_ne hi]
        · funext i
          by_cases hi : i = s.tdh
          · simp [hi, txFree]
          · simp [txFree, update_of_ne hi]
      · rw [h.tdt_eq, length_cons, mod_add_mod, add_assoc, add_comm 1]

section
variable (h : s.RxQueue handled waiting)
include h

theorem RxQueue.fill (f : RxFill) : ∃ waiting', (s.fill f).RxQueue handled waiting' := by
  unfold Nic.fill
  split
  · exact ⟨waiting, h⟩
  next hgo =>
    -- RDH would be RDT if only the descriptor at RDT were left
    have hroom : waiting.length + 1 < numDesc := by
      have hlt := h.length_lt
      have hrdh := h.rdh_eq
      have hrdt := h.rdt_lt
      unfold numDesc at *
      omega
    have hrdh : (s.rdh + 1) % numDesc =
        ((s.rdt + 1) % numDesc + (waiting ++ [f]).length) % numDesc := by
      rw [h.rdh_eq, length_append, length_singleton, mod_add_mod, add_assoc]
    refine ⟨waiting ++ [f], ?_, ?_, hrdh, h.rdt_lt, ?_, h.tail_eq, h.passed, ?_⟩
    · rw [← append_assoc, ← h.filled]
    · have hring := h.ring.push (x := f) h.length_lt
      rw [← h.rdh_eq] at hring
      convert hring using 1
      · funext i
        by_cases hi : i = s.rdh
        · simp [hi, rxHeld, take_memcpy]
        · simp [rxHeld, update_of_ne hi]
      · funext i
        by_cases hi : i = s.rdh
        · simp [hi, rxFree, Bool.not_true]
        · simp [rxFree, update_of_ne hi]
    · rw [length_append, length_singleton]
      exact hroom
    · intro i
      by_cases hi : i = s.rdh
      · simp [hi, memcpy]
      · simpa only [update_of_ne hi] using h.fits i

theorem RxQueue.dd_eq :
    (s.rxDescs ((s.rdt + 1) % numDesc)).dd = decide (0 < waiting.length) := by
  have hfree := h.ring.free_eq 0 (by decide)
  rw [add_zero, mod_mod, rxFree] at hfree
  rw [← Bool.not_inj_iff, hfree, ← decide_not]
  simp

theorem RxQueue.tail_of_poll {tail : Nat} (hpoll : s.pollTail = some tail) : tail = s.rdt := by
  have := h.tail_eq
  rwa [hpoll, Option.getD_some] at this

end

/-- A turn without a filled descriptor ends the poll. -/
theorem RxQueue.pollLoop_nil (h : s.RxQueue handled []) {tail : Nat}
    (hpoll : s.pollTail = some tail) :
    (s.pollLoop tail).RxQueue handled [] ∧ (s.pollLoop tail).pollTail = none := by
  cases h.tail_of_poll hpoll
  have hdd : (s.rxDescs ((s.rdt + 1) % numDesc)).dd = false := h.dd_eq
  rw [Nic.pollLoop, if_pos hdd]
  exact ⟨h.congr ⟨rfl, rfl⟩ ⟨rfl, rfl⟩ ⟨rfl, rfl⟩ h.tail_eq.symm, rfl⟩

/-- Every other turn handles the oldest filled descriptor, and the poll goes on. -/
theorem RxQueue.pollLoop_cons {f : RxFill} (h : s.RxQueue handled (f :: waiting)) {tail : Nat}
    (hpoll : s.pollTail = some tail) : (s.pollLoop tail).RxQueue (handled ++ [f]) waiting ∧
      (s.pollLoop tail).pollTail ≠ none := by
  cases h.tail_of_poll hpoll
  have hdd : (s.rxDescs ((s.rdt + 1) % numDesc)).dd = true := h.dd_eq
  rw [Nic.pollLoop, if_neg (by simp [hdd])]
  obtain ⟨hheld, hring⟩ := h.ring.pop ⟨[], false, 0⟩
  have hlength : f.data.length = (s.rxDescs ((s.rdt + 1) % numDesc)).length := by
    rw [← hheld, rxHeld, length_take]
    exact Nat.min_eq_left (h.fits _)
  refine ⟨⟨?_, ?_, ?_, mod_lt _ (by decide), ?_, rfl, ?_, ?_⟩, Option.some_ne_none _⟩
  · rw [h.filled, append_assoc, singleton_append]
  · convert hring using 1
    · funext i
      by_cases hi : i = (s.rdt + 1) % numDesc
      · simp [hi, rxHeld]
      · simp [rxHeld, update_of_ne hi]
    · funext i
      by_cases hi : i = (s.rdt + 1) % numDesc
      · simp [hi, rxFree, Bool.not_false]
      · simp [rxFree, update_of_ne hi]
  · rw [h.rdh_eq, length_cons, mod_add_mod _ numDesc waiting.length, add_assoc, add_comm 1]
  · have := h.length_lt
    rw [length_cons] at this
    omega
  · have heop : f.eop = (s.rxDescs ((s.rdt + 1) % numDesc)).eop := by rw [← hheld, rxHeld]
    have herrors : f.errors = (s.rxDescs ((s.rdt + 1) % numDesc)).errors := by
      rw [← hheld, rxHeld]
    have hdata : f.data = (s.rxBufs ((s.rdt + 1) % numDesc)).take
        (s.rxDescs ((s.rdt + 1) % numDesc)).length := by rw [← hheld, rxHeld]
    rw [rxFrames_append, ← h.passed, rxFrames_singleton, hlength, heop, herrors, hdata]
    by_cases hwhole : (s.rxDescs ((s.rdt + 1) % numDesc)).eop = true ∧
        (s.rxDescs ((s.rdt + 1) % numDesc)).errors = 0 ∧
        0 < (s.rxDescs ((s.rdt + 1) % numDesc)).length
    · rw [if_pos hwhole, if_pos hwhole]
    · rw [if_neg hwhole, if_neg hwhole, append_nil]
  · intro i
    by_cases hi : i = (s.rdt + 1) % numDesc
    · simp [hi]
    · simpa only [update_of_ne hi] using h.fits i

def Ok (s : Nic) : Prop :=
  (∃ out, s.TxQueue out) ∧ ∃ handled waiting, s.RxQueue handled waiting

theorem Ok.init (txBufs rxBufs : Nat → List UInt8) : Ok (init txBufs rxBufs) :=
  ⟨⟨[], .init txBufs rxBufs⟩, [], [], .init txBufs rxBufs⟩

theorem RxQueue.send (h : s.RxQueue handled waiting) (data : Frame) :
    (s.send data).1.RxQueue handled waiting := by
  unfold Nic.send
  split
  · exact h
  split
  · exact h
  split
  · exact h
  · exact h.congr ⟨rfl, rfl⟩ ⟨rfl, rfl⟩ ⟨rfl, rfl⟩ rfl

theorem RxQueue.transmit (h : s.RxQueue handled waiting) : s.transmit.RxQueue handled waiting := by
  unfold Nic.transmit
  split
  · exact h
  · exact h.congr ⟨rfl, rfl⟩ ⟨rfl, rfl⟩ ⟨rfl, rfl⟩ rfl

theorem TxQueue.fill (h : s.TxQueue out) (f : RxFill) : (s.fill f).TxQueue out := by
  unfold Nic.fill
  split
  · exact h
  · exact h.congr ⟨rfl, rfl⟩ ⟨rfl, rfl⟩ ⟨rfl, rfl, rfl⟩

theorem TxQueue.pollLoop (h : s.TxQueue out) (tail : Nat) : (s.pollLoop tail).TxQueue out := by
  unfold Nic.pollLoop
  dsimp only
  split
  · exact h.congr ⟨rfl, rfl⟩ ⟨rfl, rfl⟩ ⟨rfl, rfl, rfl⟩
  · exact h.congr ⟨rfl, rfl⟩ ⟨rfl, rfl⟩ ⟨rfl, rfl, rfl⟩

theorem Ok.exec (h : s.Ok) (op : NicOp) : (s.exec op).Ok := by
  obtain ⟨⟨out, htx⟩, handled, waiting, hrx⟩ := h
  cases op with
  | send data => exact ⟨htx.send data, handled, waiting, hrx.send data⟩
  | poll =>
    rw [Nic.exec]
    split
    next hgo =>
      refine ⟨⟨out, htx.congr ⟨rfl, rfl⟩ ⟨rfl, rfl⟩ ⟨rfl, rfl, rfl⟩⟩, handled, waiting, ?_⟩
      refine hrx.congr ⟨rfl, rfl⟩ ⟨rfl, rfl⟩ ⟨rfl, rfl⟩ ?_
      rw [hgo.2, Option.getD_none, Option.getD_some]
    · exact ⟨⟨out, htx⟩, handled, waiting, hrx⟩
  | pollNext =>
    rw [Nic.exec]
    split
    next tail hpoll =>
      cases waiting with
      | nil => exact ⟨⟨out, htx.pollLoop tail⟩, handled, [], (hrx.pollLoop_nil hpoll).1⟩
      | cons f waiting =>
        exact ⟨⟨out, htx.pollLoop tail⟩, handled ++ [f], waiting, (hrx.pollLoop_cons hpoll).1⟩
    · exact ⟨⟨out, htx⟩, handled, waiting, hrx⟩
  | transmit => exact ⟨htx.transmit, handled, waiting, hrx.transmit⟩
  | fill f => exact ⟨⟨out, htx.fill f⟩, handled, hrx.fill f⟩

def txWindow (s : Nic) : List Frame :=
  ringList numDesc s.txFrame s.tdh ((s.tdt + numDesc - s.tdh) % numDesc)

/-- What the descriptors from the one behind RDT up to RDH-1 hold. -/
def rxWindow (s : Nic) : List RxFill :=
  ringList numDesc s.rxHeld ((s.rdt + 1) % numDesc)
    ((s.rdh + numDesc - (s.rdt + 1) % numDesc) % numDesc)

theorem window_length {pos n : Nat} (hpos : pos < numDesc) :
    ((pos + n) % numDesc + numDesc - pos) % numDesc = n % numDesc := by
  unfold numDesc at *
  omega

theorem TxQueue.window_iff (h : s.TxQueue out) :
    s.accepted = s.transmitted ++ s.txWindow ↔ s.accepted.length < s.transmitted.length + numDesc := by
  have hlength : s.accepted.length = s.transmitted.length + out.length := by
    rw [h.accepted, length_append]
  rw [txWindow, h.tdt_eq, window_length h.ring.pos_lt]
  constructor
  · intro hwindow
    have := congrArg length hwindow
    rw [length_append, ringList_length] at this
    have hmod : out.length % numDesc < numDesc := mod_lt _ (by decide)
    omega
  · intro hroom
    rw [mod_eq_of_lt (by omega), h.ring.cells]
    exact h.accepted

theorem RxQueue.window_eq (h : s.RxQueue handled waiting) : s.rxWindow = waiting := by
  rw [rxWindow, h.rdh_eq, window_length h.ring.pos_lt, mod_eq_of_lt h.length_lt, h.ring.cells]

theorem RxQueue.received (h : s.RxQueue handled waiting) :
    s.passed ++ rxFrames s.rxWindow = rxFrames s.filled := by
  rw [h.window_eq, h.passed, h.filled, rxFrames_append]

/-- A turn passes on the oldest filled descriptor, and it ends the poll when there is none. -/
theorem RxQueue.turn (h : s.RxQueue handled waiting) (hpoll : s.pollTail ≠ none) :
    (s.exec .pollNext).passed = s.passed ++ rxFrames (s.rxWindow.take 1) ∧
      (s.exec .pollNext).rxWindow = s.rxWindow.drop 1 ∧
      ((s.exec .pollNext).pollTail = none ↔ s.rxWindow = []) := by
  obtain ⟨tail, htail⟩ := Option.ne_none_iff_exists'.mp hpoll
  have hexec : s.exec .pollNext = s.pollLoop tail := by rw [Nic.exec, htail]
  rw [hexec, h.window_eq]
  cases waiting with
  | nil =>
    obtain ⟨hrx, hend⟩ := h.pollLoop_nil htail
    refine ⟨?_, hrx.window_eq, iff_of_true hend rfl⟩
    rw [hrx.passed, h.passed]
    exact (append_nil _).symm
  | cons f waiting =>
    obtain ⟨hrx, hgoes⟩ := h.pollLoop_cons htail
    refine ⟨?_, hrx.window_eq, iff_of_false hgoes (cons_ne_nil _ _)⟩
    rw [hrx.passed, h.passed, rxFrames_append]
    rfl

theorem RxQueue.poll (h : s.RxQueue handled waiting) (hpoll : s.pollTail ≠ none) :
    ((fun s => s.exec .pollNext)^[waiting.length + 1] s).pollTail = none ∧
      ((fun s => s.exec .pollNext)^[waiting.length + 1] s).passed = rxFrames s.filled := by
  induction waiting generalizing s handled with
  | nil =>
    obtain ⟨hpassed, -, hend⟩ := h.turn hpoll
    rw [h.window_eq] at hpassed hend
    refine ⟨hend.mpr rfl, hpassed.trans ?_⟩
    rw [h.passed, h.filled, append_nil]
    exact append_nil _
  | cons f waiting ih =>
    obtain ⟨tail, htail⟩ := Option.ne_none_iff_exists'.mp hpoll
    have hexec : s.exec .pollNext = s.pollLoop tail := by rw [Nic.exec, htail]
    obtain ⟨hrx, hgoes⟩ := h.pollLoop_cons htail
    have hrest := ih hrx hgoes
    rw [length_cons, iterate_succ_apply, hexec]
    refine ⟨hrest.1, hrest.2.trans ?_⟩
    rw [hrx.filled, h.filled, append_assoc, singleton_append]

theorem initialized_exec (hinit : s.initialized = true) (op : NicOp) :
    (s.exec op).initialized = true := by
  cases op with
  | send data => simp only [exec, send]; split_ifs <;> exact hinit
  | poll => simp only [exec]; split <;> exact hinit
  | pollNext =>
    simp only [exec]
    split
    · simp only [pollLoop]; split <;> exact hinit
    · exact hinit
  | transmit => simp only [exec, transmit]; split <;> exact hinit
  | fill f => simp only [exec, fill]; split <;> exact hinit

end Nic

/-- Over every run after `e1000_init`: the accepted frames that are not transmitted are
those in TDH..TDT-1 exactly when they do not fill the ring. The received frames are those
that went to the callback and those in the filled descriptors, in order. Each turn of a poll
passes on the oldest of these and ends the poll only when there is none, and a poll that runs
alone passes on all of them. -/
theorem nic_rings_exact (txBufs rxBufs : Nat → List UInt8) {ops : List NicOp} {s : Nic}
    (hrun : Run NicStep (Nic.init txBufs rxBufs) ops s) :
    (s.accepted = s.transmitted ++ s.txWindow ↔
        s.accepted.length < s.transmitted.length + numDesc) ∧
      s.passed ++ rxFrames s.rxWindow = rxFrames s.filled ∧
      (s.pollTail ≠ none →
        (s.exec .pollNext).passed = s.passed ++ rxFrames (s.rxWindow.take 1) ∧
          (s.exec .pollNext).rxWindow = s.rxWindow.drop 1 ∧
          ((s.exec .pollNext).pollTail = none ↔ s.rxWindow = [])) ∧
      (s.pollTail = none →
        let ended := (fun s => s.exec .pollNext)^[s.rxWindow.length + 1] (s.exec .poll)
        ended.pollTail = none ∧ ended.passed = rxFrames s.filled) := by
  have hok : s.Ok ∧ s.initialized = true := by
    apply hrun.invariant (I := fun s => s.Ok ∧ s.initialized = true) _ ⟨.init txBufs rxBufs, rfl⟩
    rintro s op s' hs rfl
    exact ⟨hs.1.exec op, s.initialized_exec hs.2 op⟩
  obtain ⟨⟨⟨out, htx⟩, handled, waiting, hrx⟩, hinit⟩ := hok
  refine ⟨htx.window_iff, hrx.received, hrx.turn, fun hidle => ?_⟩
  have hstart : s.exec .poll = {s with pollTail := some s.rxTail} := by
    rw [Nic.exec, if_pos ⟨hinit, hidle⟩]
  rw [hrx.window_eq, hstart]
  refine Nic.RxQueue.poll (s := {s with pollTail := some s.rxTail})
    (hrx.congr ⟨rfl, rfl⟩ ⟨rfl, rfl⟩ ⟨rfl, rfl⟩ ?_) (Option.some_ne_none _)
  rw [hidle, Option.getD_some, Option.getD_none]

def someTraffic : List NicOp :=
  [.send [1], .fill ⟨[7], true, 0⟩, .transmit, .poll, .pollNext, .send [2], .pollNext,
    .fill ⟨[8], true, 0⟩]

theorem nic_rings_exact_traffic :
    let s := someTraffic.foldl Nic.exec (Nic.init (fun _ => []) fun _ => [])
    s.accepted = [[1], [2]] ∧ s.accepted = s.transmitted ++ s.txWindow ∧
      s.passed ++ rxFrames s.rxWindow = [[7], [8]] ∧
      ((fun s => s.exec .pollNext)^[s.rxWindow.length + 1] (s.exec .poll)).passed = [[7], [8]] := by
  intro s
  have hrun : Run NicStep (Nic.init (fun _ => []) fun _ => []) someTraffic s :=
    Run.foldl (by intro _ _ _; rfl) _
  have h := nic_rings_exact _ _ hrun
  exact ⟨by decide, h.1.mpr (by decide), h.2.1.trans (by decide),
    (h.2.2.2 (by decide)).2.trans (by decide)⟩

/-- Sixteen frames with no step of the device: each is accepted, TDT is TDH again, and the
device has nothing to send. -/
theorem nic_ring_full_lost :
    let s := (replicate 16 (NicOp.send [1])).foldl Nic.exec (Nic.init (fun _ => []) fun _ => [])
    Run NicStep (Nic.init (fun _ => []) fun _ => []) (replicate 16 (NicOp.send [1])) s ∧
      s.accepted.length = 16 ∧ s.transmitted = [] ∧ s.tdh = s.tdt ∧ s.txWindow = [] :=
  ⟨Run.foldl (by intro _ _ _; rfl) _, by decide, by decide, by decide, by decide⟩

end Kyuzen.Drivers
