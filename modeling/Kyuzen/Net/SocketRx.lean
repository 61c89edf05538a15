import Kyuzen.Net.Socket

/-!
The bytes that come in on one socket: `cb_recv` queues what lwIP delivers,
`ksock_recv` takes it off the queue and acknowledges it.
-/

namespace Kyuzen.Net

open List

namespace Sock

theorem rxConsume_append (q : List (List UInt8)) (max : Nat) :
    (rxConsume q max).1 ++ (rxConsume q max).2.flatten = q.flatten := by
  fun_induction rxConsume q max with
  | case1 => rfl
  | case2 => rfl
  | case3 p q max hle out rest heq ih =>
    rw [heq] at ih
    rw [append_assoc, ih, flatten_cons]
  | case4 p q max hle =>
    rw [flatten_cons, ← append_assoc, take_append_drop, flatten_cons]

theorem rxConsume_length (q : List (List UInt8)) (max : Nat) :
    (rxConsume q max).1.length = min max q.flatten.length := by
  fun_induction rxConsume q max with
  | case1 => simp
  | case2 => simp
  | case3 p q max hle out rest heq ih =>
    rw [heq] at ih
    rw [length_append, ih, flatten_cons, length_append]
    omega
  | case4 p q max hle =>
    rw [length_take, flatten_cons, length_append]
    omega

end Sock

/-- The arguments of the calls of `tcp_recved` for `n` bytes, at most 60000 in each. -/
def ackSteps : Nat → Nat → List Nat
  | 0, _ => []
  | fuel + 1, n => if n = 0 then [] else min n 60000 :: ackSteps fuel (n - min n 60000)

theorem ackSteps_sum {fuel n : Nat} (h : n ≤ fuel) : (ackSteps fuel n).sum = n := by
  induction fuel generalizing n with
  | zero => rw [ackSteps, sum_nil, Nat.le_zero.mp h]
  | succ fuel ih =>
    rw [ackSteps]
    split
    next hn => rw [sum_nil, hn]
    · rw [List.sum_cons, ih (by omega)]
      omega

/-- A socket with what lwIP delivered to it, what `ksock_recv` returned and what
`tcp_recved` was called with. -/
structure Rx where
  sock : Sock
  delivered : List UInt8
  returned : List UInt8
  acks : List Nat

inductive RxOp where
  /-- `cb_recv` with a chain of pbufs, or none for a FIN, and `err == ERR_OK`. -/
  | deliver (p : Option (List (List UInt8))) (ok : Bool)
  | connected (ok : Bool)
  | err
  /-- A pass of `ksock_recv`. -/
  | recv (len : Nat)
  deriving Repr

namespace Rx

/-- A socket of `ksock_socket` whose connection is under way. -/
def init (gen pid : Int) (cookie pcb : Nat) : Rx :=
  ⟨⟨.connecting, gen, pid, cookie, some pcb, [], 0, false, -1⟩, [], [], []⟩

/-- `cb_recv`: lwIP calls it while the socket has its pcb. -/
def deliver (s : Rx) (p : Option (List (List UInt8))) (ok : Bool) : Rx :=
  if s.sock.pcb = none then s
  else
    let s := {s with delivered := s.delivered ++ (p.getD []).flatten}
    if ok = false then s
    else
      match p with
      | none => {s with sock := {s.sock with peerClosed := true}}
      | some chain => {s with sock := s.sock.enqueue chain}

/-- A pass of `ksock_recv` and its calls of `tcp_recved`. -/
def recv (s : Rx) (len : Nat) : Rx :=
  match s.sock.recvPass len with
  | (sock, .bytes out) =>
    {s with
      sock := sock
      returned := s.returned ++ out
      acks := if sock.pcb ≠ none ∧ 0 < out.length then s.acks ++ ackSteps out.length out.length
        else s.acks}
  | (sock, _) => {s with sock := sock}

def exec (s : Rx) : RxOp → Rx
  | .deliver p ok => s.deliver p ok
  | .connected ok =>
    if s.sock.pcb = none then s
    else {s with sock := {s.sock with state := if ok then .connected else .err}}
  | .err => if s.sock.pcb = none then s else {s with sock := {s.sock with state := .err, pcb := none}}
  | .recv len => s.recv len

end Rx

/-- The steps of a socket of its own are what those of the table do to its slot: the gate
of the callbacks lets them through. -/
theorem Socks.Inv.exec_rx {s : Socks} (hs : s.Inv) {i : Slot} {a : Nat}
    (hpcb : (s.socks i).pcb = some a) {r : Rx} (hr : r.sock = s.socks i) :
    (∀ p ok, (s.exec (.cbRecv a p ok)).socks i = (r.exec (.deliver p ok)).sock) ∧
      (∀ ok, (s.exec (.cbConnected a ok)).socks i = (r.exec (.connected ok)).sock) ∧
      (s.exec (.cbErr a)).socks i = (r.exec .err).sock ∧
      ∀ h pid cookie len, s.resolve h pid cookie = some i →
        (s.exec (.recv h pid cookie len)).socks i = (r.exec (.recv len)).sock := by
  have hgate := hs.cbSlot_arg hpcb
  refine ⟨fun p ok => ?_, fun ok => ?_, ?_, fun h pid cookie len hres => ?_⟩
  · cases ok <;> cases p <;>
      simp [Socks.exec, Socks.cbRecv, Rx.exec, Rx.deliver, hgate, hpcb, hr, Socks.socks_setSock]
  · simp [Socks.exec, Socks.cbConnected, Rx.exec, hgate, hpcb, hr, Socks.socks_setSock]
  · simp [Socks.exec, Socks.cbErr, Rx.exec, hgate, hpcb, hr, Socks.socks_setSock]
  · simp only [Socks.exec, Socks.ksockRecv, hres, Socks.socks_setSock, Rx.exec, Rx.recv, hr]
    split <;> simp_all

def RxStep (s : Rx) (op : RxOp) (s' : Rx) : Prop := s' = s.exec op

/-- What the code can queue: a single pbuf, without an error, that fits the limit. And lwIP
reports an error of the connection when nothing is queued. -/
def RxOp.Queued (s : Rx) : RxOp → Prop
  | .deliver (some chain) ok =>
    ok = true ∧ chain.length = 1 ∧ s.sock.rxBytes + chain.flatten.length ≤ ksockRxLimit
  | .err => s.sock.rx.flatten = []
  | _ => True

def QueuedStep (s : Rx) (op : RxOp) (s' : Rx) : Prop := s' = s.exec op ∧ op.Queued s

namespace Rx

variable {s : Rx}

structure Lossless (s : Rx) : Prop where
  stream : s.returned ++ s.sock.rx.flatten = s.delivered
  rxBytes : s.sock.rxBytes = s.sock.rx.flatten.length
  limit : s.sock.rxBytes ≤ ksockRxLimit
  acks : s.acks.sum = s.returned.length
  gone : s.sock.pcb = none → s.sock.rx.flatten = []

theorem Lossless.init (gen pid : Int) (cookie pcb : Nat) : Lossless (init gen pid cookie pcb) where
  stream := rfl
  rxBytes := rfl
  limit := Nat.zero_le _
  acks := rfl
  gone h := nomatch h

section
variable (hs : s.Lossless)
include hs

theorem Lossless.deliver {p : Option (List (List UInt8))} {ok : Bool}
    (hq : RxOp.Queued s (.deliver p ok)) : (s.deliver p ok).Lossless := by
  unfold Rx.deliver
  split
  · exact hs
  next hpcb =>
    cases p with
    | none =>
      have hstream : s.returned ++ s.sock.rx.flatten = s.delivered ++ ([] : List UInt8) := by
        rw [append_nil]
        exact hs.stream
      split
      · exact {hs with stream := hstream}
      · exact {hs with stream := hstream}
    | some chain =>
      obtain ⟨rfl, hone, hfits⟩ := hq
      obtain ⟨x, rfl⟩ := length_eq_one_iff.mp hone
      have hflat : [x].flatten = x := flatten_singleton
      have hok : ¬ true = false := fun h => Bool.false_ne_true h.symm
      rw [hflat] at hfits
      have hqueue : (s.sock.rx ++ [x]).flatten = s.sock.rx.flatten ++ x := by
        rw [flatten_append, hflat]
      simp only [Option.getD_some, hflat, Sock.enqueue, if_pos hfits, if_neg hok,
        take_succ_cons, take_zero]
      refine ⟨?_, ?_, hfits, hs.acks, fun h => absurd h hpcb⟩
      · rw [hqueue, ← append_assoc, hs.stream]
      · rw [hqueue, length_append, hs.rxBytes]

theorem Lossless.recv (len : Nat) : (s.recv len).Lossless := by
  unfold Rx.recv Sock.recvPass
  split
  next sock out heq =>
    split at heq
    · exact nomatch heq
    split at heq
    · obtain ⟨rfl, hout⟩ := Prod.mk.inj heq
      obtain rfl := RecvPass.bytes.inj hout
      have happend := Sock.rxConsume_append s.sock.rx len
      have hlength := congrArg List.length happend
      rw [length_append] at hlength
      constructor
      case stream =>
        rw [append_assoc, happend]
        exact hs.stream
      case rxBytes =>
        dsimp only
        rw [hs.rxBytes]
        omega
      case limit => exact Nat.le_trans (Nat.sub_le _ _) hs.limit
      case acks =>
        split
        · rw [List.sum_append, ackSteps_sum le_rfl, length_append, hs.acks]
        next hnone =>
          -- without a pcb there was nothing to take
          have hempty : (Sock.rxConsume s.sock.rx len).1.length = 0 := by
            by_contra hne
            have hpcb : s.sock.pcb = none := by
              by_contra hpcb
              exact hnone ⟨hpcb, Nat.pos_of_ne_zero hne⟩
            have := hs.gone hpcb
            rw [this, length_nil] at hlength
            omega
          rw [length_append, hempty]
          exact hs.acks
      case gone =>
        intro hpcb
        have hnil := hs.gone hpcb
        rw [hnil] at happend
        exact (append_eq_nil_iff.mp happend).2
    split at heq <;> exact nomatch heq
  next sock pass hnot heq =>
    split at heq
    · cases heq
      exact hs
    split at heq
    · exact absurd (Prod.mk.inj heq).2.symm (hnot _)
    split at heq
    · cases heq
      exact hs
    · cases heq
      exact hs

theorem Lossless.exec {op : RxOp} (hq : op.Queued s) : (s.exec op).Lossless := by
  cases op with
  | deliver p ok => exact hs.deliver hq
  | connected ok =>
    rw [Rx.exec]
    split
    · exact hs
    · exact {hs with}
  | err =>
    rw [Rx.exec]
    split
    · exact hs
    · exact {hs with gone := fun _ => hq}
  | recv len => exact hs.recv len

/-- A pass that returns 0 found the queue empty and the connection at its end. -/
theorem Lossless.drained {len : Nat} (hlen : 0 < len)
    (h : (s.sock.recvPass len).2.result = some 0) :
    (s.sock.peerClosed = true ∨ s.sock.state = .err) ∧ s.sock.rx.flatten = [] := by
  unfold Sock.recvPass at h
  split at h
  · exact nomatch h
  split at h
  next hbytes =>
    have hlength := Sock.rxConsume_length s.sock.rx len
    have hzero : ((Sock.rxConsume s.sock.rx len).1.length : Int) = 0 := Option.some.inj h
    have := hs.rxBytes
    omega
  next hnone =>
    split at h
    next hclosed =>
      refine ⟨hclosed, eq_nil_of_length_eq_zero ?_⟩
      have := hs.rxBytes
      omega
    · exact nomatch h

end

end Rx

/-- In a run whose deliveries the code can queue, the bytes returned and the bytes queued are
those delivered, in order, `rx_bytes` counts the queue within the limit, `tcp_recved` is called
for the bytes returned, and a call returns 0 only at the end of the data. -/
theorem tcp_receive_lossless (gen pid : Int) (cookie pcb : Nat) {ops : List RxOp} {s : Rx}
    (hrun : Run QueuedStep (Rx.init gen pid cookie pcb) ops s) :
    s.returned ++ s.sock.rx.flatten = s.delivered ∧
      s.sock.rxBytes = (s.sock.rx.map List.length).sum ∧ s.sock.rxBytes ≤ ksockRxLimit ∧
      s.acks.sum = s.returned.length ∧
      ∀ len, 0 < len → (s.sock.recvPass len).2.result = some 0 →
        (s.sock.peerClosed = true ∨ s.sock.state = .err) ∧ s.sock.rx.flatten = [] := by
  have hs : s.Lossless := by
    apply hrun.invariant (I := Rx.Lossless) _ (.init gen pid cookie pcb)
    rintro s op s' hs ⟨rfl, hq⟩
    exact hs.exec hq
  refine ⟨hs.stream, ?_, hs.limit, hs.acks, fun len hlen => hs.drained hlen⟩
  rw [hs.rxBytes, length_flatten]

def readInPieces : List RxOp :=
  [.connected true, .deliver (some [[1, 2, 3]]) true, .recv 2, .deliver none true, .recv 9]

theorem tcp_receive_lossless_pieces : let s := readInPieces.foldl Rx.exec (Rx.init 1 0 0 0)
    s.returned = [1, 2, 3] ∧ s.acks.sum = 3 ∧ s.sock.rx.flatten = [] := by
  intro s
  have hrun : Run QueuedStep (Rx.init 1 0 0 0) readInPieces s :=
    .cons ⟨rfl, trivial⟩ (.cons ⟨rfl, rfl, rfl, by decide⟩ (.cons ⟨rfl, trivial⟩
      (.cons ⟨rfl, trivial⟩ (.cons ⟨rfl, trivial⟩ (.nil _)))))
  have h := tcp_receive_lossless 1 0 0 0 hrun
  exact ⟨by decide, h.2.2.2.1.trans (by decide), (h.2.2.2.2 1 (by decide) (by decide)).2⟩

/-- A chain of two pbufs: the second is lost, `rx_bytes` counts it for ever, and a call
returns 0 on a connection that is open. -/
theorem tcp_receive_chain_lost :
    let ops : List RxOp := [.connected true, .deliver (some [[1], [2]]) true, .recv 9]
    let s := ops.foldl Rx.exec (Rx.init 1 0 0 0)
    Run RxStep (Rx.init 1 0 0 0) ops s ∧ s.delivered = [1, 2] ∧ s.returned = [1] ∧
      s.sock.rx = [] ∧ s.sock.rxBytes = 1 ∧ (s.sock.recvPass 9).2.result = some 0 ∧
      s.sock.peerClosed = false ∧ s.sock.state = .connected :=
  ⟨.cons rfl (.cons rfl (.cons rfl (.nil _))), by decide, by decide, by decide, by decide,
    by decide, by decide, by decide⟩

end Kyuzen.Net
