import Kyuzen.Base.Run

/-!
The socket table of `net_socket.c`: handles with a generation, owners, the pcbs
that lwIP gives out, and lwIP's callbacks through the contexts that
`ksock_socket` registers. Each section of `net_lock` is one step.
-/

namespace Kyuzen.Net

open Function List Option Finset

/-- The codes of `net_socket.h`. -/
inductive Rc where
  | ok
  | err
  | ehandle
  | eowner
  | etimeout
  | econn
  | eclosed
  | enomem
  deriving DecidableEq, Repr

def Rc.code : Rc → Int
  | .ok => 0
  | .err => -1
  | .ehandle => -2
  | .eowner => -3
  | .etimeout => -4
  | .econn => -5
  | .eclosed => -6
  | .enomem => -7

inductive SockState where
  | free
  | alloc
  | connecting
  | connected
  | closed
  | err
  deriving DecidableEq, Repr

def ksockRxLimit : Nat := 32 * 1024

/-- A slot of `KSOCK_MAX`. -/
abbrev Slot := Fin 8

/-- `ksock_t`: the payloads of the queued pbufs stand for the list at `rx_head`. -/
structure Sock where
  state : SockState
  gen : Int
  ownerPid : Int
  ownerCookie : Nat
  pcb : Option Nat
  rx : List (List UInt8)
  rxBytes : Nat
  peerClosed : Bool
  waiterTid : Int

structure Ctx where
  gen : Int
  pcb : Option Nat

/-- The value of a C `int`. -/
def int32 (x : Int) : Int := x.bmod (2 ^ 32)

/-- `gen++; if (gen <= 0) gen = 1` -/
def bump (gen : Int) : Int := if int32 (gen + 1) ≤ 0 then 1 else int32 (gen + 1)

/-- `(gen << KSOCK_HANDLE_SHIFT) | slot` -/
def mkHandle (gen : Int) (slot : Slot) : Int := int32 (gen * 8) + slot.val

/-- `h & (KSOCK_MAX - 1)` -/
def handleSlot (h : Int) : Slot :=
  ⟨(h % 8).toNat, by omega⟩

/-- `h >> KSOCK_HANDLE_SHIFT` -/
def handleGen (h : Int) : Int := h / 8

namespace Sock

/-- The head of `rx_consume` for one pbuf and on: what is copied, and what stays queued. -/
def rxConsume : List (List UInt8) → Nat → List UInt8 × List (List UInt8)
  | [], _ => ([], [])
  | p :: q, 0 => ([], p :: q)
  | p :: q, max + 1 =>
    if p.length ≤ max + 1 then
      let (out, rest) := rxConsume q (max + 1 - p.length)
      (p ++ out, rest)
    else (p.take (max + 1), p.drop (max + 1) :: q)

/-- `cb_recv` from its test of the limit on, for the payloads of a chain of pbufs:
`p->next = NULL` leaves the first of them, `tot_len` is that of all. -/
def enqueue (s : Sock) (chain : List (List UInt8)) : Sock :=
  if s.rxBytes + chain.flatten.length ≤ ksockRxLimit then
    {s with rx := s.rx ++ chain.take 1, rxBytes := s.rxBytes + chain.flatten.length}
  else s

end Sock

/-- What a pass of the loop of `ksock_recv` comes to. -/
inductive RecvPass where
  | error (rc : Rc)
  | bytes (out : List UInt8)
  | drained
  | wait
  deriving DecidableEq, Repr

/-- What `ksock_recv` returns behind the pass, if it returns. -/
def RecvPass.result : RecvPass → Option Int
  | .error rc => some rc.code
  | .bytes out => some out.length
  | .drained => some 0
  | .wait => none

namespace Sock

/-- A pass of the loop of `ksock_recv`, for a socket that `resolve` found. -/
def recvPass (s : Sock) (len : Nat) : Sock × RecvPass :=
  if s.state ≠ .connected ∧ s.state ≠ .closed ∧ s.state ≠ .err then (s, .error .ehandle)
  else if 0 < s.rxBytes then
    let (out, rest) := rxConsume s.rx len
    ({s with rx := rest, rxBytes := s.rxBytes - out.length}, .bytes out)
  else if s.peerClosed = true ∨ s.state = .err then (s, .drained)
  else (s, .wait)

/-- `close_locked`, behind the release of the pcb. -/
def close (s : Sock) : Sock where
  state := .free
  gen := bump s.gen
  ownerPid := -1
  ownerCookie := 0
  pcb := none
  rx := []
  rxBytes := 0
  peerClosed := false
  waiterTid := -1

end Sock

/-- The table, the contexts, and lwIP's side: the argument registered for a pcb, how often
an address was obtained by `tcp_new` and given back by a close, an abort or a report of
`cb_err`. `allocs` counts the allocations of a slot, `issued` is the handle of its last one,
`closed` are the handles of the sockets that were closed. -/
structure Socks where
  socks : Slot → Sock
  ctxs : Slot → Nat → Ctx
  arg : Nat → Option (Slot × Nat)
  obtained : Nat → Nat
  released : Nat → Nat
  allocs : Slot → Nat
  issued : Slot → Int
  closed : List Int

namespace Socks

/-- `ksock_init` -/
def init : Socks where
  socks := fun _ => ⟨.free, 0, -1, 0, none, [], 0, false, -1⟩
  ctxs := fun _ _ => ⟨0, none⟩
  arg := fun _ => none
  obtained := fun _ => 0
  released := fun _ => 0
  allocs := fun _ => 0
  issued := fun _ => 0
  closed := []

def setSock (s : Socks) (i : Slot) (x : Sock) : Socks := {s with socks := update s.socks i x}

def resolve (s : Socks) (h pid : Int) (cookie : Nat) : Option Slot :=
  if h ≤ 0 ∨ pid < 0 then none
  else
    let x := s.socks (handleSlot h)
    if x.state = .free then none
    else if x.gen ≠ handleGen h ∨ x.gen ≤ 0 then none
    else if x.ownerPid ≠ pid ∨ x.ownerCookie ≠ cookie then none
    else some (handleSlot h)

def handleError (s : Socks) (h pid : Int) (cookie : Nat) : Rc :=
  if h ≤ 0 ∨ pid < 0 then .ehandle
  else
    let x := s.socks (handleSlot h)
    if x.state = .free ∨ x.gen ≠ handleGen h ∨ x.gen ≤ 0 then .ehandle
    else if x.ownerPid ≠ pid ∨ x.ownerCookie ≠ cookie then .eowner
    else .ehandle

def freeSlot (s : Socks) : Option Slot :=
  (finRange 8).find? fun i => decide ((s.socks i).state = .free)

/-- `ksock_socket`, where `tcp_new` returned `pcb`. -/
def ksockSocket (s : Socks) (pid : Int) (cookie : Nat) (pcb : Option Nat) : Socks × Int :=
  if pid < 0 then (s, Rc.eowner.code)
  else
    match s.freeSlot, pcb with
    | some i, some a =>
      let gen := bump (s.socks i).gen
      let k := (gen % 4).toNat
      ({s.setSock i ⟨.alloc, gen, pid, cookie, some a, [], 0, false, -1⟩ with
        ctxs := update s.ctxs i (update (s.ctxs i) k ⟨gen, some a⟩)
        arg := update s.arg a (some (i, k))
        obtained := update s.obtained a (s.obtained a + 1)
        allocs := update s.allocs i (s.allocs i + 1)
        issued := update s.issued i (mkHandle gen i)}, mkHandle gen i)
    | _, _ => (s, Rc.enomem.code)

/-- Detach the callbacks of the pcb of a socket and close or abort it. -/
def releasePcb (s : Socks) (i : Slot) : Socks :=
  match (s.socks i).pcb with
  | some a =>
    {s.setSock i {s.socks i with pcb := none} with
      arg := update s.arg a none
      released := update s.released a (s.released a + 1)}
  | none => s

def closeLocked (s : Socks) (i : Slot) : Socks :=
  let s' := s.releasePcb i
  {s'.setSock i (s'.socks i).close with closed := s.issued i :: s.closed}

/-- The first section of `ksock_connect`, where `tcp_connect` returned `ERR_OK` if `ok`. -/
def ksockConnect (s : Socks) (h pid : Int) (cookie : Nat) (ok : Bool) : Socks × Rc :=
  match s.resolve h pid cookie with
  | none => (s, s.handleError h pid cookie)
  | some i =>
    if (s.socks i).state ≠ .alloc ∨ (s.socks i).pcb = none then (s, .ehandle)
    else if ok then (s.setSock i {s.socks i with state := .connecting}, .ok)
    else (s.setSock i {s.socks i with state := .err}, .econn)

/-- The section of `ksock_connect` behind its deadline. -/
def connectTimeout (s : Socks) (h pid : Int) (cookie : Nat) : Socks :=
  match s.resolve h pid cookie with
  | none => s
  | some i =>
    if (s.socks i).state = .connecting then
      let s' := s.releasePcb i
      s'.setSock i {s'.socks i with state := .err}
    else s

def ksockClose (s : Socks) (h pid : Int) (cookie : Nat) : Socks × Rc :=
  match s.resolve h pid cookie with
  | none => (s, s.handleError h pid cookie)
  | some i => (s.closeLocked i, .ok)

/-- One turn of the loop of `net_process_cleanup`. -/
def cleanupSlot (pid : Int) (s : Socks) (i : Slot) : Socks :=
  if (s.socks i).state ≠ .free ∧ (s.socks i).ownerPid = pid then s.closeLocked i else s

def netProcessCleanup (s : Socks) (pid : Int) : Socks :=
  if pid < 0 then s else (finRange 8).foldl (cleanupSlot pid) s

/-- One turn of the loop of `net_task_reown`. -/
def reownSlot (pid : Int) (cookie : Nat) (s : Socks) (i : Slot) : Socks :=
  if (s.socks i).state ≠ .free ∧ (s.socks i).ownerPid = pid then
    s.setSock i {s.socks i with ownerCookie := cookie}
  else s

def netTaskReown (s : Socks) (pid : Int) (cookie : Nat) : Socks :=
  if pid < 0 then s else (finRange 8).foldl (reownSlot pid cookie) s

def cbSlot (s : Socks) : Option (Slot × Nat) → Option Slot
  | none => none
  | some (i, k) =>
    if (s.socks i).state = .free ∨ (s.socks i).gen ≤ 0 then none
    else if (s.ctxs i k).gen ≠ (s.socks i).gen then none
    else if (s.ctxs i k).pcb ≠ (s.socks i).pcb then none
    else some i

/-- `cb_recv` for a chain of pbufs, or for the end of the peer's data. -/
def cbRecv (s : Socks) (a : Nat) (p : Option (List (List UInt8))) (ok : Bool) : Socks :=
  if ok = false then s
  else
    match p, s.cbSlot (s.arg a) with
    | none, some i => s.setSock i {s.socks i with peerClosed := true}
    | some chain, some i =>
      if (s.socks i).pcb ≠ some a then s else s.setSock i ((s.socks i).enqueue chain)
    | _, none => s

def cbConnected (s : Socks) (a : Nat) (ok : Bool) : Socks :=
  match s.cbSlot (s.arg a) with
  | none => s
  | some i =>
    if (s.socks i).pcb ≠ some a then s
    else s.setSock i {s.socks i with state := if ok then .connected else .err}

/-- lwIP frees a pcb and calls `cb_err` with the argument it had. -/
def cbErr (s : Socks) (a : Nat) : Socks :=
  let s' := {s with
    arg := update s.arg a none
    released := update s.released a (s.released a + 1)}
  match s.cbSlot (s.arg a) with
  | none => s'
  | some i => s'.setSock i {s.socks i with state := .err, pcb := none}

/-- The two sections of `wait_quantum`. -/
def waitBegin (s : Socks) (i : Slot) (self : Int) : Socks :=
  if (s.socks i).state ≠ .free then s.setSock i {s.socks i with waiterTid := self} else s

def waitEnd (s : Socks) (i : Slot) (self : Int) : Socks :=
  if (s.socks i).waiterTid = self then s.setSock i {s.socks i with waiterTid := -1} else s

/-- The section of a pass of `ksock_recv`. -/
def ksockRecv (s : Socks) (h pid : Int) (cookie len : Nat) : Socks × RecvPass :=
  match s.resolve h pid cookie with
  | none => (s, .error (s.handleError h pid cookie))
  | some i =>
    let (x, pass) := (s.socks i).recvPass len
    (s.setSock i x, pass)

end Socks

inductive SockOp where
  | socket (pid : Int) (cookie : Nat) (pcb : Option Nat)
  | connect (h pid : Int) (cookie : Nat) (ok : Bool)
  | connectTimeout (h pid : Int) (cookie : Nat)
  | close (h pid : Int) (cookie : Nat)
  | cleanup (pid : Int)
  | reown (pid : Int) (cookie : Nat)
  | recv (h pid : Int) (cookie len : Nat)
  | waitBegin (i : Slot) (self : Int)
  | waitEnd (i : Slot) (self : Int)
  | cbRecv (a : Nat) (p : Option (List (List UInt8))) (ok : Bool)
  | cbConnected (a : Nat) (ok : Bool)
  | cbErr (a : Nat)
  deriving Repr

namespace Socks

def exec (s : Socks) : SockOp → Socks
  | .socket pid cookie pcb => (s.ksockSocket pid cookie pcb).1
  | .connect h pid cookie ok => (s.ksockConnect h pid cookie ok).1
  | .connectTimeout h pid cookie => s.connectTimeout h pid cookie
  | .close h pid cookie => (s.ksockClose h pid cookie).1
  | .cleanup pid => s.netProcessCleanup pid
  | .reown pid cookie => s.netTaskReown pid cookie
  | .recv h pid cookie len => (s.ksockRecv h pid cookie len).1
  | .waitBegin i self => s.waitBegin i self
  | .waitEnd i self => s.waitEnd i self
  | .cbRecv a p ok => s.cbRecv a p ok
  | .cbConnected a ok => s.cbConnected a ok
  | .cbErr a => s.cbErr a

end Socks

/-- What lwIP does: `tcp_new` returns a pcb that is not out, and only a pcb that has its
callbacks is reported freed. -/
def SockOp.Allowed (s : Socks) : SockOp → Prop
  | .socket _ _ (some a) => s.obtained a = s.released a
  | .cbErr a => s.arg a ≠ none
  | _ => True

def SockStep (s : Socks) (op : SockOp) (s' : Socks) : Prop := s' = s.exec op ∧ op.Allowed s

/-! ### Numbers -/

theorem int32_of_lt {x : Int} (h0 : 0 ≤ x) (hx : x < 2 ^ 31) : int32 x = x := by
  unfold int32
  apply Int.bmod_eq_of_le <;> omega

theorem bump_of_lt {gen : Int} (h0 : 0 ≤ gen) (hgen : gen + 1 < 2 ^ 31) : bump gen = gen + 1 := by
  rw [bump, int32_of_lt (by omega) hgen, if_neg (by omega)]

theorem mkHandle_of_lt {gen : Int} {slot : Slot} (h0 : 0 ≤ gen) (hgen : gen < 2 ^ 28) :
    mkHandle gen slot = 8 * gen + slot.val := by
  rw [mkHandle, int32_of_lt (by omega) (by omega), Int.mul_comm]

theorem handleSlot_eq (gen : Int) (slot : Slot) : handleSlot (8 * gen + slot.val) = slot := by
  apply Fin.ext
  have := slot.isLt
  simp only [handleSlot]
  omega

theorem handleGen_eq (gen : Int) (slot : Slot) : handleGen (8 * gen + slot.val) = gen := by
  have := slot.isLt
  unfold handleGen
  omega

theorem handle_eq (h : Int) : h = 8 * handleGen h + (handleSlot h).val := by
  simp only [handleGen, handleSlot]
  omega

namespace Socks

variable {a : Nat} {s s' : Socks} {i : Slot} {x : Sock}

theorem socks_setSock (s : Socks) (i : Slot) (x : Sock) : (s.setSock i x).socks i = x := by
  simp [setSock]

theorem socks_setSock_ne {j : Slot} (h : j ≠ i) : (s.setSock i x).socks j = s.socks j := by
  simp [setSock, update_of_ne h]

theorem of_resolve {h pid : Int} {cookie : Nat} (hres : s.resolve h pid cookie = some i) :
    0 ≤ pid ∧ (s.socks i).state ≠ .free ∧ h = 8 * (s.socks i).gen + i.val ∧
      (s.socks i).ownerPid = pid ∧ (s.socks i).ownerCookie = cookie := by
  revert hres
  fun_cases resolve s h pid cookie <;> rintro ⟨⟩
  next hpos x hused hgen howner =>
    rw [not_or, not_not, not_le] at hgen
    rw [not_or, not_not, not_not] at howner
    refine ⟨by omega, hused, ?_, howner.1, howner.2⟩
    rw [hgen.1]
    exact handle_eq h

/-- What holds of generations, owners and handles, as long as no generation wraps. -/
structure Gens (s : Socks) : Prop where
  gen_free : ∀ i, (s.socks i).state = .free → (s.socks i).gen = 2 * s.allocs i
  gen_used : ∀ i, (s.socks i).state ≠ .free → (s.socks i).gen + 1 = 2 * s.allocs i
  gen_pos : ∀ i, (s.socks i).state ≠ .free → 0 < (s.socks i).gen
  unowned : ∀ i, (s.socks i).state = .free → (s.socks i).ownerPid = -1
  owned : ∀ i, (s.socks i).state ≠ .free → 0 ≤ (s.socks i).ownerPid
  issued : ∀ i, (s.socks i).state ≠ .free → s.issued i = 8 * (s.socks i).gen + i.val
  stale : ∀ h ∈ s.closed, ∃ i g, h = 8 * g + (i : Slot).val ∧ g < (s.socks i).gen

/-- What holds of the pcbs: those of sockets are out and lead back to their socket, the
others are not. -/
structure Pcbs (s : Socks) : Prop where
  used : ∀ i a, (s.socks i).pcb = some a → (s.socks i).state ≠ .free
  arg : ∀ i a, (s.socks i).pcb = some a → s.arg a = some (i, ((s.socks i).gen % 4).toNat)
  ctx : ∀ i a, (s.socks i).pcb = some a →
    s.ctxs i ((s.socks i).gen % 4).toNat = ⟨(s.socks i).gen, some a⟩
  attached : ∀ a, s.arg a ≠ none → ∃ i, (s.socks i).pcb = some a
  out : ∀ i a, (s.socks i).pcb = some a → s.obtained a = s.released a + 1
  back : ∀ a, (∀ i, (s.socks i).pcb ≠ some a) → s.obtained a = s.released a

structure Inv (s : Socks) : Prop where
  gens : s.Gens
  pcbs : s.Pcbs

theorem Inv.init : Inv init where
  gens := {
    gen_free := fun _ _ => rfl
    gen_used := fun _ h => absurd rfl h
    gen_pos := fun _ h => absurd rfl h
    unowned := fun _ _ => rfl
    owned := fun _ h => absurd rfl h
    issued := fun _ h => absurd rfl h
    stale := fun _ h => absurd h not_mem_nil }
  pcbs := {
    used := nofun
    arg := nofun
    ctx := nofun
    attached := fun _ h => absurd rfl h
    out := nofun
    back := fun _ _ => rfl }

theorem Pcbs.inj (hs : s.Pcbs) {j : Slot} (hi : (s.socks i).pcb = some a)
    (hj : (s.socks j).pcb = some a) : i = j := by
  have h := (hs.arg i a hi).symm.trans (hs.arg j a hj)
  exact congrArg Prod.fst (some.inj h)

/-- The socket `x` differs from `y` only in what the generations do not speak of. -/
structure Alike (x y : Sock) : Prop where
  gen : x.gen = y.gen
  pid : x.ownerPid = y.ownerPid
  free : x.state = .free ↔ y.state = .free

theorem Alike.refl (x : Sock) : Alike x x := ⟨rfl, rfl, Iff.rfl⟩

theorem alike_setSock (hx : Alike x (s.socks i)) (j : Slot) :
    Alike ((s.setSock i x).socks j) (s.socks j) := by
  by_cases h : j = i
  · rw [h, socks_setSock]
    exact hx
  · rw [socks_setSock_ne h]
    exact .refl _

structure SlotGens (s : Socks) (i : Slot) : Prop where
  gen_free : (s.socks i).state = .free → (s.socks i).gen = 2 * s.allocs i
  gen_used : (s.socks i).state ≠ .free → (s.socks i).gen + 1 = 2 * s.allocs i
  gen_pos : (s.socks i).state ≠ .free → 0 < (s.socks i).gen
  unowned : (s.socks i).state = .free → (s.socks i).ownerPid = -1
  owned : (s.socks i).state ≠ .free → 0 ≤ (s.socks i).ownerPid
  issued : (s.socks i).state ≠ .free → s.issued i = 8 * (s.socks i).gen + i.val

theorem Gens.slot (hs : s.Gens) (i : Slot) : s.SlotGens i :=
  ⟨hs.gen_free i, hs.gen_used i, hs.gen_pos i, hs.unowned i, hs.owned i, hs.issued i⟩

theorem SlotGens.congr {j : Slot} (h : s.SlotGens j) (hsock : Alike (s'.socks j) (s.socks j))
    (hallocs : s'.allocs j = s.allocs j) (hissued : s'.issued j = s.issued j) : s'.SlotGens j := by
  obtain ⟨hfree, hused, hpos, hunowned, howned, hiss⟩ := h
  constructor
  all_goals simpa only [ne_eq, hsock.free, hsock.gen, hsock.pid, hallocs, hissued]

theorem Gens.of_slots (hs : s.Gens) (hslots : ∀ j, s'.SlotGens j)
    (hgrow : ∀ j, (s.socks j).gen ≤ (s'.socks j).gen)
    (hclosed : ∀ h ∈ s'.closed,
      h ∈ s.closed ∨ ∃ (i : Slot) (g : Int), h = 8 * g + i.val ∧ g < (s'.socks i).gen) :
    s'.Gens := by
  refine ⟨fun j => (hslots j).gen_free, fun j => (hslots j).gen_used, fun j => (hslots j).gen_pos,
    fun j => (hslots j).unowned, fun j => (hslots j).owned, fun j => (hslots j).issued, ?_⟩
  intro h hh
  rcases hclosed h hh with hold | hnew
  · obtain ⟨j, g, hj, hg⟩ := hs.stale h hold
    exact ⟨j, g, hj, lt_of_lt_of_le hg (hgrow j)⟩
  · exact hnew

theorem Gens.congr (hs : s.Gens) (halike : ∀ j, Alike (s'.socks j) (s.socks j))
    (hallocs : s'.allocs = s.allocs) (hissued : s'.issued = s.issued)
    (hclosed : s'.closed = s.closed) : s'.Gens :=
  hs.of_slots (fun j => (hs.slot j).congr (halike j) (congrFun hallocs j) (congrFun hissued j))
    (fun j => (halike j).gen.ge) fun _ hh => .inl (hclosed ▸ hh)

/-- What holds of the pcb `a`. -/
structure PcbOf (s : Socks) (a : Nat) : Prop where
  held : ∀ i, (s.socks i).pcb = some a → (s.socks i).state ≠ .free ∧
    s.arg a = some (i, ((s.socks i).gen % 4).toNat) ∧
    s.ctxs i ((s.socks i).gen % 4).toNat = ⟨(s.socks i).gen, some a⟩ ∧
    s.obtained a = s.released a + 1
  attached : s.arg a ≠ none → ∃ i, (s.socks i).pcb = some a
  back : (∀ i, (s.socks i).pcb ≠ some a) → s.obtained a = s.released a

theorem Pcbs.pcbOf (hs : s.Pcbs) (a : Nat) : s.PcbOf a :=
  ⟨fun i hi => ⟨hs.used i a hi, hs.arg i a hi, hs.ctx i a hi, hs.out i a hi⟩, hs.attached a, hs.back a⟩

theorem Pcbs.of_pcbOf (h : ∀ a, s.PcbOf a) : s.Pcbs :=
  ⟨fun i a hi => ((h a).held i hi).1, fun i a hi => ((h a).held i hi).2.1,
    fun i a hi => ((h a).held i hi).2.2.1, fun a => (h a).attached,
    fun i a hi => ((h a).held i hi).2.2.2, fun a => (h a).back⟩

theorem PcbOf.congr (h : s.PcbOf a)
    (hpcb : ∀ j, (s'.socks j).pcb = some a ↔ (s.socks j).pcb = some a)
    (hsock : ∀ j, (s.socks j).pcb = some a →
      (s'.socks j).state ≠ .free ∧ (s'.socks j).gen = (s.socks j).gen ∧ s'.ctxs j = s.ctxs j)
    (harg : s'.arg a = s.arg a) (hobtained : s'.obtained a = s.obtained a)
    (hreleased : s'.released a = s.released a) : s'.PcbOf a := by
  refine ⟨fun j hj => ?_, fun ha => ?_, fun ha => ?_⟩
  · have hj := (hpcb j).mp hj
    obtain ⟨hused, hgen, hctxs⟩ := hsock j hj
    rw [hgen, hctxs, harg, hobtained, hreleased]
    exact ⟨hused, (h.held j hj).2⟩
  · obtain ⟨j, hj⟩ := h.attached (harg ▸ ha)
    exact ⟨j, (hpcb j).mpr hj⟩
  · rw [hobtained, hreleased]
    exact h.back fun j hj => ha j ((hpcb j).mpr hj)

theorem Pcbs.congr (hs : s.Pcbs)
    (hpcb : ∀ j a, (s'.socks j).pcb = some a ↔ (s.socks j).pcb = some a)
    (hsock : ∀ j a, (s.socks j).pcb = some a →
      (s'.socks j).state ≠ .free ∧ (s'.socks j).gen = (s.socks j).gen)
    (harg : s'.arg = s.arg) (hctxs : s'.ctxs = s.ctxs) (hobtained : s'.obtained = s.obtained)
    (hreleased : s'.released = s.released) : s'.Pcbs :=
  .of_pcbOf fun a => (hs.pcbOf a).congr (fun j => hpcb j a)
    (fun j hj => ⟨(hsock j a hj).1, (hsock j a hj).2, congrFun hctxs j⟩) (congrFun harg a)
    (congrFun hobtained a) (congrFun hreleased a)

theorem Inv.setSock (hs : s.Inv) (hx : Alike x (s.socks i)) (hpcb : x.pcb = (s.socks i).pcb) :
    (s.setSock i x).Inv := by
  have alike := alike_setSock hx
  have pcb : ∀ j, ((s.setSock i x).socks j).pcb = (s.socks j).pcb := by
    intro j
    by_cases h : j = i
    · rw [h, socks_setSock, hpcb]
    · rw [socks_setSock_ne h]
  refine ⟨hs.gens.congr alike rfl rfl rfl, hs.pcbs.congr (fun j a => by rw [pcb]) ?_ rfl rfl rfl rfl⟩
  intro j a hj
  exact ⟨mt (alike j).free.mp (hs.pcbs.used j a hj), (alike j).gen⟩

def detached (s : Socks) (i : Slot) (a : Nat) (x : Sock) : Socks :=
  {s.setSock i x with
    arg := update s.arg a none
    released := update s.released a (s.released a + 1)}

theorem Inv.detached (hs : s.Inv) (hi : (s.socks i).pcb = some a) (hx : Alike x (s.socks i))
    (hpcb : x.pcb = none) : (s.detached i a x).Inv := by
  have alike : ∀ j, Alike ((s.detached i a x).socks j) (s.socks j) := alike_setSock hx
  have self : (s.detached i a x).socks i = x := socks_setSock s i x
  have other : ∀ j ≠ i, (s.detached i a x).socks j = s.socks j := fun j h => socks_setSock_ne h
  refine ⟨hs.gens.congr alike rfl rfl rfl, .of_pcbOf fun b => ?_⟩
  by_cases hba : b = a
  · subst hba
    have hnobody : ∀ j, ((s.detached i b x).socks j).pcb ≠ some b := by
      intro j hj
      by_cases h : j = i
      · rw [h, self, hpcb] at hj
        cases hj
      · rw [other j h] at hj
        exact h (hs.pcbs.inj hj hi)
    refine ⟨fun j hj => absurd hj (hnobody j), fun harg => absurd (update_self ..) harg, fun _ => ?_⟩
    rw [show (s.detached i b x).released b = s.released b + 1 from update_self ..]
    exact hs.pcbs.out i b hi
  · refine (hs.pcbs.pcbOf b).congr (fun j => ?_) (fun j hj => ?_) (update_of_ne hba ..) rfl
      (update_of_ne hba ..)
    · by_cases h : j = i
      · rw [h, self, hpcb, hi]
        exact iff_of_false (fun h => by cases h) fun heq => hba (some.inj heq).symm
      · rw [other j h]
    · exact ⟨mt (alike j).free.mp (hs.pcbs.used j b hj), (alike j).gen, rfl⟩

def Bounded (s : Socks) : Prop := ∀ i, s.allocs i < 2 ^ 27

theorem Gens.gen_lt (hs : s.Gens) (hb : s.Bounded) (i : Slot) :
    0 ≤ (s.socks i).gen ∧ (s.socks i).gen < 2 ^ 28 - 1 := by
  have hlt := hb i
  by_cases h : (s.socks i).state = .free
  · have := hs.gen_free i h
    omega
  · have := hs.gen_used i h
    have := hs.gen_pos i h
    omega

theorem alike_state {st : SockState} (hx : x.state ≠ .free) (hst : st ≠ .free) :
    Alike {x with state := st} x :=
  ⟨rfl, rfl, ⟨fun h => absurd h hst, fun h => absurd h hx⟩⟩

theorem Inv.releasePcb (hs : s.Inv) (i : Slot) :
    (s.releasePcb i).Inv ∧ (s.releasePcb i).socks i = {s.socks i with pcb := none} ∧
      (∀ j ≠ i, (s.releasePcb i).socks j = s.socks j) ∧
      (s.releasePcb i).issued = s.issued ∧ (s.releasePcb i).closed = s.closed ∧
      (s.releasePcb i).allocs = s.allocs := by
  unfold Socks.releasePcb
  split
  next a ha =>
    refine ⟨hs.detached ha ⟨rfl, rfl, Iff.rfl⟩ rfl, socks_setSock s i _, ?_, rfl, rfl, rfl⟩
    exact fun j hj => socks_setSock_ne hj
  next hnone => exact ⟨hs, by rw [← hnone], fun _ _ => rfl, rfl, rfl, rfl⟩

/-- A step of slot `i` that does not lower its generation; a handle that it closes is below
the new one. -/
theorem Gens.setSlot (hs : s.Gens)
    (hother : ∀ j ≠ i, s'.socks j = s.socks j ∧ s'.allocs j = s.allocs j ∧ s'.issued j = s.issued j)
    (hslot : s'.SlotGens i) (hgrow : (s.socks i).gen ≤ (s'.socks i).gen)
    (hclosed : ∀ h ∈ s'.closed, h ∈ s.closed ∨ ∃ g, h = 8 * g + i.val ∧ g < (s'.socks i).gen) :
    s'.Gens := by
  refine hs.of_slots (fun j => ?_) (fun j => ?_) fun h hh => (hclosed h hh).imp_right fun hg => ⟨i, hg⟩
  · by_cases h : j = i
    · rw [h]
      exact hslot
    · obtain ⟨hsock, hallocs, hissued⟩ := hother j h
      exact (hs.slot j).congr (hsock ▸ .refl _) hallocs hissued
  · by_cases h : j = i
    · rw [h]
      exact hgrow
    · rw [(hother j h).1]

section
variable (hs : s.Inv) (hb : s.Bounded) (hused : (s.socks i).state ≠ .free)
include hs hb hused

open Socks

theorem Inv.closed (hpcb : (s.socks i).pcb = none) :
    Inv {s.setSock i (s.socks i).close with closed := s.issued i :: s.closed} := by
  have hgen := hs.gens.gen_lt hb i
  have hbump : (s.socks i).close.gen = (s.socks i).gen + 1 := bump_of_lt hgen.1 (by omega)
  have self : (s.setSock i (s.socks i).close).socks i = (s.socks i).close := socks_setSock s i _
  have other : ∀ j ≠ i, (s.setSock i (s.socks i).close).socks j = s.socks j := fun j h =>
    socks_setSock_ne h
  have hfree : ((s.setSock i (s.socks i).close).socks i).state = .free := by rw [self]; rfl
  have hgrow : ((s.setSock i (s.socks i).close).socks i).gen = (s.socks i).gen + 1 := by
    rw [self, hbump]
  refine ⟨hs.gens.setSlot (fun j h => ⟨other j h, rfl, rfl⟩) ?_ ?_ ?_, ?_⟩
  · refine ⟨fun _ => ?_, absurd hfree, absurd hfree,
      fun _ => congrArg Sock.ownerPid self, absurd hfree, absurd hfree⟩
    exact hgrow.trans (hs.gens.gen_used i hused)
  · exact hgrow.symm ▸ Int.le_add_one (Int.le_refl _)
  · intro h hh
    refine (mem_cons.mp hh).symm.imp_right fun hh => ?_
    refine ⟨(s.socks i).gen, hh.trans (hs.gens.issued i hused), ?_⟩
    exact hgrow.symm ▸ Int.lt_add_one_of_le (Int.le_refl _)
  · have pcb : ∀ j a, ((s.setSock i (s.socks i).close).socks j).pcb = some a ↔
        (s.socks j).pcb = some a := by
      intro j a
      by_cases h : j = i
      · rw [h, self, hpcb]
        rfl
      · rw [other j h]
    refine hs.pcbs.congr pcb (fun j a hj => ?_) rfl rfl rfl rfl
    have h : j ≠ i := by
      intro h
      rw [h, hpcb] at hj
      cases hj
    rw [show socks _ j = s.socks j from other j h]
    exact ⟨hs.pcbs.used j a hj, rfl⟩

theorem Inv.closeLocked : (s.closeLocked i).Inv := by
  obtain ⟨hinv, hself, -, hissued, hclosed, hallocs⟩ := hs.releasePcb i
  have hb' : (s.releasePcb i).Bounded := by
    unfold Bounded
    rw [hallocs]
    exact hb
  have hused' : ((s.releasePcb i).socks i).state ≠ .free := by
    rw [hself]
    exact hused
  have hpcb : ((s.releasePcb i).socks i).pcb = none := by rw [hself]
  have h := hinv.closed hb' hused' hpcb
  rw [hissued, hclosed] at h
  exact h

end

theorem allocs_closeLocked (s : Socks) (i : Slot) : (s.closeLocked i).allocs = s.allocs := by
  unfold closeLocked releasePcb
  split <;> rfl

theorem Pcbs.attach (hs : s.Pcbs) (hnone : ∀ b, (s.socks i).pcb ≠ some b)
    (hnew : s.obtained a = s.released a) (hother : ∀ j ≠ i, s'.socks j = s.socks j)
    (hused : (s'.socks i).state ≠ .free) (hpcb : (s'.socks i).pcb = some a)
    (harg : s'.arg = update s.arg a (some (i, ((s'.socks i).gen % 4).toNat)))
    (hctx : s'.ctxs i ((s'.socks i).gen % 4).toNat = ⟨(s'.socks i).gen, some a⟩)
    (hctxs : ∀ j ≠ i, s'.ctxs j = s.ctxs j)
    (hobtained : s'.obtained = update s.obtained a (s.obtained a + 1))
    (hreleased : s'.released = s.released) : s'.Pcbs := by
  refine .of_pcbOf fun b => ?_
  by_cases hba : b = a
  · subst hba
    refine ⟨fun j hj => ?_, fun _ => ⟨i, hpcb⟩, fun hno => absurd hpcb (hno i)⟩
    have hji : j = i := by
      -- the pcb was nobody's, since it was not out
      by_contra h
      rw [hother j h] at hj
      have := hs.out j b hj
      omega
    rw [hji, harg, hobtained, hreleased, update_self, update_self, hnew]
    exact ⟨hused, rfl, hctx, rfl⟩
  · have hne : ∀ j, (s'.socks j).pcb = some b ∨ (s.socks j).pcb = some b → j ≠ i := by
      rintro j hj rfl
      rcases hj with hj | hj
      · exact hba (some.inj (hj.symm.trans hpcb))
      · exact hnone b hj
    refine (hs.pcbOf b).congr (fun j => ⟨fun hj => ?_, fun hj => ?_⟩) (fun j hj => ?_)
      (by rw [harg, update_of_ne hba]) (by rw [hobtained, update_of_ne hba]) (by rw [hreleased])
    · exact hother j (hne j (.inl hj)) ▸ hj
    · exact (hother j (hne j (.inr hj))).symm ▸ hj
    · have hj' := hne j (.inr hj)
      rw [hother j hj', hctxs j hj']
      exact ⟨hs.used j b hj, rfl, rfl⟩

theorem Inv.allocated (hs : s.Inv) (hb : s.allocs i < 2 ^ 27 - 1)
    (hfree : (s.socks i).state = .free) {pid : Int} (hpid : 0 ≤ pid) {cookie : Nat}
    (hnew : s.obtained a = s.released a) {gen : Int} (hgen : gen = bump (s.socks i).gen) {k : Nat}
    (hk : k = (gen % 4).toNat) :
    Inv {s.setSock i ⟨.alloc, gen, pid, cookie, some a, [], 0, false, -1⟩ with
      ctxs := update s.ctxs i (update (s.ctxs i) k ⟨gen, some a⟩)
      arg := update s.arg a (some (i, k))
      obtained := update s.obtained a (s.obtained a + 1)
      allocs := update s.allocs i (s.allocs i + 1)
      issued := update s.issued i (mkHandle gen i)} := by
  have hgenOld := hs.gens.gen_free i hfree
  have hgen' : gen = (s.socks i).gen + 1 := hgen.trans (bump_of_lt (by omega) (by omega))
  have hhandle : mkHandle gen i = 8 * gen + i.val := mkHandle_of_lt (by omega) (by omega)
  generalize hx : (⟨.alloc, gen, pid, cookie, some a, [], 0, false, -1⟩ : Sock) = x
  have hxgen : x.gen = gen := by rw [← hx]
  have hxpcb : x.pcb = some a := by rw [← hx]
  have hxused : x.state ≠ .free := by
    rw [← hx]
    exact nofun
  have self : (s.setSock i x).socks i = x := socks_setSock s i _
  have other : ∀ j ≠ i, (s.setSock i x).socks j = s.socks j := fun j h => socks_setSock_ne h
  refine ⟨hs.gens.setSlot (fun j h => ⟨other j h, ?_, ?_⟩) ?_ ?_ fun _ hh => .inl hh, ?_⟩
  · exact update_of_ne h _ _
  · exact update_of_ne h _ _
  · have hallocs : update s.allocs i (s.allocs i + 1) i = s.allocs i + 1 :=
      update_self _ _ _
    have hissued : update s.issued i (mkHandle gen i) i = mkHandle gen i := update_self _ _ _
    constructor <;> rw [show socks _ i = x from self]
    case gen_free => exact fun h => absurd h hxused
    case gen_used =>
      intro _
      rw [hxgen, show allocs _ i = s.allocs i + 1 from hallocs]
      omega
    case gen_pos =>
      intro _
      rw [hxgen]
      omega
    case unowned => exact fun h => absurd h hxused
    case owned =>
      intro _
      rw [← hx]
      exact hpid
    case issued =>
      intro _
      rw [hxgen, show issued _ i = mkHandle gen i from hissued]
      exact hhandle
  · rw [show socks _ i = x from self, hxgen]
    omega
  · have hgen4 : ((x.gen % 4).toNat) = k := by rw [hxgen, hk]
    refine hs.pcbs.attach (fun b h => hs.pcbs.used i b h hfree) hnew other
      ?_ ?_ ?_ ?_ ?_ rfl rfl
    · rw [show socks _ i = x from self]
      exact hxused
    · rw [show socks _ i = x from self]
      exact hxpcb
    · rw [show socks _ i = x from self, hgen4]
    · rw [show socks _ i = x from self, hgen4, hxgen]
      simp
    · exact fun j h => update_of_ne h _ _

end Socks

/-! ### The calls and the callbacks -/

namespace Socks

variable {pid : Int} {j : Slot} {s : Socks} {i : Slot}

theorem free_of_freeSlot (h : s.freeSlot = some i) : (s.socks i).state = .free := by
  have hfound := find?_some h
  exact of_decide_eq_true hfound

theorem Inv.ksockSocket (hs : s.Inv) {cookie : Nat} {pcb : Option Nat}
    (hop : SockOp.Allowed s (.socket pid cookie pcb))
    (hb : (s.ksockSocket pid cookie pcb).1.Bounded) : (s.ksockSocket pid cookie pcb).1.Inv := by
  unfold Socks.ksockSocket at hb ⊢
  split
  · exact hs
  next hpid =>
    rw [if_neg hpid] at hb
    split
    next i a hslot =>
      simp only [hslot] at hb
      have hlt := hb i
      simp only [update_self] at hlt
      exact hs.allocated (by omega) (free_of_freeSlot hslot) (by omega) hop rfl rfl
    · exact hs

theorem used_of_cbSlot {c : Option (Slot × Nat)} (h : s.cbSlot c = some i) :
    (s.socks i).state ≠ .free := by
  revert h
  fun_cases cbSlot s c <;> rintro ⟨⟩
  next hused _ _ => exact fun hfree => hused (.inl hfree)

theorem Inv.cbSlot_arg (hs : s.Inv) {a : Nat} (hi : (s.socks i).pcb = some a) :
    s.cbSlot (s.arg a) = some i := by
  have hused := hs.pcbs.used i a hi
  have hpos := hs.gens.gen_pos i hused
  rw [hs.pcbs.arg i a hi, cbSlot, hs.pcbs.ctx i a hi, if_neg, if_neg, if_neg]
  · exact fun h => h hi.symm
  · exact fun h => h rfl
  · rintro (h | h)
    · exact hused h
    · omega

def OwnedBy (s : Socks) (pid : Int) (i : Slot) : Prop :=
  (s.socks i).state ≠ .free ∧ (s.socks i).ownerPid = pid

theorem state_closeLocked (s : Socks) (i : Slot) : ((s.closeLocked i).socks i).state = .free := by
  unfold closeLocked
  rw [show socks _ i = ((s.releasePcb i).socks i).close from socks_setSock _ i _]
  rfl

theorem socks_closeLocked_ne (h : j ≠ i) : (s.closeLocked i).socks j = s.socks j := by
  unfold closeLocked
  rw [show socks _ j = (s.releasePcb i).socks j from socks_setSock_ne h]
  unfold releasePcb
  split
  · exact socks_setSock_ne h
  · rfl

theorem ownedBy_ksockSocket {q : Int} {cookie : Nat} {pcb : Option Nat}
    (h : (s.ksockSocket pid cookie pcb).1.OwnedBy q j) : q = pid ∨ s.OwnedBy q j := by
  revert h
  fun_cases ksockSocket s pid cookie pcb
  case case2 i a _ _ _ =>
    rintro ⟨hused, howner⟩
    by_cases hij : j = i
    · subst hij
      simp only [setSock, update_self] at howner
      exact .inl howner.symm
    · simp only [setSock, update_of_ne hij] at hused howner
      exact .inr ⟨hused, howner⟩
  all_goals exact .inr

theorem ownedBy_closeLocked (h : (s.closeLocked i).OwnedBy pid j) : j ≠ i ∧ s.OwnedBy pid j := by
  by_cases hj : j = i
  · rw [hj] at h
    exact absurd (state_closeLocked s i) h.1
  · rw [OwnedBy, socks_closeLocked_ne hj] at h
    exact ⟨hj, h⟩

theorem ownedBy_cleanupSlot {q : Int} (h : (cleanupSlot pid s i).OwnedBy q j) :
    (q = pid → j ≠ i) ∧ s.OwnedBy q j := by
  unfold cleanupSlot at h
  split at h
  · exact ⟨fun _ => (ownedBy_closeLocked h).1, (ownedBy_closeLocked h).2⟩
  next hnot =>
    refine ⟨fun hq hj => ?_, h⟩
    rw [hq, hj] at h
    exact hnot h

/-- A write to the table. A socket is closed or reowned only where `ends` holds. -/
inductive Move (ends : Slot → Prop) (s : Socks) : Socks → Prop
  | set {i : Slot} {x : Sock} (hx : Alike x (s.socks i)) (hpcb : x.pcb = (s.socks i).pcb)
      (hcookie : x.ownerCookie = (s.socks i).ownerCookie ∨ ends i) : Move ends s (s.setSock i x)
  | detach {i : Slot} {a : Nat} {x : Sock}
      (hi : (s.socks i).pcb = some a ∨ s.arg a ≠ none ∧ s.cbSlot (s.arg a) = some i)
      (hx : Alike x (s.socks i)) (hpcb : x.pcb = none)
      (hcookie : x.ownerCookie = (s.socks i).ownerCookie) : Move ends s (s.detached i a x)
  | drop {a : Nat} (harg : s.arg a ≠ none) (hgate : s.cbSlot (s.arg a) = none) :
      Move ends s {s with
        arg := update s.arg a none
        released := update s.released a (s.released a + 1)}
  | close {i : Slot} (hused : (s.socks i).state ≠ .free) (hends : ends i) :
      Move ends s (s.closeLocked i)
  | alloc {i : Slot} {pid : Int} {cookie a : Nat} (hslot : s.freeSlot = some i) (hpid : 0 ≤ pid)
      (hnew : s.obtained a = s.released a) : Move ends s (s.ksockSocket pid cookie (some a)).1

def Moves (ends : Slot → Prop) : Socks → Socks → Prop := Relation.ReflTransGen (Move ends)

theorem Moves.foldl {ends : Slot → Prop} {f : Socks → Slot → Socks} {P : Socks → Prop}
    (hf : ∀ s j, P s → P (f s j) ∧ Moves ends s (f s j)) (l : List Slot) (hs : P s) :
    Moves ends s (l.foldl f s) := by
  induction l generalizing s with
  | nil => exact .refl
  | cons j l ih => exact (hf s j hs).2.trans (ih (hf s j hs).1)

theorem socks_releasePcb (s : Socks) (i : Slot) :
    (s.releasePcb i).socks i = {s.socks i with pcb := none} := by
  fun_cases releasePcb s i
  · exact socks_setSock s i _
  next hnone => rw [← hnone]

theorem moves_releasePcb (ends : Slot → Prop) (s : Socks) (i : Slot) :
    Moves ends s (s.releasePcb i) := by
  fun_cases releasePcb s i
  next ha _ => exact .single (.detach (.inl ha) ⟨rfl, rfl, Iff.rfl⟩ rfl rfl)
  · exact .refl

end Socks

/-- The sockets that a call closes or reowns. -/
def SockOp.Ends (s : Socks) : SockOp → Slot → Prop
  | .close h pid cookie, i => s.resolve h pid cookie = some i
  | .cleanup pid, i | .reown pid _, i => 0 ≤ pid ∧ s.OwnedBy pid i
  | _, _ => False

namespace Socks

variable {s s' : Socks} {ends : Slot → Prop}

theorem ksockSocket_cases (s : Socks) (pid : Int) (cookie : Nat) (pcb : Option Nat) :
    (0 ≤ pid ∧ ∃ i a, s.freeSlot = some i ∧ pcb = some a) ∨
      ∃ h < 0, s.ksockSocket pid cookie pcb = (s, h) := by
  fun_cases ksockSocket s pid cookie pcb
  case case2 hpid i a hslot _ _ => exact .inl ⟨by omega, i, a, hslot, rfl⟩
  all_goals exact .inr ⟨_, by decide, rfl⟩

theorem exec_moves {op : SockOp} (hop : op.Allowed s) : Moves (op.Ends s) s (s.exec op) := by
  cases op with dsimp only [exec]
  | socket pid cookie pcb =>
    rcases s.ksockSocket_cases pid cookie pcb with ⟨hpid, i, a, hslot, rfl⟩ | ⟨h, -, hcall⟩
    · exact .single (.alloc hslot hpid hop)
    · rw [hcall]
      exact .refl
  | connect h pid cookie ok =>
    fun_cases ksockConnect s h pid cookie ok
    all_goals try exact .refl
    all_goals
      refine .single (.set (alike_state (of_resolve ‹_›).2.1 ?_) rfl (.inl rfl))
      exact nofun
  | connectTimeout h pid cookie =>
    fun_cases connectTimeout s h pid cookie
    all_goals try exact .refl
    next i hres _ _ =>
      refine (moves_releasePcb _ s i).tail (.set (alike_state ?_ nofun) rfl (.inl rfl))
      rw [socks_releasePcb]
      exact (of_resolve hres).2.1
  | close h pid cookie =>
    fun_cases ksockClose s h pid cookie
    · exact .refl
    next i hres => exact .single (.close (of_resolve hres).2.1 hres)
  | cleanup pid =>
    fun_cases netProcessCleanup s pid
    · exact .refl
    next hpid =>
      refine .foldl (P := fun t => ∀ i, t.OwnedBy pid i → s.OwnedBy pid i) (fun t j ht => ?_) _
        fun _ h => h
      refine ⟨fun i hi => ht i (ownedBy_cleanupSlot hi).2, ?_⟩
      fun_cases cleanupSlot pid t j
      next hown => exact .single (.close hown.1 ⟨by omega, ht j hown⟩)
      · exact .refl
  | reown pid cookie =>
    fun_cases netTaskReown s pid cookie
    · exact .refl
    next hpid =>
      refine .foldl (P := fun t => ∀ i, t.OwnedBy pid i → s.OwnedBy pid i) (fun t j ht => ?_) _
        fun _ h => h
      fun_cases reownSlot pid cookie t j
      next hown =>
        refine ⟨fun i hi => ht i ?_, .single (.set ⟨rfl, rfl, Iff.rfl⟩ rfl (.inr ⟨by omega, ht j hown⟩))⟩
        have halike := alike_setSock (s := t) (i := j) (x := {t.socks j with ownerCookie := cookie})
          ⟨rfl, rfl, Iff.rfl⟩ i
        exact ⟨mt halike.free.mpr hi.1, halike.pid.symm.trans hi.2⟩
      · exact ⟨ht, .refl⟩
  | recv h pid cookie len =>
    fun_cases ksockRecv s h pid cookie len
    · exact .refl
    next i hres x pass hx =>
      revert hx
      fun_cases Sock.recvPass (s.socks i) len <;> rintro ⟨⟩
      all_goals exact .single (.set ⟨rfl, rfl, Iff.rfl⟩ rfl (.inl rfl))
  | waitBegin i self =>
    fun_cases waitBegin s i self
    · exact .single (.set ⟨rfl, rfl, Iff.rfl⟩ rfl (.inl rfl))
    · exact .refl
  | waitEnd i self =>
    fun_cases waitEnd s i self
    · exact .single (.set ⟨rfl, rfl, Iff.rfl⟩ rfl (.inl rfl))
    · exact .refl
  | cbRecv a p ok =>
    fun_cases cbRecv s a p ok
    all_goals try exact .refl
    · exact .single (.set ⟨rfl, rfl, Iff.rfl⟩ rfl (.inl rfl))
    next chain i _ _ =>
      fun_cases Sock.enqueue (s.socks i) chain
      all_goals exact .single (.set ⟨rfl, rfl, Iff.rfl⟩ rfl (.inl rfl))
  | cbConnected a ok =>
    fun_cases cbConnected s a ok
    all_goals try exact .refl
    next i hslot _ =>
      refine .single (.set (alike_state (used_of_cbSlot hslot) ?_) rfl (.inl rfl))
      cases ok with
      | true | false => exact nofun
  | cbErr a =>
    fun_cases cbErr s a
    next hgate => exact .single (.drop hop hgate)
    next i hgate =>
      exact .single (.detach (.inr ⟨hop, hgate⟩)
        ⟨rfl, rfl, iff_of_false nofun (used_of_cbSlot hgate)⟩ rfl rfl)

theorem allocs_move (h : Move ends s s') (i : Slot) : s.allocs i ≤ s'.allocs i := by
  cases h with
  | set | detach | drop => exact le_rfl
  | close => rw [allocs_closeLocked]
  | @alloc j pid cookie a hslot hpid _ =>
    simp only [ksockSocket, if_neg (Int.not_lt.mpr hpid), hslot]
    by_cases hij : i = j
    · simp [hij]
    · simp [update_of_ne hij]

theorem allocs_moves (h : Moves ends s s') (i : Slot) : s.allocs i ≤ s'.allocs i := by
  induction h with
  | refl => exact le_rfl
  | tail _ hmove ih => exact ih.trans (allocs_move hmove i)

theorem Inv.move (hs : s.Inv) (hb : s'.Bounded) (h : Move ends s s') : s'.Inv := by
  have hb' : s.Bounded := fun i => lt_of_le_of_lt (allocs_move h i) (hb i)
  cases h with
  | set hx hpcb => exact hs.setSock hx hpcb
  | detach hi hx hpcb =>
    rcases hi with hi | ⟨harg, hgate⟩
    · exact hs.detached hi hx hpcb
    · obtain ⟨j, hj⟩ := hs.pcbs.attached _ harg
      obtain rfl := some.inj (hgate.symm.trans (hs.cbSlot_arg hj))
      exact hs.detached hj hx hpcb
  | drop harg hgate =>
    obtain ⟨j, hj⟩ := hs.pcbs.attached _ harg
    exact absurd (hgate.symm.trans (hs.cbSlot_arg hj)) nofun
  | close hused => exact hs.closeLocked hb' hused
  | alloc _ _ hnew => exact hs.ksockSocket hnew hb

theorem Inv.moves (hs : s.Inv) (h : Moves ends s s') (hb : s'.Bounded) : s'.Inv := by
  induction h with
  | refl => exact hs
  | tail _ hmove ih =>
    exact (ih fun i => lt_of_le_of_lt (allocs_move hmove i) (hb i)).move hb hmove

theorem inv_run {ops : List SockOp} (hrun : Run SockStep init ops s) (hb : s.Bounded) : s.Inv := by
  refine hrun.invariant (I := fun s => s.Bounded → s.Inv) ?_ (fun _ => .init) hb
  rintro s op s' hs ⟨rfl, hop⟩ hb
  have hmoves := exec_moves hop
  exact (hs fun i => lt_of_le_of_lt (allocs_moves hmoves i) (hb i)).moves hmoves hb

/-! ### Handles and owners -/

theorem Gens.resolve_issued (hs : s.Gens) (hused : (s.socks i).state ≠ .free) :
    s.resolve (s.issued i) (s.socks i).ownerPid (s.socks i).ownerCookie = some i := by
  have hpos := hs.gen_pos i hused
  have hown := hs.owned i hused
  rw [hs.issued i hused, resolve, if_neg (by omega)]
  rw [handleSlot_eq, handleGen_eq, if_neg hused, if_neg, if_neg]
  · exact not_or.mpr ⟨fun h => h rfl, fun h => h rfl⟩
  · exact not_or.mpr ⟨fun h => h rfl, by omega⟩

theorem Gens.resolve_closed (hs : s.Gens) {h : Int} (hh : h ∈ s.closed) (pid : Int) (cookie : Nat) :
    s.resolve h pid cookie = none := by
  obtain ⟨j, g, hj, hg⟩ := hs.stale h hh
  by_contra hne
  obtain ⟨i, hres⟩ := ne_none_iff_exists'.mp hne
  obtain ⟨-, -, heq, -⟩ := of_resolve hres
  have hslot : i = j := by
    rw [← handleSlot_eq (s.socks i).gen i, ← heq, hj, handleSlot_eq]
  have hgen : (s.socks i).gen = g := by
    rw [← handleGen_eq (s.socks i).gen i, ← heq, hj, handleGen_eq]
  rw [hslot] at hgen
  omega

theorem ownedBy_cleanupSlots {q : Int} (l : List Slot)
    (h : (l.foldl (cleanupSlot pid) s).OwnedBy q j) : (q = pid → j ∉ l) ∧ s.OwnedBy q j := by
  induction l generalizing s with
  | nil => exact ⟨fun _ => not_mem_nil, h⟩
  | cons i l ih =>
    obtain ⟨hnot, hown⟩ := ih h
    obtain ⟨hji, hown⟩ := ownedBy_cleanupSlot hown
    exact ⟨fun hq hmem => (mem_cons.mp hmem).elim (hji hq) (hnot hq), hown⟩

theorem ownedBy_netProcessCleanup {q : Int} (hpid : 0 ≤ pid)
    (h : (s.netProcessCleanup pid).OwnedBy q j) : q ≠ pid ∧ s.OwnedBy q j := by
  rw [netProcessCleanup, if_neg (by omega)] at h
  obtain ⟨hnot, hown⟩ := ownedBy_cleanupSlots _ h
  exact ⟨fun hq => hnot hq (mem_finRange j), hown⟩

def holders (s : Socks) (a : Nat) : Finset Slot :=
  univ.filter fun i => (s.socks i).pcb = some a

theorem Pcbs.card_holders (hs : s.Pcbs) (a : Nat) :
    (s.holders a).card ≤ 1 ∧ s.obtained a = s.released a + (s.holders a).card := by
  have hinj : ∀ i ∈ s.holders a, ∀ j ∈ s.holders a, i = j := by
    intro i hi j hj
    exact hs.inj (Finset.mem_filter.mp hi).2 (Finset.mem_filter.mp hj).2
  have hle : (s.holders a).card ≤ 1 := Finset.card_le_one.mpr hinj
  refine ⟨hle, ?_⟩
  rcases (s.holders a).eq_empty_or_nonempty with hnone | ⟨i, hi⟩
  · rw [hnone, Finset.card_empty, add_zero]
    apply hs.back a
    intro i hi
    have hmem : i ∈ s.holders a := Finset.mem_filter.mpr ⟨Finset.mem_univ i, hi⟩
    rw [hnone] at hmem
    exact absurd hmem (Finset.notMem_empty i)
  · rw [le_antisymm hle (Finset.card_pos.mpr ⟨i, hi⟩)]
    exact hs.out i a (Finset.mem_filter.mp hi).2

end Socks

/-- After every run with fewer than 2^27 allocations of each slot: a handle resolves only for
the pair that owns the socket it was issued for, a handle of a closed socket never does,
`net_process_cleanup` leaves its process no socket, a socket in use has exactly one owner, and
a pcb went back to lwIP once for each time it was obtained, but for the one time that exactly
one socket may hold it. -/
theorem socket_capability_safe {ops : List SockOp} {s : Socks}
    (hrun : Run SockStep Socks.init ops s) (hallocs : ∀ i, s.allocs i < 2 ^ 27) :
    (∀ h pid cookie i, s.resolve h pid cookie = some i →
        (s.socks i).state ≠ .free ∧ s.issued i = h ∧
          (s.socks i).ownerPid = pid ∧ (s.socks i).ownerCookie = cookie) ∧
      (∀ h ∈ s.closed, ∀ pid cookie, s.resolve h pid cookie = none) ∧
      (∀ pid, 0 ≤ pid → ∀ i, ¬ (s.netProcessCleanup pid).OwnedBy pid i) ∧
      (∀ i, (s.socks i).state ≠ .free →
        ∃! owner : Int × Nat, s.resolve (s.issued i) owner.1 owner.2 = some i) ∧
      ∀ a, (s.holders a).card ≤ 1 ∧ s.obtained a = s.released a + (s.holders a).card := by
  have hinv := Socks.inv_run hrun hallocs
  refine ⟨?_, ?_, ?_, ?_, hinv.pcbs.card_holders⟩
  · intro h pid cookie i hres
    obtain ⟨-, hused, heq, hpid, hcookie⟩ := Socks.of_resolve hres
    exact ⟨hused, (hinv.gens.issued i hused).trans heq.symm, hpid, hcookie⟩
  · exact fun h hh pid cookie => hinv.gens.resolve_closed hh pid cookie
  · intro pid hpid i hown
    exact (Socks.ownedBy_netProcessCleanup hpid hown).1 rfl
  · intro i hused
    refine ⟨((s.socks i).ownerPid, (s.socks i).ownerCookie), hinv.gens.resolve_issued hused, ?_⟩
    rintro ⟨pid, cookie⟩ hres
    obtain ⟨-, -, -, hpid, hcookie⟩ := Socks.of_resolve hres
    exact Prod.ext hpid.symm hcookie.symm

def reusedSlot : List SockOp :=
  [.socket 1 10 (some 0), .close 8 1 10, .socket 2 20 (some 0)]

theorem socket_capability_safe_reused : let s := reusedSlot.foldl Socks.exec Socks.init
    s.closed = [8] ∧ s.issued 0 = 24 ∧ s.resolve 8 2 20 = none ∧ s.resolve 24 2 20 = some 0 := by
  intro s
  have hrun : Run SockStep Socks.init reusedSlot s :=
    .cons ⟨rfl, rfl⟩ (.cons ⟨rfl, trivial⟩ (.cons ⟨rfl, rfl⟩ (.nil _)))
  have hallocs : ∀ i, s.allocs i < 2 ^ 27 := by decide
  have h := socket_capability_safe hrun hallocs
  exact ⟨by decide, by decide, h.2.1 8 (by decide) 2 20, by decide⟩

end Kyuzen.Net
