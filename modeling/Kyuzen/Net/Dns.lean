import Kyuzen.Net.Socket

/-!
`net_dns_resolve` over lwIP's resolver: the calls of several tasks, which take
turns by `resolve_busy` and share `dns_done` and `dns_result`, with lwIP's
callbacks, with kills that a sleeping caller finds when it wakes, and with kills
that end a caller which is awake and waits for a CPU.
-/

namespace Kyuzen.Net

open Function List

abbrev Host := List UInt8

def netDnsTimeoutMs : Nat := 5000

def netDnsMaxHost : Nat := 128

/-- Where a task is in `net_dns_resolve`. -/
inductive Phase where
  | idle
  /-- About to try `resolve_busy`. -/
  | acquire
  /-- Asleep in `task_sleep_ms` between two tries. -/
  | acquireNap
  /-- Past the try, `dns_done = 0` is next. -/
  | locked
  /-- `dns_result = 0` is next. -/
  | doneCleared
  /-- The section of `net_lock` with `dns_gethostbyname` is next. -/
  | cleared
  /-- The deadline is computed next. -/
  | inProgress
  /-- `!dns_done` of the loop. -/
  | wait (deadline : Nat)
  /-- `timer_get_ms() < deadline` of the loop. -/
  | clock (deadline : Nat)
  /-- Asleep in `task_sleep_ms` of the loop. -/
  | nap (deadline : Nat)
  /-- `if (!dns_done)` behind the loop. -/
  | check
  /-- `dns_result == 0` -/
  | judge
  /-- `*out_ip_be = dns_result` -/
  | store
  /-- `spinlock_unlock_irqrestore` and the return are next. -/
  | unlock (rc : Rc)
  /-- In `proc_exit_kill`. -/
  | exiting
  | terminated
  deriving DecidableEq, Repr

namespace Phase

/-- Between the acquisition and the release of `resolve_busy`. -/
def holds : Phase → Bool
  | .idle | .acquire | .acquireNap | .exiting | .terminated => false
  | _ => true

/-- Between `dns_result = 0` and the last read of it. -/
def exposed : Phase → Bool
  | .cleared | .inProgress | .wait _ | .clock _ | .nap _ | .check | .judge | .store => true
  | _ => false

theorem holds_of_exposed {p : Phase} (h : p.exposed = true) : p.holds = true := by
  cases p <;> first | rfl | exact absurd h Bool.false_ne_true

end Phase

/-- A task and its call: `request` while lwIP owes the call an answer, `out` the
word at `out_ip_be`. -/
structure Caller where
  phase : Phase
  host : Host
  out : UInt32
  request : Bool
  killPending : Bool

/-- What `dns_gethostbyname` returns, with the address it fills in. -/
inductive Reply where
  | ok (addr : UInt32)
  | inProgress
  | err
  deriving DecidableEq, Repr

/-- `calling` while a callback is between its two writes, under `net_lock`; `late`
are the requests whose call is over. `reported` are the addresses lwIP gave, with
the names it gave them for, `resolved` those that calls returned with `KSOCK_OK`. -/
structure Dns where
  busy : Bool
  done : Bool
  result : UInt32
  calling : Bool
  late : List Host
  tasks : Nat → Caller
  reported : List (Host × UInt32)
  resolved : List (Host × UInt32)

inductive DnsOp where
  | spawn (t : Nat)
  | call (t : Nat) (host : Option Host) (out : Option UInt32)
  /-- The next step of a task, with what the timer and lwIP return to it. -/
  | run (t now : Nat) (reply : Reply)
  /-- `proc_kill` of a task that runs or sleeps. -/
  | kill (t : Nat)
  /-- `proc_kill` of a task that is `TASK_READY`. -/
  | killReady (t : Nat)
  /-- lwIP answers the request of a call that still waits. -/
  | answer (t : Nat) (addr : Option UInt32)
  /-- lwIP answers the request of a call that is over. -/
  | lateAnswer (i : Nat) (addr : Option UInt32)
  /-- `dns_done = 1` of the callback. -/
  | finish
  deriving Repr

namespace Dns

def init : Dns where
  busy := false
  done := false
  result := 0
  calling := false
  late := []
  tasks := fun _ => ⟨.idle, [], 0, false, false⟩
  reported := []
  resolved := []

def setTask (s : Dns) (t : Nat) (c : Caller) : Dns := {s with tasks := update s.tasks t c}

def goto (s : Dns) (t : Nat) (p : Phase) : Dns := s.setTask t {s.tasks t with phase := p}

/-- The call of `t` is over: what lwIP still owes it comes late. -/
def leave (s : Dns) (t : Nat) (p : Phase) : Dns :=
  {s.setTask t {s.tasks t with phase := p, request := false} with
    late := if (s.tasks t).request then (s.tasks t).host :: s.late else s.late}

/-- The end of `task_sleep_ms`: `if (kill_pending) proc_exit_kill()`. -/
def awake (s : Dns) (t : Nat) (p : Phase) : Dns :=
  if (s.tasks t).killPending then s.leave t .exiting else s.goto t p

/-- The checks of the arguments at the entry. -/
def resolve (s : Dns) (t : Nat) : Option Host → Option UInt32 → Dns
  | some host, some out =>
    if host = [] ∨ netDnsMaxHost < host.length then s
    else s.setTask t {s.tasks t with phase := .acquire, host := host, out := out}
  | _, _ => s

/-- `dns_gethostbyname` and the lines behind it, in one section of `net_lock`. -/
def gethostbyname (s : Dns) (t : Nat) : Reply → Dns
  | .ok addr =>
    {s.goto t .store with
      result := addr, done := true, reported := ((s.tasks t).host, addr) :: s.reported}
  | .inProgress => s.setTask t {s.tasks t with phase := .inProgress, request := true}
  | .err => s.goto t (.unlock .err)

/-- `dns_result = (ipaddr != NULL) ? ipaddr->addr : 0` of the callback, for a request
of `host`. -/
def found (s : Dns) (host : Host) (addr : Option UInt32) : Dns :=
  {s with
    result := addr.getD 0
    calling := true
    reported := match addr with
      | some a => (host, a) :: s.reported
      | none => s.reported}

def step (s : Dns) (t now : Nat) (reply : Reply) : Dns :=
  match (s.tasks t).phase with
  | .idle => if (s.tasks t).killPending then s.leave t .exiting else s
  | .acquire => if s.busy then s.goto t .acquireNap else {s.goto t .locked with busy := true}
  | .acquireNap => s.awake t .acquire
  | .locked => {s.goto t .doneCleared with done := false}
  | .doneCleared => {s.goto t .cleared with result := 0}
  | .cleared => if s.calling then s else s.gethostbyname t reply
  | .inProgress => s.goto t (.wait (now + netDnsTimeoutMs))
  | .wait deadline => s.goto t (if s.done then .check else .clock deadline)
  | .clock deadline => s.goto t (if now < deadline then .nap deadline else .check)
  | .nap deadline => s.awake t (.wait deadline)
  | .check => s.goto t (if s.done then .judge else .unlock .etimeout)
  | .judge => s.goto t (if s.result = 0 then .unlock .econn else .store)
  | .store => s.setTask t {s.tasks t with phase := .unlock .ok, out := s.result}
  | .unlock rc =>
    {s.leave t .idle with
      busy := false
      resolved :=
        if rc = .ok then ((s.tasks t).host, (s.tasks t).out) :: s.resolved else s.resolved}
  | .exiting => s.goto t .terminated
  | .terminated => s

/-- The branch of `proc_kill` that ends a task at once: one outside of the call, or one that
was woken in `task_sleep_ms` and has not run yet. -/
def killReady (s : Dns) (t : Nat) : Dns :=
  match (s.tasks t).phase with
  | .idle | .acquireNap | .nap _ => if (s.tasks t).killPending then s else s.leave t .terminated
  | _ => s

def exec (s : Dns) : DnsOp → Dns
  | .spawn t =>
    if (s.tasks t).phase = .terminated then s.setTask t ⟨.idle, [], 0, false, false⟩ else s
  | .call t host out => if (s.tasks t).phase = .idle then s.resolve t host out else s
  | .run t now reply => s.step t now reply
  | .kill t => s.setTask t {s.tasks t with killPending := true}
  | .killReady t => s.killReady t
  | .answer t addr =>
    if (s.tasks t).request = true ∧ s.calling = false then
      (s.setTask t {s.tasks t with request := false}).found (s.tasks t).host addr
    else s
  | .lateAnswer i addr =>
    match s.late[i]?, s.calling with
    | some host, false => {s with late := s.late.eraseIdx i}.found host addr
    | _, _ => s
  | .finish => if s.calling then {s with done := true, calling := false} else s

end Dns

def DnsStep (s : Dns) (op : DnsOp) (s' : Dns) : Prop := s' = s.exec op

/-! ### The lock -/

namespace Dns

variable {p : Phase}

def holding (s : Dns) (t : Nat) : Bool := (s.tasks t).phase.holds

theorem holding_setTask (s : Dns) (t : Nat) (c : Caller) :
    (s.setTask t c).holding = update s.holding t c.phase.holds := by
  funext u
  by_cases hu : u = t
  · simp [hu, holding, setTask]
  · simp [update_of_ne hu, holding, setTask]

theorem holding_goto (s : Dns) (t : Nat) (p : Phase) :
    (s.goto t p).holding = update s.holding t p.holds :=
  holding_setTask s t _

theorem holding_leave (s : Dns) (t : Nat) (p : Phase) :
    (s.leave t p).holding = update s.holding t p.holds :=
  holding_setTask s t _

/-- What a step can do to the lock; it leaves the lock to nobody only when `dropped`. -/
inductive LockMove (dropped : Prop) (s s' : Dns) : Prop where
  | keep (hbusy : s'.busy = s.busy) (hhold : s'.holding = s.holding)
  | take (t : Nat) (hfree : s.busy = false) (hbusy : s'.busy = true)
      (hhold : s'.holding = update s.holding t true)
  | give (t : Nat) (hheld : s.holding t = true) (hbusy : s'.busy = false)
      (hhold : s'.holding = update s.holding t false)
  | drop (t : Nat) (h : dropped) (hheld : s.holding t = true) (hbusy : s'.busy = s.busy)
      (hhold : s'.holding = update s.holding t false)

variable {s : Dns} {t : Nat} {dropped : Prop}

theorem LockMove.refl (s : Dns) : LockMove dropped s s := .keep rfl rfl

theorem LockMove.setTask {c : Caller} (ht : (s.tasks t).phase = p) (hc : c.phase.holds = p.holds) :
    LockMove dropped s (s.setTask t c) := by
  refine .keep rfl ?_
  rw [holding_setTask, hc, ← ht]
  exact update_eq_self t s.holding

variable {q : Phase}

section
variable (ht : (s.tasks t).phase = p) (hq : q.holds = p.holds)
include ht hq

theorem LockMove.goto : LockMove dropped s (s.goto t q) := .setTask ht hq

theorem LockMove.leave : LockMove dropped s (s.leave t q) := by
  refine .keep rfl ?_
  rw [holding_leave, hq, ← ht]
  exact update_eq_self t s.holding

end

theorem LockMove.congr {s' s'' : Dns} (h : LockMove dropped s s') (hbusy : s''.busy = s'.busy)
    (htasks : s''.tasks = s'.tasks) : LockMove dropped s s'' := by
  have hhold : s''.holding = s'.holding := by
    funext u
    rw [holding, htasks, holding]
  cases h with
  | keep hb hh => exact .keep (hbusy.trans hb) (hhold.trans hh)
  | take t hf hb hh => exact .take t hf (hbusy.trans hb) (hhold.trans hh)
  | give t hl hb hh => exact .give t hl (hbusy.trans hb) (hhold.trans hh)
  | drop t hd hl hb hh => exact .drop t hd hl (hbusy.trans hb) (hhold.trans hh)

end Dns

/-- The step in which a task that holds `resolve_busy` wakes, finds itself killed and
does not return, or is ended before it runs again. -/
def DnsOp.Drops (s : Dns) : DnsOp → Prop
  | .run t _ _ => (∃ deadline, (s.tasks t).phase = .nap deadline) ∧ (s.tasks t).killPending = true
  | .killReady t =>
    (∃ deadline, (s.tasks t).phase = .nap deadline) ∧ (s.tasks t).killPending = false
  | _ => False

namespace Dns

variable {s s' : Dns} {dropped : Prop} {p : Phase}

theorem lockMove_gethostbyname (s : Dns) (t : Nat) (reply : Reply)
    (ht : (s.tasks t).phase = .cleared) : LockMove dropped s (s.gethostbyname t reply) := by
  cases reply with
  | ok addr =>
    refine .congr (.goto ht rfl : LockMove _ s (s.goto t .store)) rfl rfl
  | inProgress =>
    exact .setTask ht rfl
  | err =>
    exact .goto ht rfl

theorem lockMove_step (s : Dns) (t now : Nat) (reply : Reply) :
    LockMove (DnsOp.Drops s (.run t now reply)) s (s.step t now reply) := by
  fun_cases step s t now reply
  -- most steps go on inside the lock or outside of it
  all_goals try first
    | exact .refl s
    | refine .goto ‹(s.tasks t).phase = _› ?_
      first | rfl | (split <;> rfl)
  next ht _ => exact .leave ht rfl
  next hbusy _ =>
    exact .take t (Bool.eq_false_of_not_eq_true hbusy) rfl (holding_goto s t .locked)
  next ht =>
    unfold awake
    split
    · exact .leave ht rfl
    · exact .goto ht rfl
  next ht _ => exact .congr (.goto ht rfl : LockMove _ s (s.goto t .doneCleared)) rfl rfl
  next ht _ => exact .congr (.goto ht rfl : LockMove _ s (s.goto t .cleared)) rfl rfl
  next ht _ => exact lockMove_gethostbyname s t reply ht
  next deadline ht =>
    unfold awake
    split
    next hkill =>
      -- the one step that leaves the lock taken with nobody inside
      refine .drop t ⟨⟨deadline, ht⟩, hkill⟩ ?_ rfl (holding_leave s t .exiting)
      rw [holding, ht]
      rfl
    · exact .goto ht rfl
  next ht => exact .setTask ht rfl
  next ht _ =>
    refine .give t ?_ rfl (holding_leave s t .idle)
    rw [holding, ht]
    rfl

theorem lockMove_killReady (s : Dns) (t : Nat) :
    LockMove (DnsOp.Drops s (.killReady t)) s (s.killReady t) := by
  fun_cases killReady
  all_goals try exact .refl s
  next ht _ => exact .leave ht rfl
  next ht _ => exact .leave ht rfl
  next deadline ht hkill =>
    refine .drop t ⟨⟨deadline, ht⟩, Bool.eq_false_of_not_eq_true hkill⟩ ?_ rfl
      (holding_leave s t .terminated)
    rw [holding, ht]
    rfl

theorem lockMove_exec (s : Dns) (op : DnsOp) : LockMove (op.Drops s) s (s.exec op) := by
  fun_cases exec
  all_goals try exact .refl s
  next ht => exact .setTask ht rfl
  next ht =>
    fun_cases resolve
    all_goals try exact .refl s
    exact .setTask ht rfl
  next t now reply => exact lockMove_step s t now reply
  · exact .setTask rfl rfl
  next t => exact lockMove_killReady s t
  next t addr _ =>
    exact .congr (.setTask rfl rfl : LockMove _ s (s.setTask t {s.tasks t with request := false})) rfl rfl
  · exact .keep rfl rfl
  · exact .keep rfl rfl

structure Exclusive (s : Dns) : Prop where
  busy_of_holding : ∀ t, s.holding t = true → s.busy = true
  alone : ∀ t u, s.holding t = true → s.holding u = true → t = u

theorem Exclusive.init : Exclusive init where
  busy_of_holding _ h := absurd h Bool.false_ne_true
  alone _ _ h _ := absurd h Bool.false_ne_true

theorem Exclusive.of_le (hs : s.Exclusive) (hle : ∀ u, s'.holding u = true → s.holding u = true)
    (hbusy : (∃ u, s'.holding u = true) → s'.busy = s.busy) : s'.Exclusive where
  busy_of_holding u hu := (hbusy ⟨u, hu⟩).trans (hs.busy_of_holding u (hle u hu))
  alone u v hu hv := hs.alone u v (hle u hu) (hle v hv)

theorem holding_of_update {t u : Nat} (h : update s.holding t false u = true) :
    u ≠ t ∧ s.holding u = true := by
  by_cases hu : u = t
  · rw [hu, update_self] at h
    exact absurd h Bool.false_ne_true
  · rw [update_of_ne hu] at h
    exact ⟨hu, h⟩

theorem Exclusive.lockMove (hs : s.Exclusive) (h : LockMove dropped s s') : s'.Exclusive := by
  cases h with
  | keep hbusy hhold =>
    apply hs.of_le
    · intro u hu
      rw [← hhold]
      exact hu
    · exact fun _ => hbusy
  | take t hfree hbusy hhold =>
    have hnobody : ∀ u, s'.holding u = true → u = t := by
      intro u hu
      by_contra hne
      rw [hhold, update_of_ne hne] at hu
      have := hs.busy_of_holding u hu
      rw [hfree] at this
      exact Bool.false_ne_true this
    exact ⟨fun _ _ => hbusy, fun u v hu hv => (hnobody u hu).trans (hnobody v hv).symm⟩
  | give t hheld hbusy hhold =>
    apply hs.of_le
    · intro u hu
      rw [hhold] at hu
      exact (holding_of_update hu).2
    · rintro ⟨u, hu⟩
      rw [hhold] at hu
      obtain ⟨hne, hu⟩ := holding_of_update hu
      exact absurd (hs.alone u t hu hheld) hne
  | drop t _ hheld hbusy hhold =>
    apply hs.of_le
    · intro u hu
      rw [hhold] at hu
      exact (holding_of_update hu).2
    · exact fun _ => hbusy

def Served (s : Dns) : Prop := s.busy = true → ∃ t, s.holding t = true

theorem Served.init : Served init := nofun

theorem Served.lockMove (hs : s.Served) (hkept : ¬ dropped) (h : LockMove dropped s s') :
    s'.Served := by
  intro hb
  cases h with
  | keep hbusy hhold =>
    rw [hhold]
    exact hs (hbusy.symm.trans hb)
  | take t _ _ hhold =>
    refine ⟨t, ?_⟩
    rw [hhold, update_self]
  | give t _ hbusy _ =>
    rw [hbusy] at hb
    exact absurd hb Bool.false_ne_true
  | drop t hdropped => exact absurd hdropped hkept

theorem not_served_leave {t deadline : Nat} (hs : s.Exclusive)
    (ht : (s.tasks t).phase = .nap deadline) (hp : p.holds = false) : ¬ (s.leave t p).Served := by
  have hheld : s.holding t = true := by
    rw [holding, ht]
    rfl
  intro hserved
  obtain ⟨u, hu⟩ := hserved (hs.busy_of_holding t hheld)
  rw [holding_leave, hp] at hu
  obtain ⟨hne, hu⟩ := holding_of_update hu
  exact hne (hs.alone u t hu hheld)

theorem Drops.not_served {op : DnsOp} (hs : s.Exclusive) (h : op.Drops s) :
    ¬ (s.exec op).Served := by
  cases op with
  | run t now reply =>
    obtain ⟨⟨deadline, ht⟩, hkill⟩ := h
    have hnext : s.exec (.run t now reply) = s.leave t .exiting := by
      rw [exec, step, ht]
      dsimp only
      rw [awake, if_pos hkill]
    rw [hnext]
    exact not_served_leave hs ht rfl
  | killReady t =>
    obtain ⟨⟨deadline, ht⟩, hkill⟩ := h
    have hnext : s.exec (.killReady t) = s.leave t .terminated := by
      rw [exec, killReady, ht]
      dsimp only
      rw [if_neg (by simp [hkill])]
    rw [hnext]
    exact not_served_leave hs ht rfl
  | spawn | call | kill | answer | lateAnswer | finish => exact h.elim

/-- Once the lock is left to nobody it stays so: a try fails, and there is nobody to release it. -/
theorem not_served_lockMove (hs : ¬ s.Served) (h : LockMove dropped s s') : ¬ s'.Served := by
  rw [Served, Classical.not_imp, not_exists] at hs
  obtain ⟨hb, hnobody⟩ := hs
  cases h with
  | keep hbusy hhold =>
    intro hserved
    obtain ⟨u, hu⟩ := hserved (hbusy.trans hb)
    rw [hhold] at hu
    exact hnobody u hu
  | take t hfree =>
    rw [hb] at hfree
    exact absurd hfree.symm Bool.false_ne_true
  | give t hheld => exact absurd hheld (hnobody t)
  | drop t _ hheld => exact absurd hheld (hnobody t)

end Dns

variable {s s' : Dns} {ops : List DnsOp}

def SparingStep (s : Dns) (op : DnsOp) (s' : Dns) : Prop := s' = s.exec op ∧ ¬ op.Drops s

open Dns

theorem not_served_run (hrun : Run DnsStep s ops s') (hs : ¬ s.Served) : ¬ s'.Served := by
  apply hrun.invariant (I := fun s => ¬ s.Served) _ hs
  intro s op s' hs hstep
  rw [hstep]
  exact not_served_lockMove hs (lockMove_exec s op)

theorem served_run (hrun : Run SparingStep s ops s') (hs : s.Served) : s'.Served := by
  apply hrun.invariant (I := Dns.Served) _ hs
  intro s op s' hs hstep
  rw [hstep.1]
  exact hs.lockMove hstep.2 (lockMove_exec s op)

theorem sparing_of_served (hrun : Run DnsStep s ops s') (hs : s.Exclusive) (hserved : s'.Served) :
    Run SparingStep s ops s' := by
  induction hrun with
  | nil s => exact .nil s
  | cons hstep rest ih =>
    rename_i s s₁ s₂ op ops
    have hstep' : s₁ = s.exec op := hstep
    by_cases hdrops : op.Drops s
    · have hleft : ¬ s₁.Served := by
        rw [hstep']
        exact Dns.Drops.not_served hs hdrops
      exact absurd hserved (not_served_run rest hleft)
    · refine .cons ⟨hstep', hdrops⟩ (ih ?_ hserved)
      rw [hstep']
      exact hs.lockMove (lockMove_exec s op)

/-- `resolve_busy` is held by a task inside `net_dns_resolve` after a run exactly when no
task that held it was killed in its sleep during the run, asleep or already woken. -/
theorem resolver_lock_held_by_live {ops : List DnsOp} {s : Dns} (hrun : Run DnsStep Dns.init ops s) :
    (s.busy = true → ∃ t, (s.tasks t).phase.holds = true) ↔ Run SparingStep Dns.init ops s :=
  ⟨sparing_of_served hrun .init, fun h => served_run h .init⟩

def killedInWait : List DnsOp :=
  [.call 0 (some [97]) (some 0), .run 0 0 .err, .run 0 0 .err, .run 0 0 .err,
    .run 0 0 .inProgress, .run 0 0 .err, .run 0 0 .err, .run 0 0 .err, .kill 0, .run 0 20 .err,
    .run 0 20 .err]

theorem killedInWait_nobody (t : Nat) :
    ((killedInWait.foldl exec init).tasks t).phase.holds = false := by
  by_cases h : t = 0
  · subst h
    decide
  · simp [killedInWait, exec, step, init, resolve, setTask, goto,
      leave, awake, gethostbyname, update_of_ne h, netDnsMaxHost,
      netDnsTimeoutMs, Phase.holds]

theorem resolver_lock_held_by_live_killed :
    ¬ Run SparingStep Dns.init killedInWait (killedInWait.foldl Dns.exec Dns.init) := by
  intro hspared
  obtain ⟨t, ht⟩ :=
    (resolver_lock_held_by_live (Run.foldl (by intro _ _ _; rfl) init)).mpr hspared (by decide)
  rw [killedInWait_nobody t] at ht
  exact Bool.false_ne_true ht

/-- The killed task is terminated, the lock is taken, and no task is inside. -/
theorem resolver_lock_left_by_killed :
    Run DnsStep Dns.init killedInWait (killedInWait.foldl Dns.exec Dns.init) ∧
      (killedInWait.foldl Dns.exec Dns.init).busy = true ∧
      ((killedInWait.foldl Dns.exec Dns.init).tasks 0).phase = .terminated ∧
      ∀ t, ((killedInWait.foldl Dns.exec Dns.init).tasks t).phase.holds = false :=
  ⟨Run.foldl (by intro _ _ _; rfl) _, by decide, by decide, killedInWait_nobody⟩

/-- However tasks are killed, `resolve_busy` never lets two of them in. -/
theorem resolver_lock_exclusive (ops : List DnsOp) :
    {t | (ops.foldl Dns.exec Dns.init).holding t = true}.Subsingleton := by
  have hs := List.foldlRecOn (motive := Dns.Exclusive) ops Dns.exec .init fun s hs op _ =>
    hs.lockMove (Dns.lockMove_exec s op)
  exact fun t ht u hu => hs.alone t u ht hu

/-! ### The answers -/

namespace Dns

/-- What the call of `t` knows about `dns_result` in each phase. -/
def Answered (s : Dns) (c : Caller) : Prop :=
  match c.phase with
  | .cleared => c.request = false ∧ s.result = 0
  | .inProgress | .wait _ | .clock _ | .nap _ | .check | .judge =>
    s.result = 0 ∨ c.request = false ∧ (c.host, s.result) ∈ s.reported
  | .store => c.request = false ∧ (c.host, s.result) ∈ s.reported
  | .unlock rc => rc = .ok → (c.host, c.out) ∈ s.reported
  | _ => c.request = false

/-- Each call holds an answer to its own name, and so did those that returned. -/
structure Own (s : Dns) : Prop where
  calls : ∀ t, s.Answered (s.tasks t)
  returned : ∀ p ∈ s.resolved, p ∈ s.reported

theorem Own.init : Own init where
  calls _ := rfl
  returned _ h := absurd h not_mem_nil

variable {s s' : Dns}

/-- More reports harm no call, and `dns_result` matters only to one that is exposed. -/
theorem Answered.mono {c : Caller} (h : s.Answered c) (hrep : s.reported ⊆ s'.reported)
    (hres : c.phase.exposed = true → s'.result = s.result) : s'.Answered c := by
  obtain ⟨phase, host, out, request, killPending⟩ := c
  cases phase with
  | cleared => exact ⟨h.1, (hres rfl).trans h.2⟩
  | inProgress | wait | clock | nap | check | judge =>
    rw [Answered, hres rfl]
    exact h.imp id fun h => ⟨h.1, hrep h.2⟩
  | store =>
    rw [Answered, hres rfl]
    exact ⟨h.1, hrep h.2⟩
  | unlock rc => exact fun hrc => hrep (h hrc)
  | idle | acquire | acquireNap | locked | doneCleared | exiting | terminated => exact h

/-- A step of task `t` that no other call can tell. -/
theorem Own.update {t : Nat} (hs : s.Own) (htasks : ∀ u ≠ t, s'.tasks u = s.tasks u)
    (hrep : s.reported ⊆ s'.reported)
    (hres : ∀ u ≠ t, (s.tasks u).phase.exposed = true → s'.result = s.result)
    (hself : s'.Answered (s'.tasks t)) (hret : ∀ p ∈ s'.resolved, p ∈ s'.reported) : s'.Own where
  calls u := by
    by_cases hu : u = t
    · rw [hu]
      exact hself
    · rw [htasks u hu]
      exact (hs.calls u).mono hrep (hres u hu)
  returned := hret

end Dns

namespace Dns

variable {s : Dns} {t : Nat}

theorem setTask_self (s : Dns) (t : Nat) (c : Caller) : (s.setTask t c).tasks t = c := by
  simp [setTask]

variable {c : Caller} {p : Phase}

theorem Own.setTask (hs : s.Own) (hc : s.Answered c) : (s.setTask t c).Own := by
  apply hs.update (t := t)
  · exact fun u hu => update_of_ne hu _ _
  · exact List.Subset.refl _
  · exact fun _ _ _ => rfl
  · rw [setTask_self]
    exact hc
  · exact hs.returned

theorem Exclusive.not_exposed {u : Nat} (hs : s.Exclusive) (ht : s.holding t = true) (hu : u ≠ t) :
    (s.tasks u).phase.exposed ≠ true := fun h =>
  hu (hs.alone u t (Phase.holds_of_exposed h) ht)

/-- A task that holds the lock writes `dns_result`. -/
theorem Own.write {s : Dns} {t : Nat} {done calling : Bool} {result : UInt32}
    {reported : List (Host × UInt32)} (hs : s.Own) (hex : s.Exclusive) (ht : s.holding t = true)
    (hrep : s.reported ⊆ reported)
    (hc : Answered {s with result := result, reported := reported} c) :
    Own {s.setTask t c with
      done := done, calling := calling, result := result, reported := reported} := by
  apply hs.update (t := t)
  · exact fun u hu => update_of_ne hu _ _
  · exact hrep
  · exact fun u hu hexposed => absurd hexposed (hex.not_exposed ht hu)
  · rw [show tasks _ t = c from setTask_self s t c]
    exact hc
  · exact fun p hp => hrep (hs.returned p hp)

theorem Own.leave (hs : s.Own)
    (hp : ∀ c : Caller, c.phase = p → c.request = false → s.Answered c) : (s.leave t p).Own := by
  have h : (s.setTask t {s.tasks t with phase := p, request := false}).Own :=
    hs.setTask (hp _ rfl rfl)
  exact {h with}

theorem Own.awake (hs : s.Own) (hp : s.Answered {s.tasks t with phase := p}) :
    (s.awake t p).Own := by
  unfold Dns.awake
  split
  · apply hs.leave
    intro c hphase hreq
    rw [Answered, hphase]
    exact hreq
  · exact hs.setTask hp

theorem Own.gethostbyname (hs : s.Own) (hex : s.Exclusive) (ht : (s.tasks t).phase = .cleared)
    (reply : Reply) : (s.gethostbyname t reply).Own := by
  have hcall := hs.calls t
  rw [Answered, ht] at hcall
  cases reply with
  | ok addr =>
    have hheld : s.holding t = true := by
      rw [holding, ht]
      rfl
    exact hs.write hex hheld (subset_cons_self _ _) ⟨hcall.1, mem_cons_self⟩
  | inProgress => exact hs.setTask (.inl hcall.2)
  | err => exact hs.setTask nofun

theorem Own.step (hs : s.Own) (hex : s.Exclusive) (t now : Nat) (reply : Reply) :
    (s.step t now reply).Own := by
  have hcall := hs.calls t
  rw [Answered] at hcall
  fun_cases Dns.step s t now reply
  all_goals rw [‹(s.tasks t).phase = _›] at hcall
  -- most steps only move the task on, with what it has
  all_goals try first | exact hs | exact hs.setTask hcall | (split <;> exact hs.setTask hcall)
  next =>
    apply hs.leave
    intro c hphase hreq
    rw [Answered, hphase]
    exact hreq
  next =>
    have h : (s.goto t .locked).Own := hs.setTask hcall
    exact {h with}
  next => exact hs.awake hcall
  next =>
    have h : (s.goto t .doneCleared).Own := hs.setTask hcall
    exact {h with}
  next ht _ =>
    have hheld : s.holding t = true := by
      rw [holding, ht]
      rfl
    exact hs.write hex hheld (List.Subset.refl _) ⟨hcall, rfl⟩
  next ht _ => exact hs.gethostbyname hex ht reply
  next => exact hs.awake hcall
  next =>
    split
    · exact hs.setTask hcall
    · exact hs.setTask nofun
  next =>
    split
    · exact hs.setTask nofun
    next hne => exact hs.setTask (hcall.resolve_left hne)
  next => exact hs.setTask fun _ => hcall.2
  next rc _ =>
    have h : (s.leave t .idle).Own := by
      apply hs.leave
      intro c hphase hreq
      rw [Answered, hphase]
      exact hreq
    refine ⟨h.calls, fun p hp => ?_⟩
    split at hp
    next hrc =>
      rcases mem_cons.mp hp with hp | hp
      · rw [hp]
        exact hcall hrc
      · exact hs.returned p hp
    · exact hs.returned p hp

theorem subset_found (s : Dns) (host : Host) (addr : Option UInt32) :
    s.reported ⊆ (s.found host addr).reported := by
  cases addr with
  | none => exact List.Subset.refl _
  | some a => exact subset_cons_self _ _

theorem found_answers (s : Dns) (host : Host) (addr : Option UInt32) :
    (s.found host addr).result = 0 ∨
      (host, (s.found host addr).result) ∈ (s.found host addr).reported := by
  cases addr with
  | none => exact .inl rfl
  | some a => exact .inr mem_cons_self

/-- A request is owed only to a call that holds the lock, and its answer is one to its name. -/
theorem Answered.found (h : s.Answered c) (hreq : c.request = true) (addr : Option UInt32) :
    c.phase.holds = true ∧ (s.found c.host addr).Answered {c with request := false} := by
  obtain ⟨phase, host, out, request, killPending⟩ := c
  cases phase with
  | inProgress | wait | clock | nap | check | judge =>
    exact ⟨rfl, (s.found_answers host addr).imp id fun h => ⟨rfl, h⟩⟩
  | unlock rc => exact ⟨rfl, fun hrc => s.subset_found host addr (h hrc)⟩
  | cleared | store => exact absurd (h.1.symm.trans hreq) Bool.false_ne_true
  | idle | acquire | acquireNap | locked | doneCleared | exiting | terminated =>
    exact absurd (Eq.symm h |>.trans hreq) Bool.false_ne_true

theorem Own.answer (hs : s.Own) (hex : s.Exclusive) (hreq : (s.tasks t).request = true)
    (addr : Option UInt32) :
    ((s.setTask t {s.tasks t with request := false}).found (s.tasks t).host addr).Own := by
  obtain ⟨hheld, hanswer⟩ := (hs.calls t).found hreq addr
  exact hs.write hex hheld (s.subset_found (s.tasks t).host addr) hanswer

end Dns

/-- An answer that comes after its call is over finds no call that looks at `dns_result`. -/
def DnsOp.Timely (s : Dns) : DnsOp → Prop
  | .lateAnswer _ _ => ∀ t, (s.tasks t).phase.exposed = false
  | _ => True

namespace Dns

theorem Own.lateAnswer {s : Dns} (hs : s.Own) (hcalm : ∀ t, (s.tasks t).phase.exposed = false)
    (late : List Host) (host : Host) (addr : Option UInt32) : ({s with late := late}.found host addr).Own where
  calls t := by
    apply (hs.calls t).mono (s.subset_found host addr)
    intro hexposed
    rw [hcalm t] at hexposed
    exact absurd hexposed Bool.false_ne_true
  returned p hp := s.subset_found host addr (hs.returned p hp)

theorem Own.exec {s : Dns} {op : DnsOp} (hs : s.Own) (hex : s.Exclusive) (hop : op.Timely s) :
    (s.exec op).Own := by
  fun_cases exec
  all_goals try exact hs
  · exact hs.setTask rfl
  next t host out ht =>
    have hcall := hs.calls t
    rw [Answered, ht] at hcall
    fun_cases resolve
    all_goals try exact hs
    exact hs.setTask hcall
  next t now reply => exact hs.step hex t now reply
  next t => exact hs.setTask (hs.calls t)
  next t =>
    fun_cases killReady
    all_goals try exact hs
    all_goals
      apply hs.leave
      intro c hphase hreq
      rw [Answered, hphase]
      exact hreq
  next t addr h => exact hs.answer hex h.1 addr
  · exact hs.lateAnswer hop _ _ _
  · exact {hs with}

end Dns

def TimelyStep (s : Dns) (op : DnsOp) (s' : Dns) : Prop := s' = s.exec op ∧ op.Timely s

/-- In a run in which no answer to a call that is over comes while another call looks at
`dns_result`, each address returned with `KSOCK_OK` is one lwIP gave for the name asked. -/
theorem resolved_for_own_name {ops : List DnsOp} {s : Dns} (hrun : Run TimelyStep Dns.init ops s)
    {host : Host} {addr : UInt32} (h : (host, addr) ∈ s.resolved) : (host, addr) ∈ s.reported := by
  have hinv : s.Own ∧ s.Exclusive := by
    apply hrun.invariant (I := fun s => s.Own ∧ s.Exclusive) _ ⟨.init, .init⟩
    rintro s op s' ⟨hown, hex⟩ ⟨rfl, htimely⟩
    exact ⟨hown.exec hex htimely, hex.lockMove (lockMove_exec s op)⟩
  exact hinv.1.returned _ h

def answeredInTime : List DnsOp :=
  [.call 0 (some [97]) (some 0), .run 0 0 .err, .run 0 0 .err, .run 0 0 .err,
    .run 0 0 .inProgress, .run 0 0 .err, .answer 0 (some 1), .finish, .run 0 0 .err, .run 0 0 .err,
    .run 0 0 .err, .run 0 0 .err, .run 0 0 .err]

theorem run_timely (ops : List DnsOp) (h : ∀ op ∈ ops, ∀ i addr, op ≠ .lateAnswer i addr) (s : Dns) :
    Run TimelyStep s ops (ops.foldl exec s) := by
  refine Run.foldl (fun op hop s => ⟨rfl, ?_⟩) s
  cases op with
  | lateAnswer i addr => exact absurd rfl (h _ hop i addr)
  | spawn | call | run | kill | killReady | answer | finish => trivial

theorem resolved_for_own_name_answered :
    ([97], 1) ∈ (answeredInTime.foldl Dns.exec Dns.init).resolved ∧
      ([97], 1) ∈ (answeredInTime.foldl Dns.exec Dns.init).reported := by
  have hresolved : ([97], 1) ∈ (answeredInTime.foldl exec init).resolved := by decide
  refine ⟨hresolved, resolved_for_own_name (run_timely answeredInTime ?_ init) hresolved⟩
  simp [answeredInTime]

def lateForFirst : List DnsOp :=
  [.call 0 (some [97]) (some 0), .run 0 0 .err, .run 0 0 .err, .run 0 0 .err,
    .run 0 0 .inProgress, .run 0 0 .err, .run 0 0 .err, .run 0 5000 .err, .run 0 0 .err,
    .run 0 0 .err, .call 1 (some [98]) (some 0), .run 1 0 .err, .run 1 0 .err, .run 1 0 .err,
    .run 1 5000 .inProgress, .run 1 5000 .err, .lateAnswer 0 (some 1), .finish, .run 1 0 .err,
    .run 1 0 .err, .run 1 0 .err, .run 1 0 .err, .run 1 0 .err]

/-- The second call returns `KSOCK_OK` with the address of the first name. -/
theorem resolved_for_other_name :
    Run DnsStep Dns.init lateForFirst (lateForFirst.foldl Dns.exec Dns.init) ∧
      ([98], 1) ∈ (lateForFirst.foldl Dns.exec Dns.init).resolved ∧
      (lateForFirst.foldl Dns.exec Dns.init).reported = [([97], 1)] :=
  ⟨Run.foldl (by intro _ _ _; rfl) _, by decide, by decide⟩

end Kyuzen.Net
