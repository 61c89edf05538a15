import Kyuzen.Shell.Users

/-!
The command shell of `shell_core.c`: the registry that `shell_init` builds from
`g_builtins`, the dispatcher, and the commands that change the shell itself (`sudo` and
`adduser`). What the other commands and external programs do is outside the shell; only
their status comes back. `ran` and `granted` are no part of the program: they say which
handlers have run, with whose uid, and whether inside a `run_elevated` whose password was
accepted.
-/

namespace Kyuzen.Shell

open List Option

inductive Handler where
  | help | clear | echo | ls | tree | baca | hapus | mkdir | fetch | neofetch | sched | time
  | start | ping | installApp | nettest | whoami | id | users | df | uname | wait | jobs
  | kill | reap | adduser | format | logout | sudoCmd | shutdown | restart
  deriving DecidableEq, Repr

inductive Status where
  | ok | err | exit | askInput
  deriving DecidableEq, Repr

inductive Pending where
  | none | sudoPassword | adduser
  deriving DecidableEq, Repr

/-- `shell_cmd_entry_t` without its description. -/
structure Entry where
  name : Text
  handler : Handler
  needSudo : Bool
  deriving DecidableEq

/-- `g_builtins`. -/
def builtins : List Entry :=
  [⟨lit "help", .help, false⟩, ⟨lit "clear", .clear, false⟩, ⟨lit "echo", .echo, false⟩,
    ⟨lit "ls", .ls, false⟩, ⟨lit "tree", .tree, false⟩, ⟨lit "baca", .baca, false⟩,
    ⟨lit "hapus", .hapus, false⟩, ⟨lit "mkdir", .mkdir, false⟩, ⟨lit "fetch", .fetch, false⟩,
    ⟨lit "neofetch", .neofetch, false⟩, ⟨lit "sched", .sched, false⟩, ⟨lit "time", .time, false⟩,
    ⟨lit "start", .start, false⟩, ⟨lit "ping", .ping, false⟩,
    ⟨lit "install_app", .installApp, false⟩, ⟨lit "nettest", .nettest, false⟩,
    ⟨lit "whoami", .whoami, false⟩, ⟨lit "id", .id, false⟩, ⟨lit "users", .users, false⟩,
    ⟨lit "df", .df, false⟩, ⟨lit "uname", .uname, false⟩, ⟨lit "wait", .wait, false⟩,
    ⟨lit "jobs", .jobs, false⟩, ⟨lit "kill", .kill, false⟩, ⟨lit "reap", .reap, false⟩,
    ⟨lit "cat", .baca, false⟩, ⟨lit "rm", .hapus, false⟩, ⟨lit "date", .time, false⟩,
    ⟨lit "adduser", .adduser, true⟩, ⟨lit "format", .format, true⟩,
    ⟨lit "logout", .logout, false⟩, ⟨lit "sudo", .sudoCmd, false⟩,
    ⟨lit "shutdown", .shutdown, true⟩, ⟨lit "restart", .restart, true⟩,
    ⟨lit "reboot", .restart, true⟩]

open Entry

/-- The commands whose entry in `g_builtins` has `sudo = 1`. -/
def privileged : List Text := (builtins.filter needSudo).map name

structure Ran where
  name : Text
  uid : UInt32
  granted : Bool
  deriving DecidableEq

structure State where
  cmds : List Entry
  pending : Pending
  elevated : Bool
  pendingLine : Text
  pendingArg : Text
  uid : UInt32
  granted : Bool
  ran : List Ran

/-- What the commands outside the shell and the pipelines answer. -/
structure Env where
  answer : Handler → List Text → Status
  pipeline : List Text → Status

/-! ## The registry -/

def shellRegisterCommand (sh : State) (name : Text) (fn : Handler) : State :=
  if sh.cmds.length ≥ 48 ∨ (sh.cmds.any fun c => c.name = name) then sh
  else {sh with cmds := sh.cmds ++ [⟨name, fn, false⟩]}

/-- `shell_init`, in a process with this uid. -/
def shellInit (uid : UInt32) : State :=
  builtins.foldl (fun sh e => shellRegisterCommand sh e.name e.handler)
    ⟨[], .none, false, [], [], uid, false, []⟩

/-! ## A line -/

def space : UInt8 := 32

def words : Text → List Text
  | [] => []
  | c :: s =>
    if c = space then words s
    else if s.head? = none ∨ s.head? = some space then [c] :: words s
    else
      match words s with
      | [] => [[c]]
      | w :: ws => (c :: w) :: ws

/-- `argv` of `shell_run_simple` for `n` slots. No zero is put behind the word of the last
slot, so that it holds the rest of the line. -/
def shellArgv : Nat → Text → List Text
  | 0, _ => []
  | n + 1, text =>
    let rest := text.dropWhile (· = space)
    if rest = [] then []
    else if n = 0 then [rest]
    else rest.takeWhile (· ≠ space) :: shellArgv n (rest.dropWhile (· ≠ space))

/-- The line buffer of `shell_execute`: spaces cut at both ends, 255 bytes at most. -/
def lineBuffer (line : Text) : Text :=
  (((line.dropWhile (· = space)).take 255).reverse.dropWhile (· = space)).reverse

/-- `|`, `<` or `>`. -/
def isOpChar (c : UInt8) : Bool := c = 124 ∨ c = 60 ∨ c = 62

/-- `op_is_any`: a word that is `|`, `<`, `>` or `>>`. -/
def isOp (w : Text) : Bool := w = [124] ∨ w = [60] ∨ w = [62] ∨ w = [62, 62]

/-- A line that does not reach the dispatcher has a status; the others have the text that
`shell_run_simple` gets. -/
inductive Parsed where
  | status (st : Status)
  | simple (text : Text)

/-- `shell_run_complex`. Its own pass over the words has put a zero behind the first one,
so that without an operator only that word is left for `shell_run_simple`. -/
def shellRunComplex (env : Env) (buf : Text) : Parsed :=
  let ws := words buf
  if ws.length > 64 then .status .err
  else if ws.any isOp then .status (env.pipeline ws)
  else .simple (ws.headD [])

def parseLine (env : Env) (line : Text) : Parsed :=
  let buf := lineBuffer line
  if buf = [] then .status .ok
  else if buf.any isOpChar then shellRunComplex env buf
  else .simple buf

/-- The command that a line names, if it reaches the dispatcher. -/
def commandWord (env : Env) (line : Text) : Option Text :=
  match parseLine env line with
  | .status _ => none
  | .simple text => (shellArgv 16 text).head?

/-! ## Commands -/

/-- `sys_set_uid`: only root may change its uid. -/
def sysSetUid (uid want : UInt32) : Option UInt32 := if uid = 0 then some want else none

def runElevated (exec : State → Text → Status × State) (sh : State) (line : Text) :
    Status × State :=
  match if sh.uid ≠ 0 then sysSetUid sh.uid 0 else some sh.uid with
  | none => (.err, sh)
  | some uid =>
    let r := exec {sh with uid := uid, elevated := true} line
    let back := if sh.uid ≠ 0 then (sysSetUid r.2.uid sh.uid).getD r.2.uid else r.2.uid
    (r.1, {r.2 with uid := back, elevated := false})

/-- The inner line of `sudo`: the other words with a space between them. -/
def joinArgs (args : List Text) : Text := ([space].intercalate args).take 255

def cmdSudo (exec : State → Text → Status × State) (sh : State) (args : List Text) :
    Status × State :=
  if args = [] then (.err, sh)
  else
    let sh := {sh with pendingLine := joinArgs args}
    if sh.uid = 0 then runElevated exec sh sh.pendingLine
    else (.askInput, {sh with pending := .sudoPassword})

def cmdAdduser (sh : State) : List Text → Status × State
  | [] => (.err, sh)
  | name :: _ => (.askInput, {sh with pendingArg := name.take 31, pending := .adduser})

def callHandler (env : Env) (exec : State → Text → Status × State) (sh : State) (fn : Handler)
    (args : List Text) : Status × State :=
  match fn with
  | .sudoCmd => cmdSudo exec sh args
  | .adduser => cmdAdduser sh args
  | fn => (env.answer fn args, sh)

def shellRunSimple (env : Env) (exec : State → Text → Status × State) (sh : State) (text : Text) :
    Status × State :=
  match shellArgv 16 text with
  | [] => (.ok, sh)
  | name :: args =>
    match sh.cmds.find? fun c => c.name = name with
    | none => (.err, sh)
    | some c =>
      if c.needSudo = true ∧ sh.elevated = false ∧ sh.uid ≠ 0 then (.err, sh)
      else
        callHandler env exec {sh with ran := ⟨c.name, sh.uid, sh.granted⟩ :: sh.ran} c.handler args

/-- `shell_execute` with a bound on how deep `sudo` may be nested. -/
def shellExecuteLoop (env : Env) : Nat → State → Text → Status × State
  | 0, sh, _ => (.err, sh)
  | depth + 1, sh, line =>
    match parseLine env line with
    | .status st => (st, sh)
    | .simple text => shellRunSimple env (shellExecuteLoop env depth) sh text

/-- `shell_execute`. A line has 255 bytes and a nested line is shorter. -/
def shellExecute (env : Env) (sh : State) (line : Text) : Status × State :=
  shellExecuteLoop env 256 sh line

/-- `current_password_match`, when `users.sys` holds this (or does not exist). -/
def passwordMatch (users : Option Text) (uid : UInt32) (pw : Text) : Bool :=
  match users with
  | none => false
  | some file => currentPasswordMatch file uid pw

def shellSupplyInput (env : Env) (users : Option Text) (sh : State) (line : Text) :
    Status × State :=
  match sh.pending with
  | .none => (.err, sh)
  | .sudoPassword =>
    let sh := {sh with pending := .none}
    if passwordMatch users sh.uid line = false then (.err, sh)
    else
      let r := runElevated (shellExecute env) {sh with granted := true} sh.pendingLine
      (r.1, {r.2 with granted := false})
  | .adduser => (if line = [] then .err else .ok, {sh with pending := .none})

/-- A line for the shell. A password prompt finds `users.sys` as it is then. -/
inductive ShellOp where
  | execute (line : Text)
  | supply (users : Option Text) (line : Text)

def perform (env : Env) (sh : State) : ShellOp → State
  | .execute line => (shellExecute env sh line).2
  | .supply users line => (shellSupplyInput env users sh line).2

def session (env : Env) (uid : UInt32) (ops : List ShellOp) : State :=
  ops.foldl (perform env) (shellInit uid)

/-- Every privileged handler ran for root, or after a password was accepted. -/
def State.Guarded (sh : State) : Prop :=
  ∀ e ∈ sh.ran, e.name ∈ privileged → e.uid = 0 ∨ e.granted = true

/-! ## Nested lines are shorter -/

def spread (ws : List Text) : Nat := (ws.map fun w => w.length + 1).sum

variable {text : Text} {exec : State → Text → Status × State}

theorem spread_cons (w : Text) (ws : List Text) : spread (w :: ws) = w.length + 1 + spread ws :=
  sum_cons

theorem spread_words (s : Text) : spread (words s) ≤ s.length + 1 ∧
      (s.head? = none ∨ s.head? = some space → spread (words s) ≤ s.length) := by
  induction s with
  | nil => exact ⟨Nat.zero_le _, fun _ => le_rfl⟩
  | cons c s ih =>
    rw [words]
    split
    next => exact ⟨Nat.le_succ_of_le ih.1, fun _ => ih.1⟩
    next hc =>
      refine ⟨?_, fun h => ?_⟩
      · rw [length_cons]
        split
        next hend =>
          have := ih.2 hend
          rw [spread_cons, length_singleton]
          omega
        split
        next =>
          rw [spread_cons, length_singleton, show spread [] = 0 from rfl]
          omega
        next w ws hws =>
          have := ih.1
          rw [hws, spread_cons] at this
          rw [spread_cons, length_cons]
          omega
      · rcases h with h | h
        · exact absurd h (some_ne_none c)
        · exact absurd (some.inj h) hc

theorem length_joinArgs {args : List Text} (h : args ≠ []) :
    (joinArgs args).length + 1 ≤ spread args := by
  have hjoin : ([space].intercalate args).length + 1 = spread args := by
    induction args with
    | nil => exact absurd rfl h
    | cons w ws ih =>
      cases ws with
      | nil => simp [spread]
      | cons v vs =>
        rw [intercalate_cons_cons, length_append, length_append, spread_cons,
          ← ih (cons_ne_nil _ _), length_singleton]
        omega
  rw [← hjoin]
  exact Nat.succ_le_succ (length_take_le' _ _)

theorem spread_shellArgv (n : Nat) (s : Text) :
    spread (shellArgv n s) ≤ (s.dropWhile (· = space)).length + 1 := by
  induction n generalizing s with
  | zero => exact Nat.zero_le _
  | succ n ih =>
    rw [shellArgv]
    generalize s.dropWhile (· = space) = rest
    split
    · exact Nat.zero_le _
    split
    · exact le_rfl
    next hn =>
      have hlength := congrArg length (takeWhile_append_dropWhile (p := (· ≠ space)) (l := rest))
      have hhead := head?_dropWhile_not (· ≠ space) rest
      have htail := ih (rest.dropWhile (· ≠ space))
      rw [spread_cons]
      rw [length_append] at hlength
      generalize rest.dropWhile (· ≠ space) = after at hlength hhead htail ⊢
      cases after with
      | nil =>
        have hnone : shellArgv n [] = [] := by cases n <;> rfl
        rw [hnone, show spread [] = 0 from rfl]
        omega
      | cons c l =>
        -- the space behind the word is dropped before the next one
        have hskip : (c :: l).dropWhile (· = space) = l.dropWhile (· = space) :=
          dropWhile_cons_of_pos (by simpa using hhead)
        have hle := (dropWhile_sublist (l := l) (· = space)).length_le
        rw [hskip] at htail
        rw [length_cons] at hlength
        omega

theorem length_inner {name : Text} {args : List Text} (hargv : shellArgv 16 text = name :: args)
    (hargs : args ≠ []) : (joinArgs args).length < text.length := by
  have hwhole := spread_shellArgv 16 text
  have hdrop := (dropWhile_sublist (l := text) (· = space)).length_le
  have hjoin := length_joinArgs hargs
  rw [hargv, spread_cons] at hwhole
  omega

theorem length_lineBuffer (line : Text) : (lineBuffer line).length ≤ line.length := by
  rw [lineBuffer, length_reverse]
  refine le_trans (dropWhile_sublist _).length_le ?_
  rw [length_reverse]
  exact le_trans (length_take_le' _ _) (dropWhile_sublist _).length_le

theorem length_simple {env : Env} {line : Text} (h : parseLine env line = .simple text) :
    text.length ≤ (lineBuffer line).length := by
  rw [parseLine] at h
  split at h
  · exact nomatch h
  split at h
  · rw [shellRunComplex] at h
    split at h
    · exact nomatch h
    split at h
    · exact nomatch h
    rw [← Parsed.simple.inj h]
    have hwords := (spread_words (lineBuffer line)).1
    cases hw : words (lineBuffer line) with
    | nil => exact Nat.zero_le _
    | cons w ws =>
      rw [hw, spread_cons] at hwords
      rw [headD_cons]
      omega
  · rw [← Parsed.simple.inj h]

theorem shellRunSimple_congr {env : Env} {exec' : State → Text → Status × State}
    (h : ∀ sh line, line.length < text.length → exec sh line = exec' sh line) (sh : State) :
    shellRunSimple env exec sh text = shellRunSimple env exec' sh text := by
  unfold shellRunSimple
  split
  · rfl
  next name args hwords =>
    split
    · rfl
    split
    · rfl
    unfold callHandler
    split
    · unfold cmdSudo
      split
      · rfl
      next hargs =>
        dsimp only
        split
        · unfold runElevated
          simp only [h _ (joinArgs args) (length_inner hwords hargs)]
        · rfl
    · rfl
    · rfl

/-- More nesting than a line can hold changes nothing. -/
theorem shellExecuteLoop_enough {env : Env} {depth : Nat} {line : Text}
    (h : (lineBuffer line).length < depth) (sh : State) :
    shellExecuteLoop env depth sh line = shellExecuteLoop env (depth + 1) sh line := by
  induction depth generalizing line sh with
  | zero => exact absurd h (Nat.not_lt_zero _)
  | succ depth ih =>
    rw [shellExecuteLoop, shellExecuteLoop]
    split
    · rfl
    next text hparse =>
      apply shellRunSimple_congr
      intro sh inner hinner
      apply ih
      have htext := length_simple hparse
      have hbuffer := length_lineBuffer inner
      omega

theorem length_lineBuffer_lt (line : Text) : (lineBuffer line).length < 256 := by
  rw [lineBuffer, length_reverse]
  refine Nat.lt_succ_of_le (le_trans (dropWhile_sublist _).length_le ?_)
  rw [length_reverse]
  exact length_take_le _ _

/-- `shell_execute` is `shell_run_simple` with itself for the inner lines. -/
theorem shellExecute_eq (env : Env) (sh : State) (line : Text) : shellExecute env sh line =
      match parseLine env line with
      | .status st => (st, sh)
      | .simple text => shellRunSimple env (shellExecute env) sh text := by
  rw [shellExecute, shellExecuteLoop_enough (length_lineBuffer_lt line), shellExecuteLoop]
  rfl

/-! ## Sessions of root -/

structure State.Root (sh : State) : Prop where
  uid : sh.uid = 0
  ran : ∀ e ∈ sh.ran, e.uid = 0

namespace State.Root

variable {env : Env} {exec : State → Text → Status × State} {sh : State}

theorem runElevated (hexec : ∀ sh line, sh.Root → (exec sh line).2.Root) (hs : sh.Root)
    (line : Text) : (runElevated exec sh line).2.Root := by
  unfold Shell.runElevated
  rw [if_neg (fun h => h hs.uid)]
  dsimp only
  rw [if_neg (fun h => h hs.uid)]
  have h := hexec {sh with uid := sh.uid, elevated := true} line {hs with}
  exact {h with}

section
variable (hexec : ∀ sh line, sh.Root → (exec sh line).2.Root) (hs : sh.Root)
include hexec hs

theorem callHandler
    (fn : Handler) (args : List Text) : (callHandler env exec sh fn args).2.Root := by
  fun_cases Shell.callHandler
  · fun_cases cmdSudo
    · exact hs
    · have hline : State.Root {sh with pendingLine := joinArgs args} := {hs with}
      exact hline.runElevated hexec _
    · exact {hs with}
  · cases args with
    | nil => exact hs
    | cons name _ => exact {hs with}
  · exact hs

theorem shellRunSimple (text : Text) : (shellRunSimple env exec sh text).2.Root := by
  fun_cases Shell.shellRunSimple
  all_goals try exact hs
  apply callHandler hexec
  refine ⟨hs.uid, fun e he => ?_⟩
  rcases mem_cons.mp he with rfl | he
  · exact hs.uid
  · exact hs.ran e he

end

theorem shellExecuteLoop (depth : Nat) (hs : sh.Root) (line : Text) :
    (shellExecuteLoop env depth sh line).2.Root := by
  induction depth generalizing sh line with
  | zero => exact hs
  | succ depth ih =>
    rw [Shell.shellExecuteLoop]
    split
    · exact hs
    · exact hs.shellRunSimple (fun sh line hs => ih hs line) _

theorem shellSupplyInput (hs : sh.Root) (users : Option Text) (line : Text) :
    (shellSupplyInput env users sh line).2.Root := by
  unfold Shell.shellSupplyInput
  split
  · exact hs
  · dsimp only
    split
    · exact {hs with}
    · have hline : State.Root {sh with pending := .none, granted := true} := {hs with}
      have hexec : ∀ (sh : State) line, sh.Root → (shellExecute env sh line).2.Root :=
        fun _ line hs => hs.shellExecuteLoop 256 line
      have h := hline.runElevated hexec sh.pendingLine
      exact {h with}
  · exact {hs with}

theorem perform (hs : sh.Root) (op : ShellOp) : (perform env sh op).Root := by
  cases op with
  | execute line => exact hs.shellExecuteLoop 256 line
  | supply users line => exact hs.shellSupplyInput users line

theorem run (hs : sh.Root) (ops : List ShellOp) : (ops.foldl (Shell.perform env) sh).Root := by
  induction ops generalizing sh with
  | nil => exact hs
  | cons op ops ih => exact ih (hs.perform op)

end State.Root

/-! ## Sessions of another user -/

/-- An entry as `shell_register_command` stores it: the flag is cleared. -/
def Entry.cleared (e : Entry) : Entry := ⟨e.name, e.handler, false⟩

/-- The registry of `shell_init`. -/
def registry : List Entry := builtins.map cleared

theorem foldl_shellRegisterCommand {l : List Entry} {sh : State}
    (hnodup : (sh.cmds.map name ++ l.map name).Nodup)
    (hlen : sh.cmds.length + l.length ≤ 48) :
    l.foldl (fun sh e => shellRegisterCommand sh e.name e.handler) sh =
      {sh with cmds := sh.cmds ++ l.map cleared} := by
  induction l generalizing sh with
  | nil => simp
  | cons e l ih =>
    have hfresh : ∀ c ∈ sh.cmds, c.name ≠ e.name := by
      intro c hc heq
      have hdisjoint := (nodup_append.mp hnodup).2.2
      exact hdisjoint _ (List.mem_map_of_mem hc) _ (.head _) heq
    have hfree : ¬ (sh.cmds.length ≥ 48 ∨ (sh.cmds.any fun c => c.name = e.name) = true) := by
      rw [length_cons] at hlen
      simp only [List.any_eq_true, decide_eq_true_eq, not_or, not_exists, not_and]
      exact ⟨by omega, hfresh⟩
    rw [foldl_cons, shellRegisterCommand, if_neg hfree, ih]
    · simp [cleared]
    · simpa using hnodup
    · rw [length_cons] at hlen
      rw [length_append, length_singleton]
      omega

/-- `shell_init` registers every builtin, without its flag. -/
theorem shellInit_eq (uid : UInt32) :
    shellInit uid = ⟨registry, .none, false, [], [], uid, false, []⟩ := by
  have hnodup : (builtins.map name).Nodup := by decide +kernel
  have hlen : builtins.length ≤ 48 := by decide
  exact foldl_shellRegisterCommand hnodup ((zero_add _).trans_le hlen)

theorem ran_shellInit (uid : UInt32) : (shellInit uid).ran = [] := by rw [shellInit_eq]

/-- A shell of a user who is not root, between two lines. -/
structure State.User (u : UInt32) (sh : State) : Prop where
  cmds : sh.cmds = registry
  uid : sh.uid = u
  notRoot : u ≠ 0
  notGranted : sh.granted = false

theorem user_shellInit {uid : UInt32} (h : uid ≠ 0) : (shellInit uid).User uid := by
  rw [shellInit_eq]
  exact ⟨rfl, rfl, h, rfl⟩

def called (env : Env) (uid : UInt32) : ShellOp → List Ran
  | .execute line =>
    match (commandWord env line).bind fun w => registry.find? fun c => c.name = w with
    | none => []
    | some c => [⟨c.name, uid, false⟩]
  | .supply _ _ => []

variable {env : Env} {uid : UInt32} {sh : State}

/-- Without root there is no elevation: `sys_set_uid` refuses. -/
theorem runElevated_user (h : sh.uid ≠ 0) (line : Text) :
    runElevated exec sh line = (.err, sh) := by
  unfold runElevated sysSetUid
  rw [if_pos h, if_neg h]

theorem callHandler_user (hs : sh.User uid) (fn : Handler) (args : List Text) :
    (callHandler env exec sh fn args).2.User uid ∧ (callHandler env exec sh fn args).2.ran = sh.ran := by
  unfold callHandler
  split
  · unfold cmdSudo
    split
    · exact ⟨hs, rfl⟩
    rw [if_neg (hs.uid ▸ hs.notRoot)]
    exact ⟨{hs with}, rfl⟩
  · cases args with
    | nil => exact ⟨hs, rfl⟩
    | cons name _ => exact ⟨{hs with}, rfl⟩
  · exact ⟨hs, rfl⟩

theorem needSudo_registry {c : Entry} (h : c ∈ registry) : c.needSudo = false := by
  obtain ⟨e, _, rfl⟩ := mem_map.mp h
  rfl

section
variable (hs : sh.User uid)
include hs

/-- One line: the handler that it names runs, whatever its entry in `g_builtins` says. -/
theorem execute_user (line : Text) : (shellExecute env sh line).2.User uid ∧
      (shellExecute env sh line).2.ran = called env uid (.execute line) ++ sh.ran := by
  rw [shellExecute_eq, called, commandWord]
  split
  · exact ⟨hs, rfl⟩
  next text _ =>
    unfold shellRunSimple
    split
    next hnil =>
      rw [hnil]
      exact ⟨hs, rfl⟩
    next name args hwords =>
      rw [hwords, head?_cons, bind_some, hs.cmds]
      cases hfind : registry.find? fun c => c.name = name with
      | none => exact ⟨hs, rfl⟩
      | some c =>
        have hflag := needSudo_registry (mem_of_find?_eq_some hfind)
        dsimp only
        rw [if_neg (fun h => absurd (h.1.symm.trans hflag) Bool.noConfusion), hs.uid, hs.notGranted]
        refine callHandler_user ?_ c.handler args
        exact ⟨rfl, rfl, hs.notRoot, rfl⟩

theorem supply_user (users : Option Text) (line : Text) :
    (shellSupplyInput env users sh line).2.User uid ∧
      (shellSupplyInput env users sh line).2.ran = sh.ran := by
  unfold shellSupplyInput
  split
  · exact ⟨hs, rfl⟩
  · dsimp only
    split
    · exact ⟨{hs with}, rfl⟩
    · rw [runElevated_user (hs.uid ▸ hs.notRoot)]
      exact ⟨{hs with notGranted := rfl}, rfl⟩
  · exact ⟨{hs with}, rfl⟩

theorem perform_user (op : ShellOp) :
    (perform env sh op).User uid ∧ (perform env sh op).ran = called env uid op ++ sh.ran := by
  cases op with
  | execute line => exact execute_user hs line
  | supply users line => exact supply_user hs users line

theorem mem_ran_user (ops : List ShellOp) (e : Ran) :
    e ∈ (ops.foldl (perform env) sh).ran ↔ e ∈ sh.ran ∨ ∃ op ∈ ops, e ∈ called env uid op := by
  induction ops generalizing sh with
  | nil => simp
  | cons op ops ih =>
    have hstep : (perform env sh op).User uid ∧ _ := perform_user hs op
    obtain ⟨huser, hran⟩ := hstep
    rw [foldl_cons, ih huser, hran, mem_append, exists_mem_cons_iff]
    tauto

end

theorem find?_name {w : Text} {c : Entry}
    (h : (registry.find? fun c => c.name = w) = some c) : c.name = w := by
  have hname := find?_some h
  exact of_decide_eq_true hname

theorem registered_of_privileged :
    ∀ w ∈ privileged, (registry.find? fun c => c.name = w).isSome = true := by decide +kernel

/-- The handlers of privileged commands run for root or after an accepted password
exactly when the user is root or gives no line that names such a command. -/
theorem privileged_guarded_iff (env : Env) (uid : UInt32) (ops : List ShellOp) :
    (session env uid ops).Guarded ↔
      uid = 0 ∨ ∀ line, .execute line ∈ ops → ∀ w ∈ commandWord env line, w ∉ privileged := by
  by_cases hroot : uid = 0
  · refine iff_of_true (fun e he _ => .inl ?_) (.inl hroot)
    have hstart : (shellInit uid).Root := by
      rw [shellInit_eq]
      exact ⟨hroot, nofun⟩
    exact (hstart.run ops).ran e he
  have hstart := user_shellInit hroot
  constructor
  · intro hguarded
    refine .inr fun line hline w hw hpriv => ?_
    obtain ⟨c, hfind⟩ := isSome_iff_exists.mp (registered_of_privileged w hpriv)
    have hname := find?_name hfind
    have hcalled : (⟨c.name, uid, false⟩ : Ran) ∈ called env uid (.execute line) := by
      rw [called, mem_def.mp hw, bind_some, hfind]
      exact mem_singleton.mpr rfl
    have hmem := (mem_ran_user hstart ops _).mpr (.inr ⟨_, hline, hcalled⟩)
    rcases hguarded _ hmem (hname ▸ hpriv) with h | h
    · exact hroot h
    · exact absurd h Bool.false_ne_true
  rintro (h | hlines) e he hpriv
  · exact absurd h hroot
  rcases (mem_ran_user hstart ops e).mp he with he | ⟨op, hop, he⟩
  · rw [ran_shellInit] at he
    exact nomatch he
  cases op with
  | supply _ _ => exact nomatch he
  | execute line =>
    rw [called] at he
    cases hword : commandWord env line with
    | none =>
      rw [hword] at he
      exact nomatch he
    | some w =>
      rw [hword, bind_some] at he
      cases hfind : registry.find? fun c => c.name = w with
      | none =>
        rw [hfind] at he
        exact nomatch he
      | some c =>
        rw [hfind] at he
        rw [mem_singleton.mp he, find?_name hfind] at hpriv
        exact absurd hpriv (hlines line hop w hword)

/-- A user without root types `format`, and the handler runs. -/
theorem format_without_sudo :
    ¬ (session ⟨fun _ _ => .ok, fun _ => .ok⟩ 1000 [.execute (lit "format")]).Guarded := by
  intro h
  have hcalled : (⟨lit "format", 1000, false⟩ : Ran) ∈
      called ⟨fun _ _ => .ok, fun _ => .ok⟩ 1000 (.execute (lit "format")) := by
    decide +kernel
  have hran := (mem_ran_user (user_shellInit (by decide)) [.execute (lit "format")] _).mpr
    (.inr ⟨_, mem_singleton.mpr rfl, hcalled⟩)
  rcases h _ hran (by decide +kernel) with huid | hgranted
  · exact absurd huid (by decide)
  · exact absurd hgranted Bool.false_ne_true

/-- Nothing typed changes whom a session runs for: `sudo` elevates no one, whatever
the password. -/
theorem session_keeps_uid (env : Env) (uid : UInt32) (ops : List ShellOp) :
    (session env uid ops).uid = uid ∧ ∀ e ∈ (session env uid ops).ran, e.uid = uid := by
  by_cases hroot : uid = 0
  · have hend : (session env uid ops).Root := by
      refine State.Root.run ?_ ops
      rw [shellInit_eq]
      exact ⟨hroot, by simp⟩
    exact ⟨hend.uid.trans hroot.symm, fun e he => (hend.ran e he).trans hroot.symm⟩
  have hstart := user_shellInit hroot
  have hend : (session env uid ops).User uid :=
    foldlRecOn (motive := State.User uid) ops _ hstart fun _ hs op _ => (perform_user hs op).1
  refine ⟨hend.uid, fun e he => ?_⟩
  rw [session, mem_ran_user hstart, ran_shellInit] at he
  obtain ⟨op, -, he⟩ := he.resolve_left not_mem_nil
  cases op <;> grind [called]

end Kyuzen.Shell
