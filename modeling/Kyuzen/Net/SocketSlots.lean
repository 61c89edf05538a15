import Kyuzen.Net.Socket

/-!
One slot of the socket table over a whole history: the callbacks that arrive with the context
of an earlier connection, and how long the handle of a fresh socket is good for. Generations
may wrap here.
-/

namespace Kyuzen.Net

open Function

theorem bump_range (gen : Int) : 1 ≤ bump gen ∧ bump gen < 2 ^ 31 := by
  have hlt : int32 (gen + 1) < 2 ^ 31 := Int.bmod_lt (by decide)
  unfold bump
  split <;> omega

theorem bump_iterate {gen : Int} (hpos : 1 ≤ gen) (hlt : gen < 2 ^ 31) {n : Nat}
    (hn : n < 2 ^ 31 - 1) :
    bump^[n] gen = if gen + n < 2 ^ 31 then gen + n else gen + n - (2 ^ 31 - 1) := by
  induction n with
  | zero => rw [iterate_zero_apply, if_pos (by omega), Nat.cast_zero, add_zero]
  | succ n ih =>
    rw [iterate_succ_apply', ih (by omega)]
    by_cases hlast : gen + n = 2 ^ 31 - 1
    · rw [if_pos (by omega), hlast, if_neg (by omega)]
      have : bump (2 ^ 31 - 1) = 1 := by decide
      omega
    · split
      · rw [bump_of_lt (by omega) (by omega), if_pos (by omega)]
        omega
      · rw [bump_of_lt (by omega) (by omega), if_neg (by omega)]
        omega

namespace Socks

variable {s s' : Socks} {i j : Slot} {ends : Slot → Prop}

theorem ksockSocket_fresh (hslot : s.freeSlot = some i) {pid : Int} (hpid : 0 ≤ pid)
    (cookie a : Nat) :
    ∃ s', s.ksockSocket pid cookie (some a) = (s', mkHandle (bump (s.socks i).gen) i) ∧
      s'.socks = update s.socks i
        ⟨.alloc, bump (s.socks i).gen, pid, cookie, some a, [], 0, false, -1⟩ ∧
      s'.ctxs = update s.ctxs i (update (s.ctxs i) (bump (s.socks i).gen % 4).toNat
        ⟨bump (s.socks i).gen, some a⟩) ∧
      s'.allocs = update s.allocs i (s.allocs i + 1) ∧
      s'.arg a = some (i, (bump (s.socks i).gen % 4).toNat) := by
  simp only [ksockSocket, if_neg (Int.not_lt.mpr hpid), hslot]
  exact ⟨_, rfl, rfl, rfl, rfl, update_self ..⟩

/-- What a write does to slot `i`. -/
inductive SlotMove (ends : Slot → Prop) (s s' : Socks) (i : Slot) : Prop
  | kept (alike : Alike (s'.socks i) (s.socks i))
      (cookie : (s'.socks i).ownerCookie = (s.socks i).ownerCookie ∨ ends i)
      (allocs : s'.allocs i = s.allocs i) (ctxs : s'.ctxs i = s.ctxs i)
  | closed (used : (s.socks i).state ≠ .free) (ends : ends i)
      (free : (s'.socks i).state = .free) (gen : (s'.socks i).gen = bump (s.socks i).gen)
      (allocs : s'.allocs i = s.allocs i) (ctxs : s'.ctxs i = s.ctxs i)
  | opened (free : (s.socks i).state = .free) (used : (s'.socks i).state ≠ .free)
      (gen : (s'.socks i).gen = bump (s.socks i).gen) (allocs : s'.allocs i = s.allocs i + 1)
      (ctxs : ∃ a, s'.ctxs i = update (s.ctxs i) ((s'.socks i).gen % 4).toNat
        ⟨(s'.socks i).gen, some a⟩)

theorem socks_closeLocked (s : Socks) (i : Slot) :
    (s.closeLocked i).socks i = (s.socks i).close ∧ (s.closeLocked i).ctxs = s.ctxs := by
  unfold closeLocked releasePcb
  split <;> simp [setSock, Sock.close]

theorem Move.slot (h : Move ends s s') (i : Slot) : SlotMove ends s s' i := by
  have same : ∀ {t : Socks}, t.socks i = s.socks i → t.allocs i = s.allocs i →
      t.ctxs i = s.ctxs i → SlotMove ends s t i := fun hsock hallocs hctxs =>
    .kept (hsock ▸ .refl _) (.inl (congrArg Sock.ownerCookie hsock)) hallocs hctxs
  cases h with
  | @set j x hx hpcb hcookie =>
    by_cases hij : i = j
    · subst hij
      refine .kept (alike_setSock hx i) ?_ rfl rfl
      rw [socks_setSock]
      exact hcookie
    · exact same (socks_setSock_ne hij) rfl rfl
  | @detach j a x _ hx _ hcookie =>
    by_cases hij : i = j
    · subst hij
      exact .kept (alike_setSock hx i) (.inl (by simp [detached, socks_setSock, hcookie])) rfl rfl
    · exact same (socks_setSock_ne hij) rfl rfl
  | drop => exact same rfl rfl rfl
  | @close j hused hends =>
    obtain ⟨hself, hctxs⟩ := socks_closeLocked s j
    have hallocs := congrFun (allocs_closeLocked s j) i
    by_cases hij : i = j
    · subst hij
      exact .closed hused hends (state_closeLocked s i) (congrArg Sock.gen hself) hallocs
        (congrFun hctxs i)
    · exact same (socks_closeLocked_ne hij) hallocs (congrFun hctxs i)
  | @alloc j pid cookie a hslot hpid _ =>
    obtain ⟨t, hcall, hsocks, hctxs, hallocs, -⟩ := ksockSocket_fresh hslot hpid cookie a
    rw [hcall]
    by_cases hij : i = j
    · subst hij
      refine .opened (free_of_freeSlot hslot) ?_ ?_ ?_ ⟨a, ?_⟩
      all_goals simp [hsocks, hctxs, hallocs]
    · refine same ?_ ?_ ?_
      all_goals simp [hsocks, hctxs, hallocs, update_of_ne hij]

end Socks

/-! ### Late callbacks -/

/-- A call of `cb_recv`, `cb_connected` or `cb_err`. -/
inductive Callback where
  | recv (a : Nat) (p : Option (List (List UInt8))) (ok : Bool)
  | connected (a : Nat) (ok : Bool)
  | err

/-- What the callback writes into the socket of its context is new there. -/
def Callback.Changes (x : Sock) : Callback → Prop
  | .recv _ none ok => ok = true ∧ x.peerClosed = false
  | .recv a (some chain) ok => ok = true ∧ x.pcb = some a ∧
    x.rxBytes + chain.flatten.length ≤ ksockRxLimit ∧ chain ≠ []
  | .connected a ok => x.pcb = some a ∧ x.state ≠ if ok then .connected else .err
  | .err => x.state ≠ .err ∨ x.pcb ≠ none

namespace Socks

variable {s s' : Socks} {i : Slot}

/-- The sockets behind a callback that carries the context `c`, whatever is registered with
lwIP by then. -/
def late (s : Socks) (c : Option (Slot × Nat)) : Callback → Slot → Sock
  | .recv a p ok => ({s with arg := fun _ => c}.cbRecv a p ok).socks
  | .connected a ok => ({s with arg := fun _ => c}.cbConnected a ok).socks
  | .err => ({s with arg := fun _ => c}.cbErr 0).socks

theorem late_of_cbSlot {c : Option (Slot × Nat)} (h : s.cbSlot c = none) (cb : Callback) :
    s.late c cb = s.socks := by
  have hgate : {s with arg := fun _ => c}.cbSlot c = none := h
  cases cb with
  | recv a p ok =>
    unfold late cbRecv
    dsimp only
    rw [hgate]
    split
    · rfl
    · cases p <;> rfl
  | connected a ok | err => simp only [late, cbConnected, cbErr, hgate]

theorem setSock_eq_iff {x : Sock} : (s.setSock i x).socks = s.socks ↔ x = s.socks i :=
  update_eq_self_iff

theorem late_eq_iff {c : Option (Slot × Nat)} (h : s.cbSlot c = some i) (cb : Callback) :
    s.late c cb = s.socks ↔ ¬ cb.Changes (s.socks i) := by
  have hgate : {s with arg := fun _ => c}.cbSlot c = some i := h
  cases cb with
  | recv a p ok =>
    cases ok with
    | false => cases p <;> simp [late, cbRecv, Callback.Changes]
    | true =>
      cases p with
      | none =>
        simp only [late, cbRecv, hgate, Bool.true_eq_false, if_false]
        refine setSock_eq_iff.trans ?_
        cases s.socks i
        simp [Callback.Changes]
      | some chain =>
        simp only [late, cbRecv, hgate, Bool.true_eq_false, if_false]
        by_cases ha : (s.socks i).pcb = some a
        · rw [if_neg (not_not.mpr ha)]
          refine setSock_eq_iff.trans ?_
          by_cases hroom : (s.socks i).rxBytes + chain.flatten.length ≤ ksockRxLimit
          · rw [Sock.enqueue, if_pos hroom]
            have hrx : chain.take 1 = [] ↔ chain = [] := by cases chain <;> simp
            revert ha hroom
            cases s.socks i
            simp +contextual [Callback.Changes, hrx]
          · rw [Sock.enqueue, if_neg hroom]
            exact iff_of_true rfl fun h => hroom h.2.2.1
        · simp [ha, Callback.Changes]
  | connected a ok =>
    simp only [late, cbConnected, hgate]
    by_cases ha : (s.socks i).pcb = some a
    · rw [if_neg (not_not.mpr ha)]
      refine setSock_eq_iff.trans ?_
      revert ha
      cases s.socks i
      simp +contextual [Callback.Changes, eq_comm]
    · simp [ha, Callback.Changes]
  | err =>
    simp only [late, cbErr, hgate]
    refine setSock_eq_iff.trans ?_
    cases s.socks i
    simp [Callback.Changes, eq_comm]

/-- The slot `n` allocations after the one with generation `gen`, which was number `base`: how
often its generation was bumped since, and that the entry of `gen` in the ring is from the last
allocation that uses this entry. -/
def Since (gen : Int) (base : Nat) (i : Slot) (s : Socks) : Prop :=
  ∃ n j, s.allocs i = base + n ∧ j ≤ n ∧
    (s.socks i).gen = bump^[if (s.socks i).state = .free then 2 * n + 1 else 2 * n] gen ∧
    (s.ctxs i (gen % 4).toNat).gen = bump^[2 * j] gen ∧ bump^[2 * j] gen % 4 = gen % 4 ∧
    ∀ m, j < m → m ≤ n → bump^[2 * m] gen % 4 ≠ gen % 4

variable {gen : Int} {base : Nat}

theorem Since.move (h : Since gen base i s) (hmove : SlotMove ends s s' i) :
    Since gen base i s' := by
  obtain ⟨n, j, hcount, hj, hgen, hctx, hmod, hlast⟩ := h
  cases hmove with
  | kept alike _ allocs ctxs =>
    refine ⟨n, j, allocs.trans hcount, hj, ?_, ctxs ▸ hctx, hmod, hlast⟩
    simpa only [alike.gen, alike.free] using hgen
  | closed used _ free gen' allocs ctxs =>
    refine ⟨n, j, allocs.trans hcount, hj, ?_, ctxs ▸ hctx, hmod, hlast⟩
    rw [gen', hgen, if_neg used, if_pos free, iterate_succ_apply']
  | opened free used gen' allocs ctxs =>
    obtain ⟨a, hctxs⟩ := ctxs
    have hnew : (s'.socks i).gen = bump^[2 * (n + 1)] gen := by
      rw [gen', hgen, if_pos free]
      exact (iterate_succ_apply' bump (2 * n + 1) gen).symm
    have hcount' : s'.allocs i = base + (n + 1) := by omega
    by_cases hk : (gen % 4).toNat = ((s'.socks i).gen % 4).toNat
    · refine ⟨n + 1, n + 1, hcount', le_rfl, by rw [if_neg used, hnew], ?_, ?_, by omega⟩
      · rw [hctxs, hk, update_self, hnew]
      · rw [← hnew]
        omega
    · refine ⟨n + 1, j, hcount', by omega, by rw [if_neg used, hnew], ?_, hmod, fun m hm hle => ?_⟩
      · rw [hctxs, update_of_ne hk, hctx]
      · rcases Nat.le_succ_iff.mp hle with hle | rfl
        · exact hlast m hm hle
        · rw [← hnew]
          omega

theorem Since.run {ops : List SockOp} (hrun : Run SockStep s ops s') (h : Since gen base i s) :
    Since gen base i s' := by
  refine hrun.invariant ?_ h
  rintro s op s' h ⟨rfl, hop⟩
  have hmoves := exec_moves hop
  generalize s.exec op = s' at hmoves ⊢
  induction hmoves with
  | refl => exact h
  | tail _ hmove ih => exact ih.move (hmove.slot i)

/-- The entry in the ring is of the current generation only two allocations later, and not if
the generation has wrapped in between. -/
theorem Since.cbSlot (h : Since gen base i s) (hpos : 1 ≤ gen) (hlt : gen < 2 ^ 31) {n : Nat}
    (hn : s.allocs i = base + n) (hlate : 1 ≤ n) (hring : n < 4) :
    s.cbSlot (some (i, (gen % 4).toNat)) = if n = 2 ∧ gen + 4 < 2 ^ 31 ∧
      (s.socks i).state ≠ .free ∧ (s.ctxs i (gen % 4).toNat).pcb = (s.socks i).pcb
      then some i else none := by
  obtain ⟨n', j, hcount, hj, hgen, hctx, hmod, hlast⟩ := h
  obtain rfl : n' = n := by omega
  rw [Socks.cbSlot]
  by_cases hfree : (s.socks i).state = .free
  · rw [if_pos (.inl hfree), if_neg fun h => h.2.2.1 hfree]
  rw [if_neg hfree, bump_iterate hpos hlt (by omega)] at hgen
  rw [bump_iterate hpos hlt (by omega)] at hctx hmod
  have hcurrent : (s.ctxs i (gen % 4).toNat).gen = (s.socks i).gen ↔ n' = 2 ∧ gen + 4 < 2 ^ 31 := by
    rw [hctx, hgen]
    constructor
    · intro heq
      split_ifs at heq hmod <;> omega
    · rintro ⟨rfl, hwrap⟩
      have hj2 : j = 2 := by
        by_contra hne
        refine hlast 2 (by omega) le_rfl ?_
        rw [bump_iterate hpos hlt (by omega), if_pos (by omega)]
        omega
      rw [hj2]
  rw [if_neg (by rw [not_or]; exact ⟨hfree, by split_ifs at hgen <;> omega⟩)]
  simp only [ne_eq, hcurrent]
  split_ifs <;> first | rfl | tauto

end Socks

/-- A callback that carries the context of an earlier connection leaves every socket as it
is, except two allocations of the slot later: the generation is bumped at the close too, so
that the entry of the ring is the current socket's then. It changes that one if it is open,
has kept its pcb, and the callback has something new for it. -/
theorem late_callback_dropped {s₀ s : Socks} {i : Slot} (hslot : s₀.freeSlot = some i) {pid : Int}
    (hpid : 0 ≤ pid) {cookie a : Nat} {ops : List SockOp}
    (hrun : Run SockStep (s₀.ksockSocket pid cookie (some a)).1 ops s) {n : Nat}
    (hsince : s.allocs i = (s₀.ksockSocket pid cookie (some a)).1.allocs i + n) (hlate : 1 ≤ n)
    (hring : n < 4) (cb : Callback) :
    s.late ((s₀.ksockSocket pid cookie (some a)).1.arg a) cb = s.socks ↔
      ¬ ((n = 2 ∧ bump (s₀.socks i).gen + 4 < 2 ^ 31 ∧ (s.socks i).state ≠ .free ∧
        (s.ctxs i (bump (s₀.socks i).gen % 4).toNat).pcb = (s.socks i).pcb) ∧
        cb.Changes (s.socks i)) := by
  obtain ⟨s₁, hcall, hsocks, hctxs, -, harg⟩ := Socks.ksockSocket_fresh hslot hpid cookie a
  simp only [hcall, harg] at hrun hsince ⊢
  obtain ⟨hpos, hlt⟩ := bump_range (s₀.socks i).gen
  have hnow : Socks.Since (bump (s₀.socks i).gen) (s₁.allocs i) i s₁ := by
    refine ⟨0, 0, rfl, le_rfl, ?_, ?_, rfl, by omega⟩
    all_goals simp [hsocks, hctxs]
  have hgate := (hnow.run hrun).cbSlot hpos hlt hsince hlate hring
  split_ifs at hgate with hhit
  · rw [Socks.late_eq_iff hgate, not_and]
    exact ⟨fun h _ => h, fun h => h hhit⟩
  · exact iff_of_true (Socks.late_of_cbSlot hgate cb) fun h => hhit h.1

def threeConnections : List SockOp :=
  [.close 8 1 10, .socket 1 10 (some 1), .close 24 1 10, .socket 2 20 (some 2)]

/-- Two allocations later `cb_err` with the context of the first connection makes an error of
the third, and an end of data with it closes the third for reading. -/
theorem late_callback_hits : ∃ s s' : Socks, s = (Socks.init.ksockSocket 1 10 (some 0)).1 ∧
      Run SockStep s threeConnections s' ∧ s'.allocs 0 = s.allocs 0 + 2 ∧
      (s'.socks 0).state = .alloc ∧ (s'.socks 0).pcb = some 2 ∧
      (s'.late (s.arg 0) .err 0).state = .err ∧ (s'.late (s.arg 0) .err 0).pcb = none ∧
      (s'.socks 0).peerClosed = false ∧ (s'.late (s.arg 0) (.recv 0 none true) 0).peerClosed = true := by
  refine ⟨_, _, rfl, .cons ⟨rfl, trivial⟩ (.cons ⟨rfl, rfl⟩ (.cons ⟨rfl, trivial⟩
    (.cons ⟨rfl, rfl⟩ (.nil _)))), ?_⟩
  decide

theorem late_callback_dropped_next : ∃ s s' : Socks, s = (Socks.init.ksockSocket 1 10 (some 0)).1 ∧
      Run SockStep s [.close 8 1 10, .socket 2 20 (some 0)] s' ∧
      s'.late (s.arg 0) .err = s'.socks := by
  have hrun : Run SockStep (Socks.init.ksockSocket 1 10 (some 0)).1
      [.close 8 1 10, .socket 2 20 (some 0)] _ := .cons ⟨rfl, trivial⟩ (.cons ⟨rfl, rfl⟩ (.nil _))
  exact ⟨_, _, rfl, hrun, late_callback_dropped (i := 0) (by decide) (by decide) hrun (n := 1)
    (by decide) (by decide) (by decide) .err |>.mpr fun h => absurd h.1.1 (by decide)⟩

/-! ### Fresh handles -/

/-- A step that neither closes nor reowns the socket of slot `i`. -/
def KeepingStep (i : Slot) (s : Socks) (op : SockOp) (s' : Socks) : Prop :=
  SockStep s op s' ∧ ¬ op.Ends s i

namespace Socks

/-- Slot `i` is in use, of one generation, and of one owner. -/
def Owned (gen pid : Int) (cookie : Nat) (i : Slot) (s : Socks) : Prop :=
  (s.socks i).state ≠ .free ∧ (s.socks i).gen = gen ∧ (s.socks i).ownerPid = pid ∧
    (s.socks i).ownerCookie = cookie

variable {gen pid : Int} {cookie : Nat} {i : Slot} {s s' : Socks}

theorem Owned.step {op : SockOp} (h : Owned gen pid cookie i s) (hstep : KeepingStep i s op s') :
    Owned gen pid cookie i s' := by
  obtain ⟨⟨rfl, hop⟩, hspares⟩ := hstep
  have hmoves := exec_moves hop
  generalize s.exec op = s' at hmoves ⊢
  induction hmoves with
  | refl => exact h
  | tail _ hmove ih =>
    obtain ⟨hused, hgen, hpid, hcookie⟩ := ih
    cases hmove.slot i with
    | kept alike cookie =>
      exact ⟨mt alike.free.mp hused, alike.gen.trans hgen, alike.pid.trans hpid,
        (cookie.resolve_right hspares).trans hcookie⟩
    | closed _ ends => exact absurd ends hspares
    | opened free => exact absurd free hused

theorem Owned.resolve (h : Owned gen pid cookie i s) (hgen : 0 < gen) (hpid : 0 ≤ pid) :
    s.resolve (8 * gen + i.val) pid cookie = some i := by
  obtain ⟨hused, rfl, rfl, rfl⟩ := h
  rw [Socks.resolve, if_neg (by omega)]
  rw [handleSlot_eq, handleGen_eq, if_neg hused, if_neg (by omega), if_neg (by simp)]

end Socks

/-- A non-negative result of `ksock_socket` is positive and leads to the new socket until that
is closed or reowned, exactly when the generation of the socket fits beside the slot. -/
theorem fresh_handle_usable {s s' : Socks} {pid h : Int} {cookie : Nat} {pcb : Option Nat}
    (hcall : s.ksockSocket pid cookie pcb = (s', h)) (hh : 0 ≤ h) :
    ∃ i, s.freeSlot = some i ∧
      ((0 < h ∧ ∀ ops s'', Run (KeepingStep i) s' ops s'' → s''.resolve h pid cookie = some i) ↔
        bump (s.socks i).gen < 2 ^ 28) := by
  rcases s.ksockSocket_cases pid cookie pcb with ⟨hpid, i, a, hslot, rfl⟩ | ⟨h', hneg, hcall'⟩
  swap
  · have := congrArg Prod.snd (hcall.symm.trans hcall')
    omega
  obtain ⟨s₁, hcall₁, hsocks, -⟩ := Socks.ksockSocket_fresh hslot hpid cookie a
  obtain ⟨rfl, rfl⟩ := Prod.mk.inj (hcall.symm.trans hcall₁)
  have hsock := congrFun hsocks i
  rw [update_self] at hsock
  obtain ⟨hpos, -⟩ := bump_range (s.socks i).gen
  refine ⟨i, hslot, fun hgood => ?_, fun hlt => ?_⟩
  · have hres := (Socks.of_resolve (hgood.2 [] s' (.nil s'))).2.2.1
    have hmax : int32 (bump (s.socks i).gen * 8) < 2 ^ 31 := Int.bmod_lt (by decide)
    rw [mkHandle, hsock] at hres
    dsimp only at hres
    omega
  · rw [mkHandle_of_lt (by omega) hlt]
    refine ⟨by omega, fun ops s'' hrun => ?_⟩
    have hown : Socks.Owned (bump (s.socks i).gen) pid cookie i s' := by
      rw [Socks.Owned, hsock]
      exact ⟨fun h => (by cases h), rfl, rfl, rfl⟩
    exact (hrun.invariant (fun _ _ _ h => h.step) hown).resolve (by omega) hpid

theorem fresh_handle_usable_first : ∃ i, Socks.init.freeSlot = some i ∧
      ((0 < (8 : Int) ∧ ∀ ops s'', Run (KeepingStep i) (Socks.init.ksockSocket 1 10 (some 0)).1 ops s'' →
          s''.resolve 8 1 10 = some i) ↔ bump (Socks.init.socks i).gen < 2 ^ 28) := by
  have hcall : Socks.init.ksockSocket 1 10 (some 0) =
    ((Socks.init.ksockSocket 1 10 (some 0)).1, 8) := rfl
  exact fresh_handle_usable hcall (by decide)

namespace Socks

/-- No slot is in use, and slot 0 has the generation `gen`. -/
def Unused (gen : Int) (s : Socks) : Prop :=
  (∀ i, (s.socks i).state = .free) ∧ (s.socks 0).gen = gen ∧ s.obtained 0 = s.released 0

variable {gen : Int}

theorem Unused.freeSlot {s : Socks} (h : Unused gen s) : s.freeSlot = some 0 := by
  simp [Socks.freeSlot, List.finRange_succ, h.1]

theorem cleanupSlots_free {s : Socks} {pid : Int} (l : List Slot)
    (h : ∀ i ∈ l, (s.socks i).state = .free) : l.foldl (cleanupSlot pid) s = s := by
  induction l with
  | nil => rfl
  | cons i l ih =>
    rw [List.forall_mem_cons] at h
    rw [List.foldl_cons, cleanupSlot, if_neg fun hown => hown.1 h.1, ih h.2]

theorem Unused.cycle {s : Socks} (h : Unused gen s) :
    ∃ s₁ s', SockStep s (.socket 1 10 (some 0)) s₁ ∧ SockStep s₁ (.cleanup 1) s' ∧
      Unused (bump (bump gen)) s' := by
  have hslot := h.freeSlot
  obtain ⟨hfree, rfl, hout⟩ := h
  obtain ⟨s₁, hs₁⟩ : ∃ s₁, s₁ = s.exec (.socket 1 10 (some 0)) := ⟨_, rfl⟩
  have hopened : ∀ i ≠ 0, (s₁.socks i).state = .free := by
    intro i hi
    simp [hs₁, exec, ksockSocket, hslot, setSock, Function.update_of_ne hi, hfree]
  have hallfree : ∀ i, ((s₁.closeLocked 0).socks i).state = .free := by
    intro i
    by_cases hi : i = 0
    · rw [hi, state_closeLocked]
    · rw [socks_closeLocked_ne hi, hopened i hi]
  have hown : (s₁.socks 0).state ≠ .free ∧ (s₁.socks 0).ownerPid = 1 := by
    simp [hs₁, exec, ksockSocket, hslot, setSock]
  have hclose : s₁.exec (.cleanup 1) = s₁.closeLocked 0 := by
    rw [exec, netProcessCleanup, if_neg (by decide), List.finRange_succ, List.foldl_cons,
      cleanupSlot, if_pos hown, cleanupSlots_free _ fun i _ => hallfree i]
  refine ⟨_, _, ⟨hs₁, hout⟩, ⟨hclose.symm, trivial⟩, hallfree, ?_⟩
  simp [hs₁, exec, ksockSocket, hslot, setSock, closeLocked, releasePcb, Sock.close, hout]

theorem Unused.cycles {gen : Nat} {s : Socks} (h : Unused gen s) (n : Nat)
    (hn : gen + 2 * n < 2 ^ 31) : ∃ ops s', Run SockStep s ops s' ∧ Unused ↑(gen + 2 * n) s' := by
  induction n generalizing gen s with
  | zero => exact ⟨[], s, .nil s, h⟩
  | succ n ih =>
    obtain ⟨s₁, s₂, hopen, hexit, h₁⟩ := h.cycle
    have hnext : bump (gen : Int) = gen + 1 := bump_of_lt (by omega) (by omega)
    rw [hnext, bump_of_lt (by omega) (by omega)] at h₁
    obtain ⟨ops, s', hrest, h'⟩ := @ih (gen + 2) s₂ h₁ (by omega)
    have hsum : gen + 2 * (n + 1) = gen + 2 + 2 * n := by omega
    exact ⟨_, s', .cons hopen (.cons hexit hrest), hsum ▸ h'⟩

end Socks

/-- After 2^28 sockets in slot 0 the next one has the generation 2^29 + 1: its handle is 8,
which leads nowhere. -/
theorem fresh_handle_lost : ∃ ops s s', Run SockStep Socks.init ops s ∧
      s.ksockSocket 2 20 (some 0) = (s', 8) ∧ s'.resolve 8 2 20 = none := by
  have hinit : Socks.Unused (0 : Nat) Socks.init := ⟨fun _ => rfl, rfl, rfl⟩
  obtain ⟨ops, s, hrun, hs⟩ := hinit.cycles (2 ^ 28) (by decide)
  obtain ⟨s', hcall, hsocks, -⟩ := Socks.ksockSocket_fresh hs.freeSlot (by decide : (0 : Int) ≤ 2) 20 0
  rw [hs.2.1] at hcall hsocks
  refine ⟨ops, s, s', hrun, hcall, ?_⟩
  have hslot : handleSlot 8 = 0 := rfl
  rw [Socks.resolve, if_neg (by decide), hslot, hsocks, update_self]
  decide

end Kyuzen.Net
