import Kyuzen.Base.Ring
import Kyuzen.Base.Run
import Kyuzen.Drivers.Virtqueue

/-!
The rings of a virtqueue. `virtq_submit` publishes a chain in the avail ring, from which the
device takes the chains in order, and `virtq_poll` reads a used ring that may hold anything.
-/

namespace Kyuzen.Drivers

open Function List

/-- `VG_VQ_MAX_SIZE` -/
def vgVqMaxSize : Nat := 256

/-- `VGPU_CMD_MAX_PAGES` -/
def vgpuCmdMaxPages : Nat := 16

/-- The descriptors that `n` turns of the loop of `virtq_submit` take. -/
def popped (freeNext : Nat → Nat) : Nat → Nat → List Nat
  | 0, _ => []
  | n + 1, i => i :: popped freeNext n (freeNext i)

/-- A queue with its rings. `out` are the submissions that were not polled, with the
descriptors each took; `taken` counts the avail entries that the device took, `pending` are
the heads behind them, and `held` are the chains that the device has not returned. -/
structure Rings (β : Type) where
  q : Virtq β
  avail : Nat → Nat
  availIdx : Nat
  lastUsedIdx : Nat
  out : List (List Nat × List β)
  taken : Nat
  pending : List Nat
  held : List Nat

/-- The calls, and a step of the device. A poll finds what the device wrote to the used ring. -/
inductive RingOp (β : Type) where
  | submit (bufs : List β)
  | take
  | poll (usedIdx : Nat) (ids : Nat → Nat)

variable {β : Type}

namespace Rings

def init (queueSize : Nat) (buf : β) : Rings β :=
  ⟨Virtq.init queueSize buf, fun _ => 0, 0, 0, [], 0, [], []⟩

def exec (r : Rings β) : RingOp β → Rings β
  | .submit bufs =>
    match r.q.submit bufs with
    | (none, _) => r
    | (some head, q) => {r with
        q := q
        avail := update r.avail (r.availIdx % r.q.queueSize) head
        availIdx := (r.availIdx + 1) % 2 ^ 16
        out := (popped r.q.freeNext bufs.length r.q.freeHead, bufs) :: r.out
        pending := r.pending ++ [head]}
  | .take =>
    match r.pending with
    | [] => r
    | _ :: rest => {r with
        taken := r.taken + 1
        pending := rest
        held := r.avail (r.taken % r.q.queueSize) :: r.held}
  | .poll usedIdx ids =>
    if r.lastUsedIdx = usedIdx then r
    else
      let last := (r.lastUsedIdx + 1) % 2 ^ 16
      match {r.q with used := [ids (r.lastUsedIdx % r.q.queueSize)]}.poll with
      | (none, q) => {r with q := q, lastUsedIdx := last}
      | (some head, q) => {r with
          q := q
          lastUsedIdx := last
          out := r.out.eraseP fun p => p.1.head? = some head
          held := r.held.erase head}

end Rings

/-- The callers submit at most the pages of a command and its response. -/
def RingStep (r : Rings β) (op : RingOp β) (r' : Rings β) : Prop :=
  r' = r.exec op ∧ ∀ bufs, op = .submit bufs → bufs.length ≤ vgpuCmdMaxPages + 1

/-- The device returns a chain that it took, and each once. -/
def HonestStep (r : Rings β) (op : RingOp β) (r' : Rings β) : Prop :=
  RingStep r op r' ∧ ∀ usedIdx ids, op = .poll usedIdx ids → r.lastUsedIdx ≠ usedIdx →
    ids (r.lastUsedIdx % r.q.queueSize) ∈ r.held

open Virtq (Linked)

theorem popped_eq {next : Nat → Nat} {i : Nat} {l l' : List Nat} (h : Linked next i (l ++ l')) :
    popped next l.length i = l := by
  induction l generalizing i with
  | nil => rfl
  | cons x l ih =>
    obtain ⟨rfl, hnext⟩ := Virtq.linked_cons.mp h
    rw [length_cons, popped, ih hnext]

theorem perm_eraseP {out : List (List Nat × List β)} {id : Nat}
    (h : ∃ p ∈ out, p.1.head? = some id) :
    ∃ p, p.1.head? = some id ∧ out.Perm (p :: out.eraseP fun p => p.1.head? = some id) := by
  obtain ⟨p, hp, hhead⟩ := h
  obtain ⟨p, l, l', -, hid, hout, herase⟩ :=
    exists_of_eraseP (p := fun p => p.1.head? = some id) hp (by simpa using hhead)
  refine ⟨p, by simpa using hid, ?_⟩
  rw [herase, hout]
  exact perm_middle

/-- The descriptors of the free list and of the chains are all there are, and a chain has the
buffers of its submission. -/
structure Conserved (n : Nat) (free : List Nat) (r : Rings β) : Prop where
  ok : r.q.Ok free (r.out.map Prod.fst)
  all : (free ++ (r.out.map Prod.fst).flatten).Perm (range n)
  bufs : ∀ p ∈ r.out, p.1.map (fun i => (r.q.desc i).buf) = p.2
  size : r.q.queueSize = n

namespace Conserved

variable {n : Nat} {free : List Nat} {r : Rings β}

theorem init (n : Nat) (buf : β) : Conserved n (range n) (Rings.init n buf) :=
  ⟨Virtq.ok_init n buf, by simp [Rings.init], nofun, rfl⟩

section
variable (h : Conserved n free r)
include h

theorem submit (bufs : List β) : ∃ free', Conserved n free' (r.exec (.submit bufs)) := by
  by_cases hfit : bufs ≠ [] ∧ bufs.length ≤ r.q.numFree
  · obtain ⟨head, taken, rest, q', hsub, -, rfl, hbufs, hdesc, hok, -, hsize, hperm⟩ :=
      h.ok.submit hfit.1 hfit.2
    have hpop : popped r.q.freeNext bufs.length r.q.freeHead = taken := by
      rw [← hbufs, length_map]
      exact popped_eq h.ok.linked
    simp only [Rings.exec, hsub, hpop]
    refine ⟨rest, hok, hperm.symm.trans h.all,
      forall_mem_cons.mpr ⟨hbufs, fun p hp => ?_⟩, hsize.trans h.size⟩
    rw [← h.bufs p hp]
    refine map_congr_left fun i hi => ?_
    rw [hdesc i fun hmem => h.ok.notMem_free (mem_map_of_mem hp) hi (mem_append_left _ hmem)]
  · have hnone : r.q.submit bufs = (none, r.q) := by
      unfold Virtq.submit
      split
      · rfl
      next hne => rw [if_pos (by simp_all)]
    simp only [Rings.exec, hnone]
    exact ⟨free, h⟩

theorem poll (usedIdx : Nat) (ids : Nat → Nat) :
    ∃ free', Conserved n free' (r.exec (.poll usedIdx ids)) := by
  rw [Rings.exec]
  split
  · exact ⟨free, h⟩
  generalize ids (r.lastUsedIdx % r.q.queueSize) = id
  have hok := h.ok.setUsed [id]
  by_cases hbad : id ≥ r.q.queueSize ∨ r.q.chainLen id = 0
  · have hnone : {r.q with used := [id]}.poll = (none, {r.q with used := []}) := if_pos hbad
    simp only [hnone]
    exact ⟨free, h.ok.setUsed [], h.all, h.bufs, h.size⟩
  -- an id with a chain is the head of one that is outstanding
  have hout : ∃ p ∈ r.out, p.1.head? = some id := by
    by_contra hno
    refine hbad (.inr (h.ok.idle id fun c hc => ?_))
    obtain ⟨p, hp, rfl⟩ := mem_map.mp hc
    exact fun hc => hno ⟨p, hp, hc⟩
  obtain ⟨p, hhead, hperm⟩ := perm_eraseP hout
  have hmem : p ∈ r.out := hperm.mem_iff.mpr (.head _)
  obtain ⟨q', hpoll, hok', -, hsize, hdesc, hall⟩ := hok.poll (mem_map_of_mem hmem) hhead rfl
  have hchains := (hperm.map Prod.fst).erase p.1
  rw [map_cons, erase_cons_head] at hchains
  simp only [hpoll]
  refine ⟨p.1.reverse ++ free, hok'.perm hchains,
    ((hchains.flatten.append_left _).symm.trans hall.symm).trans h.all, fun p' hp' => ?_,
    hsize.trans h.size⟩
  rw [hdesc]
  exact h.bufs p' (hperm.mem_iff.mpr (.tail _ hp'))

theorem exec (op : RingOp β) : ∃ free', Conserved n free' (r.exec op) := by
  cases op with
  | submit bufs => exact h.submit bufs
  | take =>
    rw [Rings.exec]
    split
    · exact ⟨free, h⟩
    · exact ⟨free, h.ok, h.all, h.bufs, h.size⟩
  | poll usedIdx ids => exact h.poll usedIdx ids

theorem length_out : free.length + r.out.length ≤ n := by
  have hlen := h.all.length_eq
  have hone : (r.out.map Prod.fst).length ≤ ((r.out.map Prod.fst).map length).sum := by
    rw [← length_map (f := length)]
    refine length_le_sum_of_one_le _ fun k hk => ?_
    obtain ⟨c, hc, rfl⟩ := mem_map.mp hk
    obtain ⟨x, -, rfl, -⟩ := h.ok.chain c hc
    exact Nat.succ_pos _
  rw [length_append, length_flatten, length_range] at hlen
  rw [length_map] at hone
  omega

end

end Conserved

/-- The avail ring holds the chains that the device has not taken, and those and the ones it
holds are the chains that are out. -/
structure InOrder (n : Nat) (r : Rings β) : Prop where
  idx : r.availIdx = (r.taken + r.pending.length) % 2 ^ 16
  ring : ringList n r.avail (r.taken % n) r.pending.length = r.pending
  heads : (r.out.map fun p => p.1.head?).Perm ((r.pending ++ r.held).map some)

namespace InOrder

variable {n : Nat} {free : List Nat} {r : Rings β}

theorem exec (h : InOrder n r) (hr : Conserved n free r) (hdvd : n ∣ 2 ^ 16) {op : RingOp β}
    {r' : Rings β} (hstep : HonestStep r op r') : InOrder n r' := by
  obtain ⟨⟨rfl, -⟩, hhonest⟩ := hstep
  have hpos : 0 < n := Nat.pos_of_dvd_of_pos hdvd (by decide)
  fun_cases Rings.exec r op
  all_goals try exact h
  next bufs head q hsub =>
    have hlen := hr.length_out
    have hcount : r.out.length = r.pending.length + r.held.length := by
      simpa using h.heads.length_eq
    simp only [Virtq.submit] at hsub
    split_ifs at hsub with hne hfit <;> cases hsub
    next =>
      rw [hr.ok.numFree] at hfit
      have hslot : r.availIdx % r.q.queueSize = (r.taken % n + r.pending.length) % n := by
        rw [h.idx, hr.size, Nat.mod_mod_of_dvd _ hdvd, Nat.mod_add_mod]
      obtain ⟨k, hk⟩ := Nat.exists_eq_succ_of_ne_zero hne
      refine ⟨?_, ?_, ?_⟩
      · simp only [h.idx, length_append, length_singleton]
        omega
      · rw [hslot, length_append, length_singleton, ringList_push (by omega), h.ring]
      · rw [map_cons, hk, popped, head?_cons, append_assoc]
        exact (h.heads.cons _).trans (perm_middle.map some).symm
  next head rest hpending =>
    have hring := h.ring
    have hheads := h.heads
    have hidx := h.idx
    rw [hpending] at hring hheads hidx
    rw [length_cons, ringList_succ (Nat.mod_lt _ hpos), Nat.mod_add_mod] at hring
    obtain ⟨hhead, hrest⟩ := cons.inj hring
    refine ⟨by rw [hidx, length_cons, add_assoc, add_comm 1], hrest, hheads.trans ?_⟩
    rw [hr.size, hhead]
    exact (perm_middle.map some).symm
  · exact {h with}
  next usedIdx ids hnew _ head q hpoll =>
    obtain rfl : ids (r.lastUsedIdx % r.q.queueSize) = head := by
      unfold Virtq.poll at hpoll
      dsimp only at hpoll
      split at hpoll <;> cases hpoll
      rfl
    have hheld := hhonest usedIdx ids rfl hnew
    obtain ⟨p, hp, hhead⟩ := mem_map.mp
      (h.heads.mem_iff.mpr (mem_map_of_mem (mem_append_right _ hheld)))
    obtain ⟨p, hid, hperm⟩ := perm_eraseP ⟨p, hp, hhead⟩
    refine ⟨h.idx, h.ring, Perm.cons_inv (a := p.1.head?) ?_⟩
    refine ((hperm.map fun p => p.1.head?).symm.trans h.heads).trans ?_
    rw [hid, ← map_cons]
    refine Perm.map some ?_
    exact ((perm_cons_erase hheld).append_left r.pending).trans perm_middle

end InOrder

/-- Whatever the device writes to the used ring, the free list and the chains that are out
are all the descriptors, `num_free` counts the free ones, and every chain links the buffers of
its submission; and the avail ring keeps each chain until an honest device has taken it. -/
theorem descriptors_conserved {n : Nat} (hmin : 2 ≤ n) (hmax : n ≤ vgVqMaxSize) (buf : β)
    {ops : List (RingOp β)} {r : Rings β} (hrun : Run RingStep (Rings.init n buf) ops r) :
    (∃ free, (free ++ (r.out.map Prod.fst).flatten).Perm (List.range n) ∧
      Linked r.q.freeNext r.q.freeHead free ∧ r.q.numFree = free.length ∧
      ∀ p ∈ r.out, ∃ head rest, p.1 = head :: rest ∧ r.q.chainLen head = p.1.length ∧
        Linked (fun i => (r.q.desc i).next) head p.1 ∧
        p.1.map (fun i => (r.q.desc i).buf) = p.2) ∧
      ((∃ k, n = 2 ^ k) → Run HonestStep (Rings.init n buf) ops r →
        ringList n r.avail (r.taken % n) r.pending.length = r.pending) := by
  constructor
  · obtain ⟨free, h⟩ := hrun.invariant (I := fun r => ∃ free, Conserved n free r)
      (fun r op r' ⟨_, h⟩ hstep => hstep.1 ▸ h.exec op) ⟨_, Conserved.init n buf⟩
    refine ⟨free, h.all, h.ok.linked, h.ok.numFree, fun p hp => ?_⟩
    obtain ⟨head, rest, hc, hlen, hlinked⟩ := h.ok.chain p.1 (mem_map_of_mem hp)
    exact ⟨head, rest, hc, hlen, hlinked, h.bufs p hp⟩
  · rintro ⟨k, rfl⟩ hhonest
    have hdvd : 2 ^ k ∣ 2 ^ 16 :=
      Nat.pow_dvd_pow 2 ((Nat.pow_le_pow_iff_right (by decide)).mp (hmax.trans (by decide)))
    refine (hhonest.invariant (I := fun r => (∃ free, Conserved (2 ^ k) free r) ∧ InOrder (2 ^ k) r)
      ?_ ⟨⟨_, Conserved.init _ buf⟩, rfl, rfl, .nil⟩).2.ring
    rintro r op r' ⟨⟨free, h⟩, hr⟩ hstep
    exact ⟨hstep.1.1 ▸ h.exec op, hr.exec h hdvd hstep⟩

/-- The device takes the first of two chains and returns it; the second is pending. -/
def returned : List (RingOp Nat) := [.submit [7, 8], .take, .submit [9], .poll 1 fun _ => 0]

theorem descriptors_conserved_returned : ∃ r, Run HonestStep (Rings.init 4 0) returned r ∧
    r.pending = [2] ∧ r.q.numFree = 3 ∧
    ringList 4 r.avail (r.taken % 4) r.pending.length = r.pending := by
  have hshort : ∀ op ∈ returned, ∀ bufs, op = .submit bufs → bufs.length ≤ vgpuCmdMaxPages + 1 := by
    rintro op hop bufs rfl
    obtain rfl | rfl : bufs = [7, 8] ∨ bufs = [9] := by simpa [returned] using hop
    · decide
    · decide
  have hrun : Run RingStep (Rings.init 4 0) returned (returned.foldl Rings.exec (Rings.init 4 0)) :=
    Run.foldl (fun op hop _ => ⟨rfl, hshort op hop⟩) _
  have hhonest : Run HonestStep (Rings.init 4 0) returned
      (returned.foldl Rings.exec (Rings.init 4 0)) := by
    refine .cons ⟨⟨rfl, hshort _ (.head _)⟩, fun _ _ h => ?_⟩
      (.cons ⟨⟨rfl, hshort _ (.tail _ (.head _))⟩, fun _ _ h => ?_⟩
      (.cons ⟨⟨rfl, hshort _ (.tail _ (.tail _ (.head _)))⟩, fun _ _ h => ?_⟩
      (.cons ⟨⟨rfl, hshort _ (.tail _ (.tail _ (.tail _ (.head _))))⟩, fun _ _ h _ => ?_⟩ (.nil _))))
    · cases h
    · cases h
    · cases h
    · cases h
      decide
  exact ⟨_, hhonest, by decide, by decide,
    (descriptors_conserved (by decide) (by decide) 0 hrun).2 ⟨2, rfl⟩ hhonest⟩

end Kyuzen.Drivers
