import Kyuzen.Base.Chain

/-!
The split virtqueue of `virtqueue.c`: descriptors come from a free list that is threaded
through `free_next`, a chain is threaded through `desc.next`, and a completed chain is
walked back onto the free list.
-/

namespace Kyuzen.Drivers

open List

structure VirtqDesc (β : Type) where
  buf : β
  next : Nat

/-- `virtq_t`. `used` holds the heads in the used ring from `last_used_idx` on. -/
structure Virtq (β : Type) where
  queueSize : Nat
  desc : Nat → VirtqDesc β
  freeNext : Nat → Nat
  freeHead : Nat
  numFree : Nat
  chainLen : Nat → Nat
  used : List Nat

/-- `VG_VQ_INVALID` -/
def vqInvalid : Nat := 65535

namespace Virtq

variable {β : Type}

/-- `virtq_init`, with the size that was agreed on. -/
def init (queueSize : Nat) (buf : β) : Virtq β where
  queueSize := queueSize
  desc _ := ⟨buf, vqInvalid⟩
  freeNext i := if i = queueSize - 1 then vqInvalid else i + 1
  freeHead := 0
  numFree := queueSize
  chainLen _ := 0
  used := []

/-- One turn of the loop of `virtq_submit`; the last descriptor keeps its `next`. -/
def takeDesc (q : Virtq β) (buf : β) (last : Bool) : Virtq β :=
  let idx := q.freeHead
  let next := if last then (q.desc idx).next else q.freeNext idx
  {q with
    freeHead := q.freeNext idx
    numFree := q.numFree - 1
    desc := fun i => if i = idx then ⟨buf, next⟩ else q.desc i}

def submitLoop : List β → Virtq β → Virtq β
  | [], q => q
  | buf :: bufs, q => submitLoop bufs (q.takeDesc buf bufs.isEmpty)

/-- `virtq_submit`: the head of the chain. -/
def submit (q : Virtq β) (bufs : List β) : Option Nat × Virtq β :=
  if bufs.length = 0 then (none, q)
  else if bufs.length > q.numFree then (none, q)
  else
    let head := q.freeHead
    let q' := submitLoop bufs q
    (some head, {q' with
      chainLen := fun i => if i = head then bufs.length else q'.chainLen i})

/-- One turn of the loop of `virtq_poll`. -/
def pushDesc (q : Virtq β) (idx : Nat) : Virtq β :=
  {q with freeNext := fun i => if i = idx then q.freeHead else q.freeNext i, freeHead := idx}

/-- The loop of `virtq_poll` that returns the descriptors of a chain. -/
def freeLoop : Nat → Nat → Virtq β → Virtq β
  | 0, _, q => q
  | n + 1, idx, q => freeLoop n (q.desc idx).next (q.pushDesc idx)

/-- `virtq_poll`: the head of a completed chain. -/
def poll (q : Virtq β) : Option Nat × Virtq β :=
  match q.used with
  | [] => (none, q)
  | head :: used =>
    let q := {q with used := used}
    if head ≥ q.queueSize ∨ q.chainLen head = 0 then (none, q)
    else
      let n := q.chainLen head
      let q' := freeLoop n head q
      (some head, {q' with
        chainLen := fun i => if i = head then 0 else q'.chainLen i
        numFree := q'.numFree + n})

def complete (q : Virtq β) (head : Nat) : Virtq β := {q with used := q.used ++ [head]}

/-! ## The descriptors -/

/-- Following `next` from `i` visits `l`. -/
def Linked (next : Nat → Nat) (i : Nat) (l : List Nat) : Prop :=
  ∃ e, Seg (fun j => some (next j)) (some i) l e

variable {next next' : Nat → Nat} {i x : Nat} {l : List Nat}

theorem linked_nil : Linked next i [] := ⟨some i, rfl⟩

theorem linked_cons : Linked next i (x :: l) ↔ i = x ∧ Linked next (next x) l := by
  constructor
  · rintro ⟨e, hi, hl⟩
    exact ⟨Option.some.inj hi, e, hl⟩
  · rintro ⟨rfl, e, hl⟩
    exact ⟨e, rfl, hl⟩

theorem Linked.congr (h : Linked next i l) (heq : ∀ j ∈ l, next' j = next j) : Linked next' i l := by
  obtain ⟨e, hseg⟩ := h
  exact ⟨e, hseg.congr fun j hj => congrArg some (heq j hj)⟩

/-- `free` is the free list, and `chains` are the submitted chains that were not polled. -/
structure Ok (q : Virtq β) (free : List Nat) (chains : List (List Nat)) : Prop where
  linked : Linked q.freeNext q.freeHead free
  numFree : q.numFree = free.length
  nodup : (free ++ chains.flatten).Nodup
  bound : ∀ i ∈ free ++ chains.flatten, i < q.queueSize
  chain : ∀ c ∈ chains, ∃ h rest, c = h :: rest ∧ q.chainLen h = c.length ∧
    Linked (fun i => (q.desc i).next) h c
  idle : ∀ i, (∀ c ∈ chains, c.head? ≠ some i) → q.chainLen i = 0

theorem linked_range (n k : Nat) (freeNext : Nat → Nat)
    (h : ∀ i, i + 1 < n → freeNext i = i + 1) (hk : k ≤ n) :
    Linked freeNext (n - k) (range' (n - k) k) := by
  induction k with
  | zero => exact linked_nil
  | succ k ih =>
    rw [range'_succ, linked_cons]
    have hsub : n - (k + 1) + 1 = n - k := by omega
    refine ⟨rfl, ?_⟩
    rw [hsub]
    cases k with
    | zero => exact linked_nil
    | succ k =>
      rw [h _ (by omega), hsub]
      exact ih (by omega)

theorem ok_init (n : Nat) (buf : β) : (init n buf).Ok (range n) [] where
  linked := by
    have h := linked_range n n (init n buf).freeNext (fun i hi => if_neg (by omega)) le_rfl
    rw [Nat.sub_self, ← range_eq_range'] at h
    exact h
  numFree := length_range.symm
  nodup := by
    rw [flatten_nil, append_nil]
    exact nodup_range
  bound := by
    intro i hi
    rw [flatten_nil, append_nil] at hi
    exact mem_range.mp hi
  chain := nofun
  idle _ _ := rfl

/-- What the loop of `virtq_submit` leaves: the chain linked, the rest of the free list, and
everything else as it was. -/
structure Taken (q q' : Virtq β) (taken rest : List Nat) : Prop where
  linked : Linked (fun i => (q'.desc i).next) q.freeHead taken
  rest : Linked q'.freeNext q'.freeHead rest
  freeNext : q'.freeNext = q.freeNext
  numFree : q'.numFree = q.numFree - taken.length
  desc : ∀ i, i ∉ taken → q'.desc i = q.desc i
  chainLen : q'.chainLen = q.chainLen
  queueSize : q'.queueSize = q.queueSize
  used : q'.used = q.used

variable {taken rest : List Nat} {bufs : List β}

section
variable (q : Virtq β) (hlen : taken.length = bufs.length) (hnodup : taken.Nodup)
  (h : Linked q.freeNext q.freeHead (taken ++ rest))
include q hlen hnodup h

theorem submitLoop_taken : Taken q (submitLoop bufs q) taken rest := by
  induction bufs generalizing q taken with
  | nil =>
    obtain rfl : taken = [] := length_eq_zero_iff.mp hlen
    exact ⟨linked_nil, h, rfl, rfl, fun _ _ => rfl, rfl, rfl, rfl⟩
  | cons buf bufs ih =>
    cases taken with
    | nil => exact nomatch hlen
    | cons x taken =>
      obtain ⟨rfl, hnext⟩ := linked_cons.mp h
      obtain ⟨hnot, hnodup⟩ := nodup_cons.mp hnodup
      have ht : Taken (q.takeDesc buf bufs.isEmpty)
          (submitLoop bufs (q.takeDesc buf bufs.isEmpty)) taken rest :=
        ih _ (Nat.succ.inj hlen) hnodup hnext
      rw [submitLoop]
      constructor
      · rw [linked_cons, ht.desc _ hnot]
        apply And.intro rfl
        cases bufs with
        | nil =>
          obtain rfl : taken = [] := length_eq_zero_iff.mp (Nat.succ.inj hlen)
          exact linked_nil
        | cons buf' bufs =>
          have hdesc : ((q.takeDesc buf false).desc q.freeHead).next = q.freeNext q.freeHead := by
            rw [takeDesc]
            dsimp only
            rw [if_pos rfl]
            rfl
          rw [isEmpty_cons, hdesc]
          exact ht.linked
      · exact ht.rest
      · exact ht.freeNext
      · rw [ht.numFree, length_cons]
        exact (Nat.sub_sub _ _ _).trans (congrArg _ (add_comm _ _))
      · intro i hi
        obtain ⟨hne, hi⟩ := not_or.mp fun h => hi (mem_cons.mpr h)
        rw [ht.desc i hi]
        exact if_neg hne
      · exact ht.chainLen
      · exact ht.queueSize
      · exact ht.used

theorem submitLoop_bufs : taken.map (fun i => ((submitLoop bufs q).desc i).buf) = bufs := by
  induction bufs generalizing q taken with
  | nil => simpa using hlen
  | cons buf bufs ih =>
    cases taken with
    | nil => exact nomatch hlen
    | cons x taken =>
      obtain ⟨rfl, hnext⟩ := linked_cons.mp h
      obtain ⟨hnot, hnodup⟩ := nodup_cons.mp hnodup
      have ht := submitLoop_taken (q.takeDesc buf bufs.isEmpty) (Nat.succ.inj hlen) hnodup hnext
      rw [submitLoop, map_cons, ih _ (Nat.succ.inj hlen) hnodup hnext, ht.desc _ hnot]
      simp [takeDesc]

end

/-- What the loop of `virtq_poll` leaves: the chain on the free list. -/
structure Freed (q q' : Virtq β) (free : List Nat) : Prop where
  linked : Linked q'.freeNext q'.freeHead free
  desc : q'.desc = q.desc
  numFree : q'.numFree = q.numFree
  chainLen : q'.chainLen = q.chainLen
  queueSize : q'.queueSize = q.queueSize
  used : q'.used = q.used

theorem freeLoop_freed {c free : List Nat} {idx : Nat} (q : Virtq β)
    (hc : Linked (fun i => (q.desc i).next) idx c) (hfree : Linked q.freeNext q.freeHead free)
    (hnodup : (c ++ free).Nodup) : Freed q (freeLoop c.length idx q) (c.reverse ++ free) := by
  induction c generalizing q free idx with
  | nil => exact ⟨hfree, rfl, rfl, rfl, rfl, rfl⟩
  | cons x c ih =>
    obtain ⟨rfl, hnext⟩ := linked_cons.mp hc
    obtain ⟨hnot, _⟩ := nodup_cons.mp hnodup
    have hidx : idx ∉ free := fun h => hnot (mem_append_right _ h)
    have hmiddle : (c ++ idx :: free).Nodup := (nodup_middle).mpr hnodup
    have hpush : Linked (q.pushDesc idx).freeNext (q.pushDesc idx).freeHead (idx :: free) := by
      have hhead : (q.pushDesc idx).freeNext idx = q.freeHead := if_pos rfl
      rw [linked_cons, hhead]
      apply And.intro rfl
      apply hfree.congr
      intro j hj
      exact if_neg fun (heq : j = idx) => hidx (heq ▸ hj)
    have hf := ih (q.pushDesc idx) hnext hpush hmiddle
    rw [length_cons, freeLoop, reverse_cons, append_assoc, singleton_append]
    exact {hf with}

section Spec

variable {q : Virtq β} {free : List Nat} {chains : List (List Nat)}

section
variable (h : q.Ok free chains)
include h

variable {c : List Nat}

theorem Ok.notMem_free (hc : c ∈ chains) {j : Nat} (hj : j ∈ c) : j ∉ free :=
  fun hfree => (nodup_append.mp h.nodup).2.2 j hfree j (mem_flatten.mpr ⟨c, hc, hj⟩) rfl

theorem Ok.setUsed (used : List Nat) : {q with used := used}.Ok free chains :=
  {h with}

theorem Ok.perm {chains' : List (List Nat)} (hp : chains.Perm chains') : q.Ok free chains' := by
  have hall : (free ++ chains.flatten).Perm (free ++ chains'.flatten) := hp.flatten.append_left free
  exact ⟨h.linked, h.numFree, hall.nodup_iff.mp h.nodup, fun i hi => h.bound i (hall.mem_iff.mpr hi),
    fun c hc => h.chain c (hp.mem_iff.mpr hc), fun i hi => h.idle i fun c hc => hi c (hp.mem_iff.mp hc)⟩

theorem Ok.submit {bufs : List β} (hne : bufs ≠ []) (hfit : bufs.length ≤ q.numFree) :
    ∃ head taken rest q', q.submit bufs = (some head, q') ∧ taken.head? = some head ∧
      free = taken ++ rest ∧ taken.map (fun i => (q'.desc i).buf) = bufs ∧
      (∀ i ∉ taken, q'.desc i = q.desc i) ∧ q'.Ok rest (taken :: chains) ∧
      q'.used = q.used ∧ q'.queueSize = q.queueSize ∧
      (free ++ chains.flatten).Perm (rest ++ (taken :: chains).flatten) := by
  have hlen : (free.take bufs.length).length = bufs.length := by
    rw [length_take, ← h.numFree]
    exact Nat.min_eq_left hfit
  obtain ⟨taken, rest, rfl, htl⟩ : ∃ taken rest, free = taken ++ rest ∧ taken.length = bufs.length :=
    ⟨_, _, (take_append_drop bufs.length free).symm, hlen⟩
  have hpos : 0 < bufs.length := length_pos_of_ne_nil hne
  have hnodup : taken.Nodup := (nodup_append.mp (nodup_append.mp h.nodup).1).1
  have ht := submitLoop_taken q htl hnodup h.linked
  obtain ⟨x, taken', rfl⟩ : ∃ x l, taken = x :: l := by
    cases taken with
    | nil =>
      rw [← htl] at hpos
      exact absurd hpos (lt_irrefl 0)
    | cons x l => exact ⟨x, l, rfl⟩
  obtain rfl : q.freeHead = x := (linked_cons.mp ht.linked).1
  have hsubmit : q.submit bufs = (some q.freeHead, {submitLoop bufs q with
      chainLen := fun i => if i = q.freeHead then bufs.length else (submitLoop bufs q).chainLen i}) := by
    rw [Virtq.submit, if_neg (hpos.ne'), if_neg (not_lt.mpr hfit)]
  have hout : ∀ c ∈ chains, ∀ j ∈ c, j ∉ q.freeHead :: taken' := fun c hc j hj hmem =>
    h.notMem_free hc hj (mem_append_left _ hmem)
  have hperm : (q.freeHead :: taken' ++ rest ++ chains.flatten).Perm
      (rest ++ ((q.freeHead :: taken') :: chains).flatten) := by
    rw [flatten_cons, ← append_assoc]
    exact perm_append_comm.append_right _
  refine ⟨q.freeHead, _, rest, _, hsubmit, rfl, rfl, submitLoop_bufs q htl hnodup h.linked, ht.desc,
    ?_, ht.used, ht.queueSize, hperm⟩
  constructor
  · exact ht.rest
  · have hnum := h.numFree
    rw [length_append] at hnum
    exact ht.numFree.trans (by omega)
  · exact hperm.nodup_iff.mp h.nodup
  · intro i hi
    rw [ht.queueSize]
    exact h.bound i (hperm.mem_iff.mpr hi)
  · intro c hc
    rcases mem_cons.mp hc with rfl | hc
    · exact ⟨_, _, rfl, (if_pos rfl).trans htl.symm, ht.linked⟩
    obtain ⟨hd, tl, rfl, hcl, hlk⟩ := h.chain c hc
    have hhd : hd ≠ q.freeHead := fun heq =>
      hout _ hc hd (.head _) (heq ▸ (.head _))
    refine ⟨hd, tl, rfl, ?_, ?_⟩
    · exact (if_neg hhd).trans ((congrFun ht.chainLen hd).trans hcl)
    · exact hlk.congr fun j hj => congrArg VirtqDesc.next (ht.desc j (hout _ hc j hj))
  · intro i hi
    have hne' : i ≠ q.freeHead := fun heq =>
      hi _ (.head _) (congrArg some heq.symm)
    exact (if_neg hne').trans ((congrFun ht.chainLen i).trans
      (h.idle i fun c hc => hi c (.tail _ hc)))

theorem Ok.poll {head : Nat} {used : List Nat}
    (hc : c ∈ chains) (hhead : c.head? = some head) (hused : q.used = head :: used) :
    ∃ q', q.poll = (some head, q') ∧ q'.Ok (c.reverse ++ free) (chains.erase c) ∧
      q'.used = used ∧ q'.queueSize = q.queueSize ∧ q'.desc = q.desc ∧
      (free ++ chains.flatten).Perm (c.reverse ++ free ++ (chains.erase c).flatten) := by
  obtain ⟨hd, tl, rfl, hcl, hlk⟩ := h.chain c hc
  obtain rfl : hd = head := Option.some.inj hhead
  have hperm : (free ++ chains.flatten).Perm
      ((hd :: tl).reverse ++ free ++ (chains.erase (hd :: tl)).flatten) := by
    have hflat := (perm_cons_erase hc).flatten
    rw [flatten_cons] at hflat
    have hcomm := (@perm_append_comm _ free (hd :: tl)).append_right
      (chains.erase (hd :: tl)).flatten
    rw [append_assoc] at hcomm
    exact (hflat.append_left free).trans
      (hcomm.trans (((reverse_perm (hd :: tl)).symm.append_right free).append_right _))
  have hnodup := hperm.nodup_iff.mp h.nodup
  have hsub : ((hd :: tl) ++ free).Nodup :=
    (((reverse_perm (hd :: tl)).append_right free).nodup_iff).mp (nodup_append.mp hnodup).1
  have hf := freeLoop_freed {q with used := used} hlk h.linked hsub
  have hbound : hd < q.queueSize :=
    h.bound hd (mem_append_right _ (mem_flatten.mpr ⟨_, hc, (.head _)⟩))
  have hlen : q.chainLen hd ≠ 0 := by
    rw [hcl]
    exact nofun
  have hpoll : q.poll = (some hd, {freeLoop (q.chainLen hd) hd {q with used := used} with
      chainLen := fun i => if i = hd then 0
        else (freeLoop (q.chainLen hd) hd {q with used := used}).chainLen i
      numFree := (freeLoop (q.chainLen hd) hd {q with used := used}).numFree + q.chainLen hd}) := by
    rw [Virtq.poll, hused]
    dsimp only
    rw [if_neg (not_or.mpr ⟨not_le.mpr hbound, hlen⟩)]
  rw [← hcl] at hf
  refine ⟨_, hpoll, ?_, hf.used, hf.queueSize, hf.desc, hperm⟩
  have hout : ∀ c ∈ chains.erase (hd :: tl), ∀ j ∈ c, j ∉ hd :: tl := by
    intro c' hc' j hj hmem
    apply (nodup_append.mp hnodup).2.2 j _ j (mem_flatten.mpr ⟨c', hc', hj⟩) rfl
    exact mem_append_left _ (mem_reverse.mpr hmem)
  constructor
  · exact hf.linked
  · have hnum : (freeLoop (q.chainLen hd) hd {q with used := used}).numFree = free.length :=
      hf.numFree.trans h.numFree
    rw [length_append, length_reverse, ← hcl, hnum]
    exact add_comm _ _
  · exact hnodup
  · intro i hi
    rw [hf.queueSize]
    exact h.bound i (hperm.mem_iff.mpr hi)
  · intro c' hc'
    obtain ⟨hd', tl', rfl, hcl', hlk'⟩ := h.chain c' (mem_of_mem_erase hc')
    have hne : hd' ≠ hd := fun heq =>
      hout _ hc' hd' (.head _) (heq ▸ (.head _))
    refine ⟨hd', tl', rfl, ?_, ?_⟩
    · exact (if_neg hne).trans ((congrFun hf.chainLen hd').trans hcl')
    · rw [hf.desc]
      exact hlk'
  · intro i hi
    by_cases heq : i = hd
    · exact if_pos heq
    apply (if_neg heq).trans ((congrFun hf.chainLen i).trans (h.idle i _))
    intro c' hc' hhd
    by_cases hcc : c' = hd :: tl
    · rw [hcc] at hhd
      exact heq (Option.some.inj hhd).symm
    · exact hi c' ((mem_erase_of_ne hcc).mpr hc') hhd

end

end Spec

/-! ## The outstanding chains -/

/-- The heads of the chains that were submitted and not polled. -/
def Holds (q : Virtq β) (heads : List Nat) : Prop :=
  ∃ free chains, q.Ok free chains ∧ (chains.map head?).Perm (heads.map some)

section Holds

variable {head : Nat} {q : Virtq β} {heads heads' : List Nat}

theorem holds_init (n : Nat) (buf : β) : (init n buf).Holds [] := ⟨_, _, ok_init n buf, .nil⟩

theorem Holds.perm (h : q.Holds heads) (hp : heads.Perm heads') : q.Holds heads' := by
  obtain ⟨free, chains, hok, hperm⟩ := h
  exact ⟨free, chains, hok, hperm.trans (hp.map some)⟩

theorem Holds.complete (h : q.Holds heads) (head : Nat) : (q.complete head).Holds heads := by
  obtain ⟨free, chains, hok, hperm⟩ := h
  exact ⟨free, chains, hok.setUsed _, hperm⟩

theorem Holds.exists_chain {chains : List (List Nat)}
    (hperm : (chains.map head?).Perm (heads.map some)) (h : head ∈ heads) :
    ∃ c ∈ chains, c.head? = some head :=
  mem_map.mp (hperm.mem_iff.mpr (mem_map_of_mem h))

theorem Holds.lt (h : q.Holds heads) (hmem : head ∈ heads) : head < q.queueSize := by
  obtain ⟨free, chains, hok, hperm⟩ := h
  obtain ⟨c, hc, hhead⟩ := Holds.exists_chain hperm hmem
  apply hok.bound head
  exact mem_append_right _ (mem_flatten.mpr ⟨c, hc, mem_of_mem_head? hhead⟩)

theorem Holds.nodup (h : q.Holds heads) : heads.Nodup := by
  obtain ⟨free, chains, hok, hperm⟩ := h
  have hflat : chains.flatten.Nodup := (nodup_append.mp hok.nodup).2.1
  have hheads : (chains.map head?).Nodup := by
    rw [nodup_flatten] at hflat
    apply Pairwise.map _ _ (hflat.2.imp_of_mem _)
    · exact fun c c' => c.head? ≠ c'.head?
    · exact fun _ _ h => h
    · intro c c' hc hc' hdisj heq
      obtain ⟨hd, tl, rfl, -⟩ := hok.chain c hc
      exact hdisj (.head _) (mem_of_mem_head? heq.symm)
  exact (hperm.nodup_iff.mp hheads).of_map some

variable {bufs : List β}

theorem Holds.submit (h : q.Holds heads) (hne : bufs ≠ []) (hfit : bufs.length ≤ q.numFree) :
    ∃ head q', q.submit bufs = (some head, q') ∧ q'.Holds (head :: heads) ∧
      q'.numFree = q.numFree - bufs.length ∧ q'.used = q.used ∧ q'.queueSize = q.queueSize := by
  obtain ⟨free, chains, hok, hperm⟩ := h
  obtain ⟨head, taken, rest, q', hsub, hhead, hfree, hbufs, -, hok', hused, hsize, -⟩ :=
    hok.submit hne hfit
  have hlen : taken.length = bufs.length := by rw [← hbufs, length_map]
  refine ⟨head, q', hsub, ⟨rest, taken :: chains, hok', ?_⟩, ?_, hused, hsize⟩
  · rw [map_cons, map_cons, hhead]
    exact hperm.cons _
  · rw [hok'.numFree, hok.numFree, hfree, length_append, hlen]
    exact (Nat.add_sub_cancel_left _ _).symm

theorem submit_full (hfull : q.numFree < bufs.length) : q.submit bufs = (none, q) := by
  rw [Virtq.submit, if_neg (Nat.ne_of_gt (Nat.lt_of_le_of_lt (Nat.zero_le _) hfull)), if_pos hfull]

theorem Holds.poll (h : q.Holds heads) {used : List Nat} (hmem : head ∈ heads)
    (hused : q.used = head :: used) :
    ∃ q', q.poll = (some head, q') ∧ q'.Holds (heads.erase head) ∧ q'.used = used ∧
      q'.queueSize = q.queueSize := by
  obtain ⟨free, chains, hok, hperm⟩ := h
  obtain ⟨c, hc, hhead⟩ := Holds.exists_chain hperm hmem
  obtain ⟨q', hpoll, hok', hused', hsize, -⟩ := hok.poll hc hhead hused
  refine ⟨q', hpoll, ⟨_, _, hok', ?_⟩, hused', hsize⟩
  have hchains := (perm_cons_erase hc).map head?
  have hheads := (perm_cons_erase hmem).map some
  rw [map_cons, hhead] at hchains
  exact (hchains.symm.trans (hperm.trans hheads)).cons_inv

end Holds

end Virtq

end Kyuzen.Drivers
