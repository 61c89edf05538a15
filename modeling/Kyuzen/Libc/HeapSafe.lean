import Kyuzen.Libc.Heap

/-!
The heap over arenas is an allocator again: what the program holds are disjoint blocks, each
in one arena, whatever happened to the table.
-/

namespace Kyuzen.Libc

open List Option Heap

variable {A : Allocator} {B : Backing}

/-! ## The table -/

def allBlocks (as : List (Arena A)) : List Block := as.flatMap fun a => A.blocks a.heap

structure Synced (a : Arena A) : Prop where
  region : A.region a.heap = a.region
  live : a.live = (A.blocks a.heap).length
  pos : 0 < a.base

/-- The regions do not overlap, and the counts are right. -/
structure TableOk (as : List (Arena A)) : Prop where
  apart : as.Pairwise fun a b => a.region.Disjoint b.region
  synced : ∀ a ∈ as, Synced a

section Table

variable {as as' r : List (Arena A)} {a a' : Arena A} {b : Block} {p : Nat}

theorem TableOk.perm (h : TableOk as) (hp : as.Perm as') : TableOk as' where
  apart := (hp.pairwise_iff Block.Disjoint.symm).mp h.apart
  synced a ha := h.synced a (hp.mem_iff.mpr ha)

theorem TableOk.replace (h : TableOk (a :: r)) (ha : Synced a') (hregion : a'.region = a.region) :
    TableOk (a' :: r) where
  apart := by
    obtain ⟨hall, hr⟩ := pairwise_cons.mp h.apart
    rw [← hregion] at hall
    exact pairwise_cons.mpr ⟨hall, hr⟩
  synced := forall_mem_cons.mpr ⟨ha, fun c hc => h.synced c (.tail _ hc)⟩

theorem TableOk.tail (h : TableOk (a :: r)) : TableOk r where
  apart := (pairwise_cons.mp h.apart).2
  synced c hc := h.synced c (.tail _ hc)

theorem mem_allBlocks : b ∈ allBlocks as ↔ ∃ a ∈ as, b ∈ A.blocks a.heap := mem_flatMap

theorem allBlocks_cons : allBlocks (a :: r) = A.blocks a.heap ++ allBlocks r := rfl

theorem allBlocks_perm (hp : as.Perm as') : (allBlocks as).Perm (allBlocks as') :=
  hp.flatMap_right _

theorem Synced.within (h : Synced a) (hb : b ∈ A.blocks a.heap) : b.Within a.region ∧ 0 < b.len := by
  rw [← h.region]
  exact A.within a.heap b hb

theorem TableOk.outside (h : TableOk (a :: r)) (hb : b ∈ allBlocks r) : b.Disjoint a.region := by
  obtain ⟨c, hc, hbc⟩ := mem_allBlocks.mp hb
  have hdisj := (pairwise_cons.mp h.apart).1 c hc
  have hwithin := ((h.synced c (.tail _ hc)).within hbc).1
  exact (hdisj.mono ⟨le_rfl, le_rfl⟩ hwithin).symm

section
variable (h : TableOk as)
include h

theorem TableOk.disjoint : (allBlocks as).Pairwise Block.Disjoint := by
  induction as with
  | nil => exact Pairwise.nil
  | cons a as ih =>
    rw [allBlocks_cons, pairwise_append]
    refine ⟨A.disjoint a.heap, ih h.tail, ?_⟩
    intro b hb c hc
    have hwithin := ((h.synced a (.head _)).within hb).1
    exact ((h.outside hc).mono ⟨le_rfl, le_rfl⟩ hwithin).symm

theorem TableOk.block_pos (hb : b ∈ allBlocks as) : 0 < b.len ∧ 0 < b.addr := by
  obtain ⟨a, ha, hba⟩ := mem_allBlocks.mp hb
  have hsync := h.synced a ha
  obtain ⟨hwithin, hlen⟩ := hsync.within hba
  exact ⟨hlen, lt_of_lt_of_le hsync.pos hwithin.1⟩

theorem TableOk.block_unique {c : Block} (hb : b ∈ allBlocks as)
    (hc : c ∈ allBlocks as) (heq : b.addr = c.addr) : b = c := by
  by_contra hne
  have hdisj : b.Disjoint c := h.disjoint.forall hb hc hne
  have hb' := (h.block_pos hb).1
  have hc' := (h.block_pos hc).1
  unfold Block.Disjoint at hdisj
  omega

theorem TableOk.arena_unique (ha : a ∈ as) (ha' : a' ∈ as) (hp : a.region.Has p)
    (hp' : a'.region.Has p) : a = a' := by
  by_contra hne
  have hdisj : a.region.Disjoint a'.region := h.apart.forall ha ha' hne
  exact hdisj.not_has hp hp'

end

variable {idx : Nat}

theorem exists_perm_of_getElem? (h : as[idx]? = some a) :
    ∃ r, as.Perm (a :: r) ∧ ∀ a', (as.set idx a').Perm (a' :: r) := by
  obtain ⟨hlt, hget⟩ := List.getElem?_eq_some_iff.mp h
  refine ⟨as.take idx ++ as.drop (idx + 1), ?_, ?_⟩
  · have hsplit : as = as.take idx ++ a :: as.drop (idx + 1) := by
      rw [← hget, cons_getElem_drop_succ, take_append_drop]
    nth_rewrite 1 [hsplit]
    exact perm_middle
  · intro a'
    rw [set_eq_take_append_cons_drop, if_pos hlt]
    exact perm_middle

/-- Moving the last slot into a slot takes that slot's arena out. -/
theorem drop_perm (h : as[idx]? = some a) (hp : as.Perm (a :: r)) : (compact as idx).Perm r := by
  obtain ⟨hlt, hget⟩ := List.getElem?_eq_some_iff.mp h
  obtain ⟨l₁, l₂, rfl, rfl⟩ : ∃ l₁ l₂, as = l₁ ++ a :: l₂ ∧ l₁.length = idx := by
    refine ⟨as.take idx, as.drop (idx + 1), ?_, length_take_of_le (le_of_lt hlt)⟩
    rw [← hget, cons_getElem_drop_succ, take_append_drop]
  have hr : (l₁ ++ l₂).Perm r := (perm_middle.symm.trans hp).cons_inv
  rcases eq_nil_or_concat l₂ with rfl | ⟨l₃, z, rfl⟩
  · have hlast : (l₁ ++ [a]).length - 1 = l₁.length := by
      rw [length_append, length_singleton, Nat.add_sub_cancel]
    rw [compact, hlast, getElem?_append_right le_rfl, Nat.sub_self]
    dsimp only [getElem?_cons_zero]
    rw [if_neg (fun h => h rfl), take_left]
    rw [append_nil] at hr
    exact hr
  rw [concat_eq_append] at hr ⊢
  have hlast : (l₁ ++ a :: (l₃ ++ [z])).length - 1 = (l₁ ++ a :: l₃).length := by
    simp only [length_append, length_cons, length_nil]
    omega
  have hz : (l₁ ++ a :: (l₃ ++ [z]))[(l₁ ++ a :: l₃).length]? = some z := by
    rw [← cons_append, ← append_assoc, getElem?_append_right le_rfl, Nat.sub_self]
    rfl
  have hne : l₁.length ≠ (l₁ ++ a :: l₃).length := by
    rw [length_append, length_cons]
    omega
  have hset : (l₁ ++ a :: (l₃ ++ [z])).set l₁.length z = (l₁ ++ z :: l₃) ++ [z] := by
    rw [set_append_right _ _ le_rfl, Nat.sub_self, set_cons_zero, append_assoc]
    rfl
  have hlen : (l₁ ++ a :: l₃).length = (l₁ ++ z :: l₃).length := by
    rw [length_append, length_append]
    rfl
  rw [compact, hlast, hz]
  dsimp only
  rw [if_pos hne, hset, hlen, take_left]
  apply Perm.trans _ hr
  rw [← append_assoc]
  exact perm_middle.trans (perm_append_singleton z (l₁ ++ l₃)).symm

theorem Heap.arenaIndexOf_eq {s : Heap A} (h : TableOk s.arenas) (ha : a ∈ s.arenas)
    (hp : a.region.Has p) : ∃ idx, s.arenaIndexOf p = some idx ∧ s.arenas[idx]? = some a := by
  cases hidx : s.arenaIndexOf p with
  | none =>
    have hnone := findIdx?_eq_none_iff.mp hidx a ha
    exact absurd hp (of_decide_eq_false hnone)
  | some idx =>
    obtain ⟨hlt, hhas, -⟩ := findIdx?_eq_some_iff_getElem.mp hidx
    have hmem : s.arenas[idx] ∈ s.arenas := getElem_mem hlt
    have hthe : a = s.arenas[idx] := h.arena_unique ha hmem hp (of_decide_eq_true hhas)
    refine ⟨idx, rfl, ?_⟩
    rw [hthe]
    exact getElem?_eq_getElem hlt

end Table

/-! ## What the program holds -/

/-- Every block that the program holds is the front of a live block, and the other way round. -/
def Backed (held blocks : List Block) : Prop :=
  ∃ l : List (Block × Block), (l.map Prod.fst).Perm held ∧ (l.map Prod.snd).Perm blocks ∧
    ∀ q ∈ l, q.1.addr = q.2.addr ∧ 0 < q.1.len ∧ q.1.len ≤ q.2.len

section Backed

variable {held blocks rest : List Block} {x b : Block}

section
variable (h : Backed held blocks)
include h

theorem Backed.perm {blocks' : List Block} (hp : blocks.Perm blocks') : Backed held blocks' := by
  obtain ⟨l, hheld, hblocks, hall⟩ := h
  exact ⟨l, hheld, hblocks.trans hp, hall⟩

theorem Backed.cons (haddr : x.addr = b.addr) (hpos : 0 < x.len)
    (hle : x.len ≤ b.len) : Backed (x :: held) (b :: blocks) := by
  obtain ⟨l, hheld, hblocks, hall⟩ := h
  exact ⟨(x, b) :: l, hheld.cons x, hblocks.cons b, forall_mem_cons.mpr ⟨⟨haddr, hpos, hle⟩, hall⟩⟩

theorem Backed.block (hx : x ∈ held) :
    ∃ b ∈ blocks, x.addr = b.addr ∧ 0 < x.len ∧ x.len ≤ b.len := by
  obtain ⟨l, hheld, hblocks, hall⟩ := h
  obtain ⟨q, hq, rfl⟩ := mem_map.mp (hheld.mem_iff.mpr hx)
  exact ⟨q.2, hblocks.mem_iff.mp (mem_map_of_mem hq), hall q hq⟩

end

/-- The block behind `x` is gone, and so is `x`. -/
theorem Backed.remove (h : Backed (x :: held) (b :: rest)) (haddr : x.addr = b.addr)
    (hunique : ∀ c ∈ b :: rest, c.addr = b.addr → c = b) : Backed held rest := by
  obtain ⟨l, hheld, hblocks, hall⟩ := h
  obtain ⟨q, hq, hqx⟩ := mem_map.mp (hheld.mem_iff.mpr (.head _))
  have hqb : q.2 = b := by
    apply hunique _ (hblocks.mem_iff.mp (mem_map_of_mem hq))
    rw [← (hall q hq).1, hqx, haddr]
  have hl := perm_cons_erase hq
  refine ⟨l.erase q, ?_, ?_, fun q' hq' => hall q' (mem_of_mem_erase hq')⟩
  · have hfst := (hl.map Prod.fst).symm.trans hheld
    rw [map_cons, hqx] at hfst
    exact hfst.cons_inv
  · have hsnd := (hl.map Prod.snd).symm.trans hblocks
    rw [map_cons, hqb] at hsnd
    exact hsnd.cons_inv

theorem Backed.permHeld (h : Backed held blocks) {held' : List Block} (hp : held.Perm held') :
    Backed held' blocks := by
  obtain ⟨l, hheld, hblocks, hall⟩ := h
  exact ⟨l, hheld.trans hp, hblocks, hall⟩

theorem within_of_le (haddr : x.addr = b.addr) (hle : x.len ≤ b.len) : x.Within b := by
  unfold Block.Within
  omega

theorem Backed.disjoint (h : Backed held blocks) (hblocks : blocks.Pairwise Block.Disjoint) :
    held.Pairwise Block.Disjoint := by
  obtain ⟨l, hheld, hperm, hall⟩ := h
  have hsnd := (hperm.pairwise_iff Block.Disjoint.symm).mpr hblocks
  have hfst : (l.map Prod.fst).Pairwise Block.Disjoint := by
    rw [pairwise_map] at hsnd ⊢
    apply hsnd.imp_of_mem
    intro q q' hq hq' hdisj
    obtain ⟨haddr, _, hle⟩ := hall q hq
    obtain ⟨haddr', _, hle'⟩ := hall q' hq'
    exact hdisj.mono (within_of_le haddr hle) (within_of_le haddr' hle')
  exact (hheld.pairwise_iff Block.Disjoint.symm).mp hfst

theorem Backed.same (h : Backed held blocks) {m m' : Mem} (hsame : ∀ c ∈ blocks, c.Same m m') :
    ∀ y ∈ held, y.Same m m' := by
  intro y hy i hi
  obtain ⟨c, hc, haddr, _, hle⟩ := h.block hy
  exact hsame c hc i ((within_of_le haddr hle).has hi)

end Backed

/-! ## The calls -/

/-- The table and the regions: each that was handed out is in the table or was returned, once,
and nothing was live in those returned. A large arena has a live block. -/
structure Core (s : Heap A) : Prop where
  table : TableOk s.arenas
  dedicated : ∀ a ∈ s.arenas, a.bytes > maxArenaBytes → a.live ≠ 0
  ids : (s.arenas.map Arena.id ++ s.returned.map Prod.fst).Perm s.handed
  nodup : s.handed.Nodup
  lt : ∀ i ∈ s.handed, i < s.calls
  empty : ∀ r ∈ s.returned, r.2 = []

structure Inv (s : Heap A) : Prop where
  core : Core s
  backed : Backed s.held (allBlocks s.arenas)

/-- What a call that gives out a new block does, before the program holds it. -/
structure Allocated (s s' : Heap A) (p n : Nat) : Prop where
  core : Core s'
  blocks : ∃ len, n ≤ len ∧ (allBlocks s'.arenas).Perm (⟨p, len⟩ :: allBlocks s.arenas)
  held : s'.held = s.held
  same : ∀ b ∈ allBlocks s.arenas, b.Same s.mem s'.mem

structure Refused (s s' : Heap A) : Prop where
  core : Core s'
  arenas : s'.arenas = s.arenas
  held : s'.held = s.held
  mem : s'.mem = s.mem

theorem TableOk.tryArena {r : List (Arena A)} {a a' : Arena A} {m m' : Mem} {p al n : Nat}
    (h : TableOk (a :: r)) (htry : Heap.tryArena a m al n = some (p, a', m')) :
    TableOk (a' :: r) ∧ a'.id = a.id ∧ a'.live ≠ 0 ∧
      (∃ len, n ≤ len ∧ (allBlocks (a' :: r)).Perm (⟨p, len⟩ :: allBlocks (a :: r))) ∧
      ∀ b ∈ allBlocks (a :: r), b.Same m m' := by
  rw [Heap.tryArena] at htry
  split at htry
  · exact nomatch htry
  rename_i p₁ heap m₁ halloc
  obtain ⟨rfl, rfl, rfl⟩ : p₁ = p ∧ {a with heap := heap, live := a.live + 1} = a' ∧ m₁ = m' := by
    have heq := some.inj htry
    exact ⟨congrArg Prod.fst heq, congrArg (fun q => q.2.1) heq, congrArg (fun q => q.2.2) heq⟩
  obtain ⟨hregion, ⟨len, hle, hblocks⟩, hsame, hout⟩ := A.allocate_spec _ _ _ _ _ _ _ halloc
  have hsync := h.synced a (.head _)
  have hsync' : Synced ({a with heap := heap, live := a.live + 1} : Arena A) := by
    refine ⟨hregion.trans hsync.region, ?_, hsync.pos⟩
    rw [hblocks.length_eq, length_cons, ← hsync.live]
  refine ⟨h.replace hsync' rfl, rfl, Nat.succ_ne_zero _, ⟨len, hle, ?_⟩, ?_⟩
  · exact hblocks.append_right (allBlocks r)
  intro b hb
  rcases mem_append.mp hb with hb | hb
  · exact hsame b hb
  · intro i hi
    apply hout i
    rw [hsync.region]
    exact (h.outside hb).not_has hi

section Calls

variable {x : Block} {al : Nat} {mem : Mem} {s s' s'' : Heap A} {a : Arena A} {p n : Nat}

theorem Refused.trans (h : Refused s s') (h' : Refused s' s'') : Refused s s'' :=
  ⟨h'.core, h'.arenas.trans h.arenas, h'.held.trans h.held, h'.mem.trans h.mem⟩

theorem Refused.allocated (h : Refused s s') (h' : Allocated s' s'' p n) : Allocated s s'' p n := by
  obtain ⟨hcore, hblocks, hheld, hsame⟩ := h'
  rw [h.arenas] at hblocks hsame
  rw [h.mem] at hsame
  exact ⟨hcore, hblocks, hheld.trans h.held, hsame⟩

variable {a' : Arena A} {need : Nat} {r : Option Nat × Heap A} {y : Block}

theorem Core.replaced (h : Core s) {arenas r : List (Arena A)} (mem : Mem)
    (held : List Block) (hs : s.arenas.Perm (a :: r)) (hs' : arenas.Perm (a' :: r))
    (htable : TableOk (a' :: r)) (hid : a'.id = a.id)
    (hlive : a'.bytes > maxArenaBytes → a'.live ≠ 0) :
    Core {s with arenas := arenas, mem := mem, held := held} where
  __ := h
  table := htable.perm hs'.symm
  dedicated c hc := by
    rcases mem_cons.mp (hs'.mem_iff.mp hc) with rfl | hc
    · exact hlive
    · exact h.dedicated c (hs.mem_iff.mpr (.tail _ hc))
  ids := by
    have hmap : (arenas.map Arena.id).Perm (s.arenas.map Arena.id) := by
      apply (hs'.map Arena.id).trans
      rw [map_cons, hid, ← map_cons]
      exact (hs.map Arena.id).symm
    exact (hmap.append_right _).trans h.ids

theorem tryAll_spec {as as' : List (Arena A)} {m m' : Mem}
    (h : tryAll al n as m = some (p, as', m')) :
    ∃ l a r a', as = l ++ a :: r ∧ as' = l ++ a' :: r ∧ tryArena a m al n = some (p, a', m') := by
  induction as generalizing as' with
  | nil => exact nomatch h
  | cons a as ih =>
    rw [tryAll] at h
    split at h
    next p₁ a₁ m₁ htry =>
      have heq := some.inj h
      obtain rfl : p₁ = p := congrArg Prod.fst heq
      obtain rfl : m₁ = m' := congrArg (fun q => q.2.2) heq
      exact ⟨[], a, as, a₁, rfl, (congrArg (fun q => q.2.1) heq).symm, htry⟩
    · split at h
      · exact nomatch h
      next p₁ as₁ m₁ hall =>
        have heq := some.inj h
        obtain rfl : p₁ = p := congrArg Prod.fst heq
        obtain rfl : m₁ = m' := congrArg (fun q => q.2.2) heq
        obtain ⟨l, c, r, c', has, has', htry⟩ := ih hall
        refine ⟨a :: l, c, r, c', congrArg (a :: ·) has, ?_, htry⟩
        exact (congrArg (fun q => q.2.1) heq).symm.trans (congrArg (a :: ·) has')

theorem Core.tryAll (h : Core s) {arenas : List (Arena A)}
    (htry : tryAll al n s.arenas s.mem = some (p, arenas, mem)) :
    Allocated s {s with arenas := arenas, mem := mem} p n := by
  obtain ⟨l, a, r, a', hs, rfl, ha⟩ := tryAll_spec htry
  have hperm : s.arenas.Perm (a :: (l ++ r)) := by
    rw [hs]
    exact perm_middle
  have hperm' : (l ++ a' :: r).Perm (a' :: (l ++ r)) := perm_middle
  obtain ⟨htable, hid, hlive, ⟨len, hle, hblocks⟩, hsame⟩ := (h.table.perm hperm).tryArena ha
  constructor
  · exact h.replaced mem s.held hperm hperm' htable hid fun _ => hlive
  · exact ⟨len, hle, (allBlocks_perm hperm').trans
      (hblocks.trans ((allBlocks_perm hperm).symm.cons _))⟩
  · rfl
  · exact fun b hb => hsame b ((allBlocks_perm hperm).mem_iff.mp hb)

theorem Core.grow_none (h : Core s) (hgrow : s.grow B need = (none, s')) : Refused s s' := by
  rw [grow] at hgrow
  split at hgrow
  · obtain rfl := congrArg Prod.snd hgrow
    exact ⟨h, rfl, rfl, rfl⟩
  dsimp only at hgrow
  split at hgrow
  · obtain rfl := congrArg Prod.snd hgrow
    refine ⟨{h with lt := ?_}, rfl, rfl, rfl⟩
    exact fun i hi => Nat.lt_succ_of_lt (h.lt i hi)
  · exact nomatch congrArg Prod.fst hgrow

structure Grown (s s' : Heap A) (a : Arena A) : Prop where
  arenas : s'.arenas = s.arenas ++ [a]
  table : TableOk (a :: s.arenas)
  id : a.id = s.calls
  blocks : A.blocks a.heap = []
  calls : s'.calls = s.calls + 1
  handed : s'.handed = s.calls :: s.handed
  returned : s'.returned = s.returned
  held : s'.held = s.held
  mem : s'.mem = s.mem

theorem Core.grow_some (h : Core s) (hgrow : s.grow B need = (some a, s')) : Grown s s' a := by
  rw [grow] at hgrow
  split at hgrow
  · exact nomatch congrArg Prod.fst hgrow
  dsimp only at hgrow
  split at hgrow
  · exact nomatch congrArg Prod.fst hgrow
  rename_i base hregion
  obtain ⟨hpos, hfresh⟩ := B.fresh _ _ _ _ hregion
  obtain rfl := some.inj (congrArg Prod.fst hgrow)
  obtain rfl := congrArg Prod.snd hgrow
  refine ⟨rfl, ⟨?_, ?_⟩, rfl, A.blocks_create _, rfl, rfl, rfl, rfl, rfl⟩
  · apply pairwise_cons.mpr ⟨_, h.table.apart⟩
    exact fun c hc => hfresh _ (mem_map_of_mem hc)
  · apply forall_mem_cons.mpr ⟨⟨A.region_create _, _, hpos⟩, h.table.synced⟩
    rw [A.blocks_create]
    rfl

theorem Grown.allBlocks (h : Grown s s' a) : Libc.allBlocks
    (a :: s.arenas) = Libc.allBlocks s.arenas := by
  rw [allBlocks_cons, h.blocks]
  rfl

theorem Grown.perm (h : Grown s s' a) : s'.arenas.Perm (a :: s.arenas) := by
  rw [h.arenas]
  exact perm_append_singleton a s.arenas

theorem Grown.last (h : Grown s s' a) : s'.arenas[s'.arenas.length - 1]? = some a := by
  rw [h.arenas, length_append, length_singleton, Nat.add_sub_cancel,
    getElem?_append_right le_rfl, Nat.sub_self]
  rfl

theorem Core.notMem_calls (h : Core s) : s.calls ∉ s.handed := fun hmem => lt_irrefl _ (h.lt _ hmem)

theorem Core.grown_allocated (h : Core s) (hg : Grown s s' a)
    (htry : Heap.tryArena a s'.mem al n = some (p, a', mem)) :
    Allocated s {s' with arenas := s'.arenas.set (s'.arenas.length - 1) a', mem := mem} p n := by
  obtain ⟨htable, hid, hlive, ⟨len, hle, hblocks⟩, hsame⟩ := hg.table.tryArena htry
  have hset : (s'.arenas.set (s'.arenas.length - 1) a').Perm (a' :: s.arenas) := by
    obtain ⟨r, hr, hset⟩ := exists_perm_of_getElem? hg.last
    exact (hset a').trans ((hr.symm.trans hg.perm).cons_inv.cons a')
  rw [hg.allBlocks] at hblocks hsame
  constructor
  · constructor
    · exact htable.perm hset.symm
    · intro c hc
      rcases mem_cons.mp (hset.mem_iff.mp hc) with rfl | hc
      · exact fun _ => hlive
      · exact h.dedicated c hc
    · have hmap := (hset.map Arena.id).append_right (s'.returned.map Prod.fst)
      rw [map_cons, hid, hg.id, hg.returned, cons_append] at hmap
      rw [hg.handed, hg.returned]
      exact hmap.trans (h.ids.cons _)
    · rw [hg.handed]
      exact nodup_cons.mpr ⟨h.notMem_calls, h.nodup⟩
    · rw [hg.handed, hg.calls]
      exact forall_mem_cons.mpr ⟨Nat.lt_succ_self _, fun i hi => Nat.lt_succ_of_lt (h.lt i hi)⟩
    · rw [hg.returned]
      exact h.empty
  · exact ⟨len, hle, (allBlocks_perm hset).trans hblocks⟩
  · exact hg.held
  · rw [hg.mem] at hsame
    exact hsame

/-- The new arena does not serve the request, and goes back. -/
theorem Core.grown_dropped (h : Core s) (hg : Grown s s' a) :
    Refused s (s'.dropArena (s'.arenas.length - 1) (decide (s'.arenas.length - 1 = 0))) := by
  have hlast : s'.arenas.length - 1 = s.arenas.length := by
    rw [hg.arenas, length_append, length_singleton, Nat.add_sub_cancel]
  have hfirst : ¬ (s'.arenas.length - 1 = 0 ∧ decide (s'.arenas.length - 1 = 0) = false) :=
    fun hand => of_decide_eq_false hand.2 hand.1
  rw [dropArena, hg.last]
  dsimp only
  have hcompact : compact s'.arenas (s'.arenas.length - 1) = s.arenas := by
    rw [compact, hg.last]
    dsimp only
    rw [if_neg (fun hne => hne rfl), hlast, hg.arenas, take_left]
  rw [if_neg hfirst, hcompact]
  constructor
  · constructor
    · exact h.table
    · exact h.dedicated
    · rw [hg.handed, hg.returned, hg.id]
      exact perm_middle.trans (h.ids.cons _)
    · rw [hg.handed]
      exact nodup_cons.mpr ⟨h.notMem_calls, h.nodup⟩
    · rw [hg.handed, hg.calls]
      exact forall_mem_cons.mpr ⟨Nat.lt_succ_self _, fun i hi => Nat.lt_succ_of_lt (h.lt i hi)⟩
    · rw [hg.returned]
      exact forall_mem_cons.mpr ⟨hg.blocks, h.empty⟩
  · rfl
  · exact hg.held
  · exact hg.mem

/-- An allocation gives out one new block or changes nothing that matters. -/
def Served (s : Heap A) (n : Nat) (r : Option Nat × Heap A) : Prop :=
  match r with
  | (none, s') => Refused s s'
  | (some p, s') => Allocated s s' p n

theorem Refused.served (h : Refused s s') (hr : Served s' n r) : Served s n r := by
  match r with
  | (none, _) => exact h.trans hr
  | (some _, _) => exact h.allocated hr

theorem Core.attempts (h : Core s) (al n k margin : Nat) :
    Served s n (attempts B al n k margin s) := by
  induction k generalizing margin s with
  | zero => exact ⟨h, rfl, rfl, rfl⟩
  | succ k ih =>
    rw [attempts]
    split
    · exact ⟨h, rfl, rfl, rfl⟩
    split
    next hgrow => exact h.grow_none hgrow
    rename_i a s' hgrow
    have hg := h.grow_some hgrow
    split
    next htry => exact h.grown_allocated hg htry
    · have hdrop := h.grown_dropped hg
      exact hdrop.served (ih hdrop.core _)

theorem Core.allocImpl (h : Core s) (al n : Nat) : Served s n (s.allocImpl B al n) := by
  rw [Heap.allocImpl]
  split
  next htry => exact h.tryAll htry
  · exact h.attempts al n 3 _

/-- What an allocating call leaves: the invariant, the new block first, the others untouched. -/
structure Gave (s s' : Heap A) (n : Nat) (res : Option Nat) : Prop where
  inv : Inv s'
  given : ∀ p, res = some p → s'.held = ⟨p, n⟩ :: s.held
  refused : res = none → s'.held = s.held
  same : ∀ y ∈ s.held, y.Same s.mem s'.mem

section
variable (h : Inv s)
include h

theorem Inv.hold (hr : Served s n r) (hn : 0 < n) : Gave s (hold n r).2 n (hold n r).1 := by
  match r with
  | (none, s') =>
    have hr : Refused s s' := hr
    refine ⟨⟨hr.core, ?_⟩, nofun, fun _ => hr.held, ?_⟩
    · change Backed s'.held (allBlocks s'.arenas)
      rw [hr.held, hr.arenas]
      exact h.backed
    · intro y _ i _
      exact congrFun hr.mem i
  | (some p, s') =>
    have hr : Allocated s s' p n := hr
    obtain ⟨len, hle, hblocks⟩ := hr.blocks
    refine ⟨⟨⟨hr.core.table, hr.core.dedicated, hr.core.ids, hr.core.nodup, hr.core.lt,
      hr.core.empty⟩, ?_⟩, ?_, nofun, ?_⟩
    · change Backed (⟨p, n⟩ :: s'.held) (allBlocks s'.arenas)
      rw [hr.held]
      exact (h.backed.cons (x := ⟨p, n⟩) (b := ⟨p, len⟩) rfl hn hle).perm hblocks.symm
    · intro q hq
      rw [← some.inj hq]
      exact congrArg (_ :: ·) hr.held
    · exact h.backed.same hr.same

theorem Inv.unchanged : Gave s s n none := ⟨h, nofun, fun _ => rfl, fun _ _ _ _ => rfl⟩

theorem Inv.alloc (n : Nat) : Gave s (s.alloc B n).2 n (s.alloc B n).1 := by
  rw [Heap.alloc]
  split
  · exact h.unchanged
  rename_i hn
  split
  · exact h.unchanged
  · exact h.hold (h.core.allocImpl 0 n) (Nat.pos_of_ne_zero hn)

theorem Inv.alignedAlloc (al n : Nat) :
    Gave s (s.alignedAlloc B al n).2 n (s.alignedAlloc B al n).1 := by
  rw [Heap.alignedAlloc]
  split
  · exact h.unchanged
  split
  · exact h.unchanged
  next hn => exact h.hold (h.core.allocImpl al n) (Nat.pos_of_ne_zero (not_or.mp hn).1)

theorem Inv.addr_ne_zero (hx : x ∈ s.held) : x.addr ≠ 0 := by
  obtain ⟨b, hb, haddr, -⟩ := h.backed.block hx
  rw [haddr]
  exact ne_of_gt (h.core.table.block_pos hb).2

theorem Inv.locate (hx : x ∈ s.held) :
    ∃ idx a b r, s.arenaIndexOf x.addr = some idx ∧ s.arenas[idx]? = some a ∧
      s.arenas.Perm (a :: r) ∧ (∀ a', (s.arenas.set idx a').Perm (a' :: r)) ∧
      b ∈ A.blocks a.heap ∧ x.addr = b.addr ∧ x.len ≤ b.len := by
  obtain ⟨b, hb, haddr, _, hle⟩ := h.backed.block hx
  obtain ⟨a, ha, hba⟩ := mem_allBlocks.mp hb
  obtain ⟨hwithin, hpos⟩ := (h.core.table.synced a ha).within hba
  have hhas : a.region.Has x.addr := by
    rw [haddr]
    exact hwithin.has_addr hpos
  obtain ⟨idx, hidx, hget⟩ := arenaIndexOf_eq h.core.table ha hhas
  obtain ⟨r, hperm, hset⟩ := exists_perm_of_getElem? hget
  exact ⟨idx, a, b, r, hidx, hget, hperm, hset, hba, haddr, hle⟩

end

theorem perm_eraseP {held : List Block} (hx : x ∈ held)
    (hunique : ∀ y ∈ held, y.addr = x.addr → y = x) :
    held.Perm (x :: held.eraseP fun b => b.addr = x.addr) := by
  obtain ⟨y, l₁, l₂, _, hy, heq, herase⟩ :=
    exists_of_eraseP (p := fun b : Block => decide (b.addr = x.addr)) hx (decide_eq_true rfl)
  have hmem : y ∈ held := by
    rw [heq]
    exact mem_append_right _ (.head _)
  rw [herase, ← hunique y hmem (of_decide_eq_true hy)]
  nth_rewrite 1 [heq]
  exact perm_middle

theorem Inv.held_unique (h : Inv s) (hx : x ∈ s.held) (hy : y ∈ s.held)
    (heq : y.addr = x.addr) : y = x := by
  by_contra hne
  have hdisj : y.Disjoint x := (h.backed.disjoint h.core.table.disjoint).forall hy hx hne
  obtain ⟨_, _, _, hpos, _⟩ := h.backed.block hx
  obtain ⟨_, _, _, hpos', _⟩ := h.backed.block hy
  unfold Block.Disjoint at hdisj
  omega

structure Freed (s s' : Heap A) (x : Block) : Prop where
  inv : Inv s'
  held : s.held.Perm (x :: s'.held)
  same : ∀ y ∈ s'.held, y.Same s.mem s'.mem

theorem Inv.free (h : Inv s) (hx : x ∈ s.held) : Freed s (s.free x.addr) x := by
  obtain ⟨idx, a, b, r, hidx, hget, hperm, hset, hb, haddr, -⟩ := h.locate hx
  have htable := h.core.table.perm hperm
  have hsync := htable.synced a (.head _)
  obtain ⟨hregion, hblocks, hsame, hout⟩ := A.free_spec a.heap s.mem b hb
  rw [← haddr] at hregion hblocks hsame hout
  have hheld : s.held.Perm (x :: s.held.eraseP fun c => c.addr = x.addr) :=
    perm_eraseP hx fun y hy heq => h.held_unique hx hy heq
  have hsync' : Synced ({a with heap := (A.free a.heap s.mem x.addr).1, live := a.live - 1} : Arena A) := by
    refine ⟨hregion.trans hsync.region, ?_, hsync.pos⟩
    rw [hsync.live, hblocks.length_eq]
    rfl
  have htable' := htable.replace hsync' rfl
  have hall : (allBlocks s.arenas).Perm (b :: (A.blocks (A.free a.heap s.mem x.addr).1 ++ allBlocks r)) :=
    (allBlocks_perm hperm).trans (hblocks.append_right _)
  have hbacked : Backed (s.held.eraseP fun c => c.addr = x.addr)
      (A.blocks (A.free a.heap s.mem x.addr).1 ++ allBlocks r) := by
    apply ((h.backed.permHeld hheld).perm hall).remove haddr
    intro c hc heq
    exact h.core.table.block_unique (hall.mem_iff.mpr hc) (hall.mem_iff.mpr (.head _)) heq
  have hmem : ∀ c ∈ A.blocks (A.free a.heap s.mem x.addr).1 ++ allBlocks r,
      c.Same s.mem (A.free a.heap s.mem x.addr).2 := by
    intro c hc
    rcases mem_append.mp hc with hc | hc
    · exact hsame c hc
    · intro i hi
      apply hout i
      rw [hsync.region]
      exact (htable.outside hc).not_has hi
  rw [Heap.free, if_neg (h.addr_ne_zero hx), hidx]
  dsimp only
  rw [hget]
  dsimp only
  split
  · -- The last block of a large arena: the region goes back.
    rename_i hlast
    have hnil : A.blocks (A.free a.heap s.mem x.addr).1 = [] := by
      apply length_eq_zero_iff.mp
      rw [← hsync'.live]
      exact hlast.1
    have hget' : (s.arenas.set idx
        {a with heap := (A.free a.heap s.mem x.addr).1, live := a.live - 1})[idx]? =
          some {a with heap := (A.free a.heap s.mem x.addr).1, live := a.live - 1} :=
      getElem?_set_self (List.getElem?_eq_some_iff.mp hget).1
    have hcompact := drop_perm hget' (hset _)
    rw [Heap.dropArena, hget']
    dsimp only
    rw [if_neg (fun hand => nomatch hand.2)]
    rw [hnil, nil_append] at hbacked hmem
    refine ⟨⟨⟨?_, ?_, ?_, h.core.nodup, h.core.lt, ?_⟩, ?_⟩, hheld, ?_⟩
    · exact htable.tail.perm hcompact.symm
    · intro c hc
      exact h.core.dedicated c (hperm.mem_iff.mpr (.tail _ (hcompact.mem_iff.mp hc)))
    · apply perm_middle.trans
      have hids := ((hperm.map Arena.id).append_right (s.returned.map Prod.fst)).symm.trans h.core.ids
      exact ((hcompact.map Arena.id).append_right _).cons a.id |>.trans hids
    · exact forall_mem_cons.mpr ⟨hnil, h.core.empty⟩
    · exact hbacked.perm (allBlocks_perm hcompact.symm)
    · exact hbacked.same hmem
  next hkeep =>
    refine ⟨⟨?_, ?_⟩, hheld, hbacked.same hmem⟩
    · apply h.core.replaced _ _ hperm (hset _) htable' rfl
      exact fun hbytes hzero => hkeep ⟨hzero, hbytes⟩
    · apply hbacked.perm
      exact (allBlocks_perm (hset
        {a with heap := (A.free a.heap s.mem x.addr).1, live := a.live - 1})).symm

theorem fill_same {m : Mem} {len : Nat} {f : Nat → UInt8} (hdisj : x.Disjoint y)
    (hlen : len ≤ x.len) : y.Same m (fill m x.addr len f) := by
  intro i hi
  apply if_neg
  intro hin
  exact hdisj.not_has ⟨hin.1, lt_of_lt_of_le hin.2 (Nat.add_le_add_left hlen _)⟩ hi

theorem Inv.setMem (h : Inv s) (mem : Mem) : Inv {s with mem := mem} :=
  ⟨⟨h.core.table, h.core.dedicated, h.core.ids, h.core.nodup, h.core.lt, h.core.empty⟩, h.backed⟩

theorem Inv.held_disjoint (h : Inv s) : s.held.Pairwise Block.Disjoint :=
  h.backed.disjoint h.core.table.disjoint

theorem Inv.calloc (h : Inv s) (num size : Nat) :
    Gave s (s.calloc B num size).2 (num * size) (s.calloc B num size).1 := by
  rw [Heap.calloc]
  split
  · exact h.unchanged
  have hgave : Gave s (s.alloc B (num * size)).2 (num * size) (s.alloc B (num * size)).1 := h.alloc _
  split
  next heq =>
    rw [heq] at hgave
    exact hgave
  rename_i p s' heq
  rw [heq] at hgave
  have hheld : s'.held = ⟨p, num * size⟩ :: s.held := hgave.given p rfl
  refine ⟨hgave.inv.setMem _, fun q hq => ?_, nofun, fun y hy => ?_⟩
  · rw [← some.inj hq]
    exact hheld
  have hdisj := hgave.inv.held_disjoint
  rw [hheld] at hdisj
  have hfill : y.Same s'.mem (Heap.fill s'.mem p (num * size) fun _ => 0) :=
    fill_same ((pairwise_cons.mp hdisj).1 y hy) le_rfl
  exact (hgave.same y hy).trans hfill

/-- What `realloc` of a live pointer leaves: on success the first bytes are at the new place,
on failure the old block is as it was. -/
structure Moved (s s' : Heap A) (x : Block) (n : Nat) (res : Option Nat) : Prop where
  inv : Inv s'
  moved : ∀ p, res = some p → (∃ rest, s.held.Perm (x :: rest) ∧ s'.held.Perm (⟨p, n⟩ :: rest)) ∧
    ∀ i, i < x.len → i < n → s'.mem (p + i) = s.mem (x.addr + i)
  failed : res = none → s'.held = s.held ∧ x.Same s.mem s'.mem

theorem has_offset {i : Nat} (h : i < x.len) : x.Has (x.addr + i) :=
  ⟨Nat.le_add_right _ _, Nat.add_lt_add_left h _⟩

theorem Inv.realloc_inside (h : Inv s) {b : Block} {idx : Nat} {r : List (Arena A)} {heap : A.Heap}
    (hn : 0 < n) (hx : x ∈ s.held) (hperm : s.arenas.Perm (a :: r))
    (hset : ∀ a', (s.arenas.set idx a').Perm (a' :: r)) (hb : b ∈ A.blocks a.heap)
    (haddr : x.addr = b.addr) (hle : x.len ≤ b.len)
    (hreal : A.realloc a.heap s.mem x.addr n = some (p, heap, mem)) :
    Moved s {s with
      arenas := s.arenas.set idx {a with heap := heap}
      mem := mem
      held := ⟨p, n⟩ :: s.held.eraseP fun c => c.addr = x.addr} x n (some p) := by
  rw [haddr] at hreal
  obtain ⟨hregion, ⟨len, rest, hlen, hold, hnew, _⟩, hcopy, _⟩ := A.realloc_spec _ _ _ _ _ _ b hb hreal
  have htable := h.core.table.perm hperm
  have hsync := htable.synced a (.head _)
  have hsync' : Synced ({a with heap := heap} : Arena A) := by
    refine ⟨hregion.trans hsync.region, ?_, hsync.pos⟩
    rw [hsync.live, hold.length_eq, hnew.length_eq]
    rfl
  have hheld : s.held.Perm (x :: s.held.eraseP fun c => c.addr = x.addr) :=
    perm_eraseP hx fun y hy heq => h.held_unique hx hy heq
  have hall : (allBlocks s.arenas).Perm (b :: (rest ++ allBlocks r)) :=
    (allBlocks_perm hperm).trans (hold.append_right _)
  have hall' : (allBlocks (s.arenas.set idx {a with heap := heap})).Perm
      (⟨p, len⟩ :: (rest ++ allBlocks r)) :=
    (allBlocks_perm (hset _)).trans (hnew.append_right _)
  have hbacked : Backed (s.held.eraseP fun c => c.addr = x.addr) (rest ++ allBlocks r) := by
    apply ((h.backed.permHeld hheld).perm hall).remove haddr
    intro c hc heq
    exact h.core.table.block_unique (hall.mem_iff.mpr hc) (hall.mem_iff.mpr (.head _)) heq
  refine ⟨⟨?_, ?_⟩, ?_, nofun⟩
  · apply h.core.replaced _ _ hperm (hset _) (htable.replace hsync' rfl) rfl
    exact fun hbytes => h.core.dedicated a (hperm.mem_iff.mpr (.head _)) hbytes
  · exact (hbacked.cons (x := ⟨p, n⟩) (b := ⟨p, len⟩) rfl hn hlen).perm hall'.symm
  intro q hq
  rw [← some.inj hq]
  refine ⟨⟨_, hheld, Perm.refl _⟩, ?_⟩
  intro i hi hin
  rw [haddr]
  exact hcopy i (hi.trans_le hle) hin

theorem Gave.realloc_across {old fresh : Nat} (hgave : Gave s s' n (some fresh)) (hx : x ∈ s.held)
    (hle : x.len ≤ old) :
    Moved s ({s' with mem := fill s'.mem fresh (min old n) fun i => s'.mem (x.addr + i)}.free x.addr)
      x n (some fresh) := by
  have hheld : s'.held = ⟨fresh, n⟩ :: s.held := hgave.given fresh rfl
  have hx' : x ∈ s'.held := by
    rw [hheld]
    exact .tail _ hx
  have hcopied := hgave.inv.setMem
    (fill s'.mem fresh (min old n) fun i => s'.mem (x.addr + i))
  have hfreed := hcopied.free hx'
  have hrest := perm_cons_erase hx
  have hout : ({s' with
      mem := fill s'.mem fresh (min old n) fun i => s'.mem (x.addr + i)}.free x.addr).held.Perm
        (⟨fresh, n⟩ :: s.held.erase x) := by
    have hswap : s'.held.Perm (x :: ⟨fresh, n⟩ :: s.held.erase x) := by
      rw [hheld]
      exact (hrest.cons _).trans (Perm.swap x ⟨fresh, n⟩ _)
    exact (hswap.symm.trans hfreed.held).cons_inv.symm
  refine ⟨hfreed.inv, ?_, nofun⟩
  intro q hq
  rw [← some.inj hq]
  refine ⟨⟨_, hrest, hout⟩, ?_⟩
  intro i hi hin
  have hkept := hfreed.same ⟨fresh, n⟩ (hout.mem_iff.mpr (.head _)) (fresh + i) (has_offset hin)
  rw [hkept]
  have hfill : fill s'.mem fresh (min old n) (fun i => s'.mem (x.addr + i)) (fresh + i) =
      s'.mem (x.addr + i) := by
    rw [fill, if_pos (by omega), Nat.add_sub_cancel_left]
  exact hfill.trans (hgave.same x hx _ (has_offset hi))

theorem Inv.realloc (h : Inv s) (hx : x ∈ s.held) (hn : n ≠ 0) :
    Moved s (s.realloc B x.addr n).2 x n (s.realloc B x.addr n).1 := by
  obtain ⟨idx, a, b, r, hidx, hget, hperm, hset, hb, haddr, hle⟩ := h.locate hx
  rw [Heap.realloc, if_neg (h.addr_ne_zero hx), if_neg hn, hidx]
  dsimp only
  rw [hget]
  dsimp only
  split
  next hreal => exact h.realloc_inside (Nat.pos_of_ne_zero hn) hx hperm hset hb haddr hle hreal
  have hgave : Gave s (s.alloc B n).2 n (s.alloc B n).1 := h.alloc n
  split
  next heq =>
    rw [heq] at hgave
    exact ⟨hgave.inv, nofun, fun _ => ⟨hgave.refused rfl, hgave.same x hx⟩⟩
  next heq =>
    rw [heq] at hgave
    apply hgave.realloc_across hx
    rw [haddr, A.usable_eq a.heap b hb]
    exact hle

end Calls

/-! ## Runs -/

section Runs

variable {s : Heap A} {mem : Mem} {calls : List Call}

theorem inv_start (A : Allocator) (mem : Mem) : Inv (start A mem) where
  core := ⟨⟨Pairwise.nil, nofun⟩, nofun, Perm.refl _, nodup_nil, nofun, nofun⟩
  backed := ⟨[], Perm.refl _, Perm.refl _, nofun⟩

theorem Inv.call (h : Inv s) {c : Call} (hlegal : s.Legal c) : Inv (s.call B c).2 := by
  cases c with
  | alloc size => exact (h.alloc size).inv
  | calloc num size => exact (h.calloc num size).inv
  | alignedAlloc alignment size => exact (h.alignedAlloc alignment size).inv
  | realloc ptr size =>
    rcases hlegal with rfl | ⟨x, hx, rfl⟩
    · rw [Heap.call, Heap.realloc, if_pos rfl]
      exact (h.alloc size).inv
    · by_cases hn : size = 0
      · rw [Heap.call, Heap.realloc, if_neg (h.addr_ne_zero hx), if_pos hn]
        exact (h.free hx).inv
      · exact (h.realloc hx hn).inv
  | free ptr =>
    rcases hlegal with rfl | ⟨x, hx, rfl⟩
    · rw [Heap.call, Heap.free, if_pos rfl]
      exact h
    · exact (h.free hx).inv
  | write addr value => exact h.setMem _

theorem inv_run (h : HeapRun B (start A mem) calls s) : Inv s :=
  h.invariant (fun _ _ _ hinv hs => hs.2 ▸ hinv.call hs.1) (inv_start A mem)

/-- The state of the heap is sound: the blocks that the program holds do not overlap, each lies
in one arena of the table, the counts are right, each region was returned at most once and
with nothing live in it, and no large arena is kept without a block. -/
structure HeapSafe (s : Heap A) : Prop where
  disjoint : s.held.Pairwise Block.Disjoint
  arena : ∀ x ∈ s.held, ∃! a, a ∈ s.arenas ∧ x.Within a.region
  live : ∀ a ∈ s.arenas, a.live = s.held.countP fun x => a.region.Has x.addr
  regions : (s.arenas.map Arena.id ++ s.returned.map Prod.fst).Perm s.handed ∧ s.handed.Nodup
  empty : ∀ r ∈ s.returned, r.2 = []
  dedicated : ∀ a ∈ s.arenas, a.bytes > maxArenaBytes → 0 < a.live

theorem Inv.arena_of (h : Inv s) {x : Block} (hx : x ∈ s.held) :
    ∃! a, a ∈ s.arenas ∧ x.Within a.region := by
  obtain ⟨b, hb, haddr, hpos, hle⟩ := h.backed.block hx
  obtain ⟨a, ha, hba⟩ := mem_allBlocks.mp hb
  have hwithin : x.Within a.region := by
    have hbw := ((h.core.table.synced a ha).within hba).1
    unfold Block.Within at *
    omega
  refine ⟨a, ⟨ha, hwithin⟩, ?_⟩
  rintro c ⟨hc, hcw⟩
  exact h.core.table.arena_unique hc ha (hcw.has_addr hpos) (hwithin.has_addr hpos)

theorem Inv.live_eq (h : Inv s) {a : Arena A} (ha : a ∈ s.arenas) :
    a.live = s.held.countP fun x => a.region.Has x.addr := by
  obtain ⟨r, hperm⟩ : ∃ r, s.arenas.Perm (a :: r) := by
    obtain ⟨l₁, l₂, heq⟩ := append_of_mem ha
    rw [heq]
    exact ⟨l₁ ++ l₂, perm_middle⟩
  have htable := h.core.table.perm hperm
  have hsync := htable.synced a (.head _)
  obtain ⟨l, hheld, hblocks, hall⟩ := h.backed
  have hpairs : s.held.countP (fun x => a.region.Has x.addr) =
      (allBlocks s.arenas).countP (fun b => a.region.Has b.addr) := by
    rw [← hheld.countP_eq, ← hblocks.countP_eq, countP_map, countP_map]
    apply countP_congr
    intro q hq
    rw [Function.comp_apply, Function.comp_apply, (hall q hq).1]
  rw [hpairs, (allBlocks_perm hperm).countP_eq, allBlocks_cons, countP_append, hsync.live]
  have hown : (A.blocks a.heap).countP (fun b => a.region.Has b.addr) = (A.blocks a.heap).length := by
    apply countP_eq_length.mpr
    intro b hb
    obtain ⟨hwithin, hpos⟩ := hsync.within hb
    exact decide_eq_true (hwithin.has_addr hpos)
  have hother : (allBlocks r).countP (fun b => a.region.Has b.addr) = 0 := by
    apply countP_eq_zero.mpr
    intro b hb hhas
    have hpos := (htable.tail.block_pos hb).1
    exact (htable.outside hb).not_has ⟨le_rfl, Nat.lt_add_of_pos_right hpos⟩
      (of_decide_eq_true hhas)
  rw [hown, hother, add_zero]

theorem Inv.safe (h : Inv s) : HeapSafe s where
  disjoint := h.held_disjoint
  arena _ hx := h.arena_of hx
  live _ ha := h.live_eq ha
  regions := ⟨h.core.ids, h.core.nodup⟩
  empty := h.core.empty
  dedicated a ha hbytes := Nat.pos_of_ne_zero (h.core.dedicated a ha hbytes)

/-- Over correct arenas the heap is sound after every run of legal calls, and there `realloc`
of a live pointer keeps the first bytes, or leaves the old block alone. -/
theorem user_heap_sound (A : Allocator) (B : Backing) (mem : Mem) (calls : List Call) (s : Heap A)
    (h : HeapRun B (Heap.start A mem) calls s) :
    HeapSafe s ∧ ∀ x ∈ s.held, ∀ n, n ≠ 0 →
      Moved s (s.realloc B x.addr n).2 x n (s.realloc B x.addr n).1 := by
  have hinv := inv_run h
  exact ⟨hinv.safe, fun x hx n hn => hinv.realloc hx hn⟩

/-- An allocator with at most one block, at the front of its region. -/
structure OneBlock where
  region : Block
  used : Nat
  le : used ≤ region.len

def OneBlock.blocks (h : OneBlock) : List Block := if h.used = 0 then [] else [⟨h.region.addr, h.used⟩]

open OneBlock

def oneBlock : Allocator where
  Heap := OneBlock
  region h := h.region
  blocks := blocks
  create r := ⟨r, 0, Nat.zero_le _⟩
  allocate h m _ n :=
    if hn : h.used = 0 ∧ 0 < n ∧ n ≤ h.region.len then some (h.region.addr, ⟨h.region, n, hn.2.2⟩, m)
    else none
  free h m _ := (⟨h.region, 0, Nat.zero_le _⟩, m)
  realloc h m _ n :=
    if hn : 0 < n ∧ n ≤ h.region.len then some (h.region.addr, ⟨h.region, n, hn.2⟩, m) else none
  usable h _ := h.used
  region_create _ := rfl
  blocks_create _ := rfl
  within h b hb := by
    rw [blocks] at hb
    split at hb
    · exact nomatch hb
    next hne =>
      rw [mem_singleton.mp hb]
      exact ⟨⟨le_rfl, Nat.add_le_add_left h.le _⟩, Nat.pos_of_ne_zero hne⟩
  disjoint h := by
    rw [blocks]
    split
    · exact Pairwise.nil
    · exact pairwise_singleton _ _
  usable_eq h b hb := by
    rw [blocks] at hb
    split at hb
    · exact nomatch hb
    · rw [mem_singleton.mp hb]
  allocate_spec h m al n p h' m' heq := by
    split at heq
    next hn =>
      obtain ⟨rfl, rfl, rfl⟩ := some.inj heq
      have hold : h.blocks = [] := if_pos hn.1
      have hnew : blocks ⟨h.region, n, hn.2.2⟩ = [⟨h.region.addr, n⟩] :=
        if_neg (Nat.ne_of_gt hn.2.1)
      rw [hold, hnew]
      exact ⟨rfl, ⟨n, le_rfl, Perm.refl _⟩, nofun, fun _ _ => rfl⟩
    · exact nomatch heq
  free_spec h m b hb := by
    rw [blocks] at hb
    split at hb
    · exact nomatch hb
    next hne =>
      have hold : h.blocks = [⟨h.region.addr, h.used⟩] := if_neg hne
      rw [mem_singleton.mp hb, hold]
      exact ⟨rfl, Perm.refl _, nofun, fun _ _ => rfl⟩
  realloc_spec h m n p h' m' b hb heq := by
    split at heq
    next hn =>
      obtain ⟨rfl, rfl, rfl⟩ := some.inj heq
      rw [blocks] at hb
      split at hb
      · exact nomatch hb
      rename_i hne
      have hold : h.blocks = [⟨h.region.addr, h.used⟩] := if_neg hne
      have hnew : blocks ⟨h.region, n, hn.2⟩ = [⟨h.region.addr, n⟩] :=
        if_neg (Nat.ne_of_gt hn.1)
      rw [mem_singleton.mp hb, hold, hnew]
      exact ⟨rfl, ⟨n, [], le_rfl, Perm.refl _, Perm.refl _, nofun⟩,
        fun _ _ _ => rfl, fun _ _ => rfl⟩
    · exact nomatch heq

def oneRegion : Backing where
  regionAlloc mapped _ _ := if mapped = [] then some 4096 else none
  fresh mapped _ _ base h := by
    split at h
    next hnil =>
      rw [hnil, ← some.inj h]
      exact ⟨by decide, nofun⟩
    · exact nomatch h

/-- A large block is allocated, moved and freed, and its arena is gone. -/
theorem user_heap_sound_large : ∃ s : Heap oneBlock,
    HeapRun oneRegion (Heap.start oneBlock fun _ => 0)
        [.alloc 5000000, .realloc 4096 4500000, .free 4096] s ∧
      s.arenas.length = 0 ∧ HeapSafe s := by
  obtain ⟨s, hs, hlen⟩ : ∃ s : Heap oneBlock, HeapRun oneRegion (start oneBlock fun _ => 0)
      [.alloc 5000000, .realloc 4096 4500000, .free 4096] s ∧ s.arenas.length = 0 := by
    refine ⟨_, .cons ⟨trivial, rfl⟩ (.cons ⟨.inr ⟨⟨4096, 5000000⟩, ?_, rfl⟩, rfl⟩
      (.cons ⟨.inr ⟨⟨4096, 4500000⟩, ?_, rfl⟩, rfl⟩ (.nil _))), ?_⟩
    · decide +kernel
    · decide +kernel
    · decide +kernel
  exact ⟨s, hs, hlen, (user_heap_sound oneBlock oneRegion _ _ s hs).1⟩

end Runs

end Kyuzen.Libc
