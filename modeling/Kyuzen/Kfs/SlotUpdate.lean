import Kyuzen.Kfs.ExtentList

/-!
What `ext_set_nolock` and `ext_append_nolock` do to a volume and an inode, said
once: which slot changes, and which block becomes the indirect block.
-/

namespace Kyuzen.Kfs

variable {v v' : Vol} {inn : InodeMem}

/-- Two volumes that differ at most in the disk, the block bitmap with its
counter and flag, and the count of inner merges. A bitmap that changed is
flagged. -/
structure SameShape (v v' : Vol) : Prop where
  env : v'.env = v.env
  sb : v'.sb = {v.sb with freeBlocks := v'.sb.freeBlocks}
  ibmMem : v'.ibmMem = v.ibmMem
  ibmDirty : v'.ibmDirty = v.ibmDirty
  bmBlocks : v'.bmBlocks = v.bmBlocks
  ibmBlocks : v'.ibmBlocks = v.ibmBlocks
  itBlock0 : v'.itBlock0 = v.itBlock0
  dataStart : v'.dataStart = v.dataStart
  rootIno : v'.rootIno = v.rootIno
  bmDirty : v'.bmDirty = false → v.bmDirty = false ∧ v'.bmMem = v.bmMem

theorem SameShape.refl (v : Vol) : SameShape v v :=
  ⟨rfl, rfl, rfl, rfl, rfl, rfl, rfl, rfl, rfl, fun h => ⟨h, rfl⟩⟩

theorem SameShape.trans {v'' : Vol} (h : SameShape v v') (h' : SameShape v' v'') :
    SameShape v v'' := by
  refine ⟨h'.env.trans h.env, ?_, h'.ibmMem.trans h.ibmMem, h'.ibmDirty.trans h.ibmDirty,
    h'.bmBlocks.trans h.bmBlocks, h'.ibmBlocks.trans h.ibmBlocks, h'.itBlock0.trans h.itBlock0,
    h'.dataStart.trans h.dataStart, h'.rootIno.trans h.rootIno, fun hclean => ?_⟩
  · rw [h'.sb, h.sb]
  · obtain ⟨hclean', hbm'⟩ := h'.bmDirty hclean
    obtain ⟨hclean'', hbm⟩ := h.bmDirty hclean'
    exact ⟨hclean'', hbm'.trans hbm⟩

theorem SameShape.totalBlocks (h : SameShape v v') :
    v'.sb.totalBlocks = v.sb.totalBlocks := by rw [h.sb]

theorem SameShape.isFree_iff (h : SameShape v v') (b : Nat) :
    v'.IsFree b ↔ v.dataStart ≤ b ∧ b < v.sb.totalBlocks ∧ bmTest v'.bmMem b = false := by
  unfold Vol.IsFree
  rw [h.dataStart, h.totalBlocks]

theorem SameShape.putBlock (v : Vol) (b : Nat) (data : Buf) : SameShape v (v.putBlock b data) :=
  ⟨rfl, rfl, rfl, rfl, rfl, rfl, rfl, rfl, rfl, fun h => ⟨h, rfl⟩⟩

theorem SameShape.take (v : Vol) (start n : Nat) : SameShape v (v.take start n) :=
  ⟨rfl, rfl, rfl, rfl, rfl, rfl, rfl, rfl, rfl, nofun⟩

theorem SameShape.freeRun (v : Vol) (start n : Nat) : SameShape v (blkFreeRunNolock v start n) :=
  ⟨rfl, rfl, rfl, rfl, rfl, rfl, rfl, rfl, rfl, nofun⟩

/-- The fields of an inode that no block-level call touches. -/
structure SameId (inn inn' : InodeMem) : Prop where
  ino : inn'.ino = inn.ino
  mode : inn'.mode = inn.mode
  linksCount : inn'.linksCount = inn.linksCount
  refcount : inn'.refcount = inn.refcount

theorem SameId.refl (inn : InodeMem) : SameId inn inn := ⟨rfl, rfl, rfl, rfl⟩

theorem SameId.trans {inn' inn'' : InodeMem} (h : SameId inn inn') (h' : SameId inn' inn'') :
    SameId inn inn'' :=
  ⟨h'.ino.trans h.ino, h'.mode.trans h.mode, h'.linksCount.trans h.linksCount,
    h'.refcount.trans h.refcount⟩

/-- The indirect block of an inode, as a list of at most one block. -/
def indirectBlocks (inn : InodeMem) : List Nat :=
  if inn.indirectExtentBlock = 0 then [] else [inn.indirectExtentBlock]

/-! ## Entries of the indirect block -/

theorem readExtent_writeExtent (b : Buf) (k k' : Nat) (e : Extent)
    (hstart : e.startBlock < 2 ^ 64) (hcount : e.blockCount < 2 ^ 32) :
    readExtent (writeExtent b k e) k' = if k' = k then e else readExtent b k' := by
  unfold readExtent writeExtent
  by_cases hk : k' = k
  · subst hk
    rw [if_pos rfl, getLe_putLe_disjoint (by omega), getLe_putLe_of_lt (by simpa using hstart),
      getLe_putLe_of_lt (by simpa using hcount)]
  · rw [if_neg hk, getLe_putLe_disjoint (by omega), getLe_putLe_disjoint (by omega),
      getLe_putLe_disjoint (by omega), getLe_putLe_disjoint (by omega)]

theorem getLe_zero (b : Buf) (off width : Nat) (h : ∀ i < width, b (off + i) = 0) :
    getLe b off width = 0 := by
  induction width generalizing off with
  | zero => rfl
  | succ width ih =>
    have hhead : b off = 0 := by simpa using h 0 (by omega)
    have htail := ih (off + 1) fun i hi => by
      have := h (i + 1) (by omega)
      rwa [add_right_comm, add_assoc]
    simp [getLe, hhead, htail]

theorem readExtent_zeroed (b : Buf) (k : Nat) (hk : k < 341) :
    readExtent (memset b 0 0 4096) k = ⟨0, 0⟩ := by
  have hzero : ∀ off width, off + width ≤ 4096 → getLe (memset b 0 0 4096) off width = 0 :=
    fun off width hle => getLe_zero _ _ _ fun i hi => memset_inside (by omega) (by omega)
  rw [readExtent, hzero _ 8 (by omega), hzero _ 4 (by omega)]

/-! ## One slot -/

/-- The start blocks of the direct slots fit into their 64-bit fields, those of
empty slots too. -/
def DirectFits (inn : InodeMem) : Prop := ∀ k, (inn.direct k).startBlock < 2 ^ 64

/-- Slot `n` becomes `e`; `fresh` is the block that became the indirect block. -/
structure SlotUpdate (v : Vol) (inn : InodeMem) (n : Nat) (e : Extent)
    (v' : Vol) (inn' : InodeMem) (fresh : List Nat) : Prop where
  shape : SameShape v v'
  same : SameId inn inn'
  size : inn'.sizeBytes = inn.sizeBytes
  slots : ∀ m, m < 345 → slotAt v' inn' m = if m = n then e else slotAt v inn m
  indirect : indirectBlocks inn' = indirectBlocks inn ++ fresh
  short : fresh.length ≤ 1
  free : ∀ b ∈ fresh, v.IsFree b
  bits : ∀ b, bmTest v'.bmMem b = (decide (b ∈ fresh) || bmTest v.bmMem b)
  disk : ∀ b, b ∉ indirectBlocks inn' → v'.disk b = v.disk b
  count : v.FreeExact → v'.FreeExact
  merges : v'.innerMerges = v.innerMerges
  used : inn'.blocksUsed = inn.blocksUsed + fresh.length

variable {v : Vol} {l : List Extent}

private theorem setIndirect_update {inn : InodeMem} {n : Nat} {e : Extent}
    (hio : ∀ b, v.env.io b = true) (hn : 4 ≤ n)
    (hne : inn.indirectExtentBlock ≠ 0)
    (hstart : e.startBlock < 2 ^ 64) (hcount : e.blockCount < 2 ^ 32) :
    ∃ v', setIndirect v inn (n - 4) e = (.eok, v', inn) ∧ SlotUpdate v inn n e v' inn [] := by
  refine ⟨v.putBlock inn.indirectExtentBlock
    (writeExtent (v.disk inn.indirectExtentBlock) (n - 4) e), ?_, ?_⟩
  · simp [setIndirect, bcacheRead, hio]
  refine ⟨SameShape.putBlock _ _ _, SameId.refl _, rfl, ?_, by simp, by simp, by simp,
    by simp [Vol.putBlock], ?_, fun h => h, rfl, rfl⟩
  · intro m hm
    unfold slotAt
    by_cases h4 : m < 4
    · have hmn : m ≠ n := by omega
      simp [h4, hmn]
    · have hiff : (m - 4 = n - 4) ↔ m = n := by omega
      simp only [h4, dif_neg, not_false_eq_true, hne, if_false, Vol.putBlock, if_true]
      rw [readExtent_writeExtent _ _ _ _ hstart hcount]
      simp [hiff]
  · intro b hb
    have hother : b ≠ inn.indirectExtentBlock := by
      simpa [indirectBlocks, hne] using hb
    simp [Vol.putBlock, hother]

theorem extSetNolock_spec {inn : InodeMem} {n : Nat} {e : Extent}
    (hio : ∀ b, v.env.io b = true) (hdata : 0 < v.dataStart) (hn : n < 345)
    (hstart : e.startBlock < 2 ^ 64) (hcount : e.blockCount < 2 ^ 32) :
    (∃ v' inn' fresh, extSetNolock v inn n e = (.eok, v', inn') ∧
      SlotUpdate v inn n e v' inn' fresh ∧
      (n < 4 ∨ inn.indirectExtentBlock ≠ 0 → fresh = [])) ∨
    (extSetNolock v inn n e = (.enospc, v, inn) ∧ 4 ≤ n ∧
      inn.indirectExtentBlock = 0 ∧ ∀ b, ¬ v.IsFree b) := by
  by_cases h4 : n < 4
  · left
    refine ⟨v, {inn with direct := Function.update inn.direct ⟨n, h4⟩ e, dirty := true}, [],
      by simp [extSetNolock, h4], ?_, fun _ => rfl⟩
    refine ⟨SameShape.refl _, ⟨rfl, rfl, rfl, rfl⟩, rfl, ?_, by simp [indirectBlocks], by simp,
      by simp, by simp, fun _ _ => rfl, fun h => h, rfl, rfl⟩
    intro m _
    unfold slotAt
    by_cases hm4 : m < 4
    · simp [hm4, Function.update_apply, Fin.mk.injEq]
    · have hmn : m ≠ n := by omega
      simp [hm4, hmn]
  have hk : ¬ n - 4 ≥ 341 := by omega
  by_cases hz : inn.indirectExtentBlock = 0
  · rcases blkAllocRunNolock_spec v 1 (by omega) hdata with
      ⟨hfail, hnone⟩ | ⟨start, got, halloc, hne, hpos, hle, hfree, -, -⟩
    · right
      exact ⟨by simp [extSetNolock, h4, hk, hz, hfail], by omega, hz, hnone⟩
    · left
      have hgot : got = 1 := by omega
      subst hgot
      let inn1 : InodeMem := {inn with
        indirectExtentBlock := start, blocksUsed := inn.blocksUsed + 1, dirty := true}
      let v1 := (v.take start 1).putBlock start (memset (v.disk start) 0 0 4096)
      have hio1 : ∀ b, v1.env.io b = true := hio
      obtain ⟨v', hset, hupd⟩ := @setIndirect_update v1 inn1 n e hio1 (by omega) hne hstart hcount
      have hstartFree := hfree start le_rfl (by omega)
      refine ⟨v', inn1, [start], ?_, ?_, ?_⟩
      · simp only [extSetNolock, h4, dif_neg, not_false_eq_true, hk, if_false, hz, if_true,
          halloc, hne, bcacheGet]
        have hget : (v.take start 1).env.io start = true := hio start
        simp only [hget, if_true]
        exact hset
      · refine ⟨((SameShape.take _ _ _).trans (SameShape.putBlock _ _ _)).trans hupd.shape,
          ⟨rfl, rfl, rfl, rfl⟩, rfl, ?_, by simp [indirectBlocks, hz, inn1, hne], by simp, ?_,
          ?_, ?_, ?_, hupd.merges, rfl⟩
        · intro m hm
          rw [hupd.slots m hm]
          by_cases hmn : m = n
          · simp [hmn]
          rw [if_neg hmn, if_neg hmn]
          unfold slotAt
          by_cases hm4 : m < 4
          · simp [hm4, inn1]
          · simp only [hm4, dif_neg, not_false_eq_true, hz, if_true, inn1, hne, if_false, v1,
              Vol.putBlock]
            exact readExtent_zeroed _ _ (by omega)
        · simpa using hstartFree
        · intro b
          rw [hupd.bits b]
          change (decide (b ∈ []) || bmTest (bmSetRun v.bmMem start 1) b) = _
          rw [bmTest_bmSetRun]
          simp only [List.not_mem_nil, decide_false, Bool.false_or, List.mem_singleton]
          congr 1
          rw [decide_eq_decide]
          omega
        · intro b hb
          rw [hupd.disk b hb]
          have hother : b ≠ start := by
            simpa [indirectBlocks, inn1, hne] using hb
          simp [v1, Vol.putBlock, hother, Vol.take]
        · intro hexact
          exact hupd.count (v.take_freeExact start 1 hexact hfree)
      · rintro (h | h)
        · exact absurd h h4
        · exact absurd hz h
  · left
    obtain ⟨v', hset, hupd⟩ := setIndirect_update (v := v) (n := n) hio (by omega) hz hstart hcount
    exact ⟨v', inn, [], by simp [extSetNolock, h4, hk, hz, hset], hupd, fun _ => rfl⟩

/-! ## Appending a run -/

theorem innerSlot_eq {n : Nat} (hio : ∀ b, v.env.io b = true) (hn : n < 345)
    (h : SlotsFrom v inn (n + 1) l) :
    innerSlot v inn n = !l.isEmpty := by
  unfold innerSlot
  cases l with
  | nil =>
    by_cases hlast : n + 1 < 345
    · simp [extGetNolock_eq hio hlast, h (n + 1) le_rfl hlast]
    · have hend : n = 344 := by omega
      simp [extGetNolock, hend]
  | cons e l =>
    obtain ⟨hlast, hpos, hslot, -⟩ := h
    have hne : e.blockCount ≠ 0 := by omega
    simp [extGetNolock_eq hio hlast, hslot, hne]

/-- Writing one slot of a list whose head is slot `n`. -/
theorem SlotUpdate.slotsFrom_head {inn' : InodeMem} {n : Nat} {e : Extent}
    {fresh : List Nat} (h : SlotUpdate v inn n e v' inn' fresh) (hn : n < 345)
    (hpos : 0 < e.blockCount) (hrest : SlotsFrom v inn (n + 1) l) :
    SlotsFrom v' inn' n (e :: l) := by
  refine ⟨hn, hpos, by rw [h.slots n hn, if_pos rfl], hrest.congr ?_⟩
  intro m hm hm'
  rw [h.slots m hm', if_neg (by omega)]

theorem slotAt_innerMerges (v : Vol) (inn : InodeMem) (k m : Nat) :
    slotAt {v with innerMerges := k} inn m = slotAt v inn m := rfl

/-- How the scan of `ext_append_nolock` ends: one slot is written and the list
from slot `n` on becomes `appendExtent`, or nothing changes because every slot
is taken or no block is left for the indirect block. -/
theorem appendLoop_spec {inn : InodeMem} {start count fuel n : Nat}
    (hio : ∀ b, v.env.io b = true) (hdata : 0 < v.dataStart)
    (h : SlotsFrom v inn n l) (hfuel : n + fuel = 345) (hpos : 0 < count)
    (hstart : start < 2 ^ 64) (hcount : count < 2 ^ 32)
    (hbound : ∀ e ∈ l, e.startBlock < 2 ^ 64 ∧ e.blockCount + count < 2 ^ 32) :
    (∃ v' inn' m e fresh, appendLoop v inn start count fuel n = (.eok, v', inn') ∧
      n ≤ m ∧ SlotsFrom v' inn' n (appendExtent l start count) ∧
      SlotUpdate {v with innerMerges := v.innerMerges + (mergesInside l start).toNat} inn m e
        v' inn' fresh) ∨
    (∃ rc, appendLoop v inn start count fuel n = (rc, v, inn) ∧ (∀ e ∈ l, e.stop ≠ start) ∧
      ((rc = .einval ∧ n + l.length = 345) ∨
        (rc = .enospc ∧ 4 ≤ n + l.length ∧ inn.indirectExtentBlock = 0 ∧ ∀ b, ¬ v.IsFree b))) := by
  induction fuel generalizing n l with
  | zero =>
    right
    cases l with
    | nil => exact ⟨.einval, rfl, by simp, .inl ⟨rfl, by simpa using hfuel⟩⟩
    | cons e l => exact absurd h.1 (by omega)
  | succ fuel ih =>
    have hn : n < 345 := by omega
    rw [appendLoop, extGetNolock_eq hio hn]
    cases l with
    | nil =>
      have hzero := h n le_rfl hn
      simp only [hzero, if_true]
      rcases @extSetNolock_spec v inn n ⟨start, count⟩ hio hdata hn hstart hcount with
        ⟨v', inn', fresh, hset, hupd, -⟩ | ⟨hset, hfour, hz, hnone⟩
      · left
        have hrest : SlotsFrom v inn (n + 1) [] := fun m hm => h m (by omega)
        exact ⟨v', inn', n, ⟨start, count⟩, fresh, hset, le_rfl,
          hupd.slotsFrom_head hn hpos hrest, hupd⟩
      · right
        exact ⟨.enospc, hset, by simp, .inr ⟨rfl, by simpa using hfour, hz, hnone⟩⟩
    | cons e l =>
      obtain ⟨-, hepos, hslot, hrest⟩ := h
      have hne : e.blockCount ≠ 0 := by omega
      obtain ⟨hestart, hecount⟩ := hbound e (by simp)
      simp only [hslot, hne, if_false]
      rw [appendExtent, mergesInside]
      by_cases hstop : e.stop = start
      · -- The run continues slot `n`, so the slot exists and needs no new block.
        simp only [Extent.stop] at hstop
        simp only [Extent.stop, hstop, if_true, innerSlot_eq hio hn hrest]
        left
        have hmerge : (if (!l.isEmpty) = true then {v with innerMerges := v.innerMerges + 1}
            else v) = {v with innerMerges := v.innerMerges + (!l.isEmpty).toNat} := by
          cases l with
          | nil => rfl
          | cons e' l => rfl
        rw [hmerge]
        rcases @extSetNolock_spec {v with innerMerges := v.innerMerges + (!l.isEmpty).toNat}
          inn n ⟨e.startBlock, e.blockCount + count⟩ hio hdata hn hestart hecount with
          ⟨v', inn', fresh, hset, hupd, -⟩ | ⟨-, hfour, hz, -⟩
        · exact ⟨v', inn', n, _, fresh, hset, le_rfl,
            hupd.slotsFrom_head hn (by simp only; omega)
              (hrest.congr fun m _ _ => rfl), hupd⟩
        · have hempty : slotAt v inn n = ⟨0, 0⟩ := by
            simp [slotAt, hz, not_lt.mpr hfour]
          rw [hempty] at hslot
          exact absurd (congrArg Extent.blockCount hslot).symm hne
      · simp only [hstop, if_false]
        rw [if_neg (show ¬ e.startBlock + e.blockCount = start from hstop)]
        rcases ih hrest (by omega) (fun x hx => hbound x (.tail _ hx)) with
          ⟨v', inn', m, x, fresh, hrun, hm, hslots, hupd⟩ | ⟨rc, hrun, hapart, hwhy⟩
        · left
          refine ⟨v', inn', m, x, fresh, hrun, by omega, ⟨hn, hepos, ?_, hslots⟩, hupd⟩
          rw [hupd.slots n hn, if_neg (by omega), slotAt_innerMerges, hslot]
        · right
          refine ⟨rc, hrun, List.forall_mem_cons.mpr ⟨hstop, hapart⟩, ?_⟩
          simp only [List.length_cons]
          rcases hwhy with ⟨hrc, hlen⟩ | ⟨hrc, hlen, hnone⟩
          · exact .inl ⟨hrc, by omega⟩
          · exact .inr ⟨hrc, by omega, hnone⟩

end Kyuzen.Kfs
