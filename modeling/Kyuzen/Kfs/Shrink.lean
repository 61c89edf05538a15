import Kyuzen.Kfs.Grow

/-!
`truncate_nolock` and `inode_free_all_extents`: the blocks that a call gives
back, and the inode that is left.
-/

namespace Kyuzen.Kfs

open List SameShape

variable {v v' : Vol} {inn inn' : InodeMem} {gone : List Nat}

/-- The blocks `gone` were given back; of the disk only the indirect block was
written. -/
structure Shrink (v : Vol) (inn : InodeMem) (v' : Vol) (inn' : InodeMem) (gone : List Nat) :
    Prop where
  shape : SameShape v v'
  same : SameId inn inn'
  size : inn'.sizeBytes = inn.sizeBytes
  indirect : inn'.indirectExtentBlock = inn.indirectExtentBlock
  bits : ∀ b, bmTest v'.bmMem b = true ↔ bmTest v.bmMem b = true ∧ b ∉ gone
  disk : ∀ b, b ∉ indirectBlocks inn → v'.disk b = v.disk b
  count : v.FreeExact → v'.FreeExact
  merges : v'.innerMerges = v.innerMerges

theorem Shrink.refl (v : Vol) (inn : InodeMem) : Shrink v inn v inn [] :=
  ⟨SameShape.refl v, SameId.refl inn, rfl, rfl, by simp, fun _ _ => rfl, fun h => h, rfl⟩

theorem Shrink.indirectBlocks_eq (h : Shrink v inn v' inn' gone) :
    indirectBlocks inn' = indirectBlocks inn := by
  rw [indirectBlocks, indirectBlocks, h.indirect]

theorem Shrink.trans {v'' : Vol} {inn'' : InodeMem} {gone' : List Nat}
    (h : Shrink v inn v' inn' gone) (h' : Shrink v' inn' v'' inn'' gone') :
    Shrink v inn v'' inn'' (gone ++ gone') where
  shape := h.shape.trans h'.shape
  same := h.same.trans h'.same
  size := h'.size.trans h.size
  indirect := h'.indirect.trans h.indirect
  bits b := by
    rw [h'.bits, h.bits, mem_append, not_or, and_assoc]
  disk b hb := by
    rw [h'.disk b (by rw [h.indirectBlocks_eq]; exact hb), h.disk b hb]
  count hv := h'.count (h.count hv)
  merges := h'.merges.trans h.merges

theorem Effect.of_gone {l : List Extent} (h : FileInv v inn) (hshape : SameShape v v')
    (hsame : SameId inn inn') (hslots : SlotsFrom v' inn' 0 l)
    (hperm : (inodeBlocks v inn).Perm ((blocksOf l ++ indirectBlocks inn') ++ gone))
    (hbits : ∀ b, bmTest v'.bmMem b = true ↔ bmTest v.bmMem b = true ∧ b ∉ gone)
    (hused : inn'.blocksUsed = inn.blocksUsed - gone.length)
    (hdisk : ∀ b ∉ indirectBlocks inn, v'.disk b = v.disk b)
    (hcount : v.FreeExact → v'.FreeExact) (hmerges : v'.innerMerges = v.innerMerges) :
    Effect v inn v' inn' := by
  have hblocks : inodeBlocks v' inn' = blocksOf l ++ indirectBlocks inn' := by
    rw [inodeBlocks, dataBlocks, hslots.extentList_eq]
  rw [← hblocks] at hperm
  have hmem : ∀ b, b ∈ inodeBlocks v inn ↔ b ∈ inodeBlocks v' inn' ∨ b ∈ gone := by
    intro b
    rw [hperm.mem_iff, mem_append]
  have hnodup := nodup_append.mp (hperm.nodup_iff.mp h.nodup)
  have hapart : ∀ b ∈ inodeBlocks v' inn', b ∉ gone := fun b hb hb' => hnodup.2.2 b hb b hb' rfl
  have hinv : FileInv v' inn' := by
    refine ⟨by rw [hslots.extentList_eq]; exact hslots, hnodup.1, ?_, ?_⟩
    · intro b hb
      obtain ⟨hlow, hhigh, hset⟩ := h.isUsed b ((hmem b).mpr (.inl hb))
      rw [Vol.IsUsed, hshape.dataStart, hshape.totalBlocks, hbits]
      exact ⟨hlow, hhigh, hset, hapart b hb⟩
    · have hlen := hperm.length_eq
      rw [length_append] at hlen
      rw [hused, h.used]
      omega
  refine ⟨hshape, hsame, hinv, ?_, ?_, ?_, hcount, hmerges.symm.le⟩
  · intro b
    rw [hbits, hmem]
    constructor
    · rintro ⟨hset, hgone⟩
      by_cases hb : b ∈ inodeBlocks v' inn'
      · exact .inr hb
      · exact .inl ⟨hset, by tauto⟩
    · rintro (⟨hset, hb⟩ | hb)
      · exact ⟨hset, fun hgone => hb (.inr hgone)⟩
      · exact ⟨(h.isUsed b ((hmem b).mpr (.inl hb))).2.2, hapart b hb⟩
  · exact fun b hb => .inl ((hmem b).mpr (.inl hb))
  · exact fun b _ hb => hdisk b fun hind => hb (mem_inodeBlocks.mpr (.inr hind))

/-! ## One slot -/

theorem shrinkSlot_spec {v : Vol} {inn inn1 : InodeMem} {n a c : Nat} {e : Extent} (hv : v.Sound)
    (hn : n < 345) (hslot : 0 < (slotAt v inn n).blockCount) (hrun : a + c ≤ v.sb.totalBlocks)
    (hstart : e.startBlock < 2 ^ 64) (hcount : e.blockCount < 2 ^ 32)
    (hinn : inn1 = {inn with blocksUsed := inn1.blocksUsed}) :
    ∃ v' inn', extSetNolock (blkFreeRunNolock v a c) inn1 n e = (.eok, v', inn') ∧
      Shrink v inn v' inn' (List.range' a c) ∧ inn'.blocksUsed = inn1.blocksUsed ∧
      ∀ m < 345, slotAt v' inn' m = if m = n then e else slotAt v inn m := by
  have hinuse : n < 4 ∨ inn.indirectExtentBlock ≠ 0 := by
    by_contra hnot
    rw [not_or, not_not] at hnot
    rw [slotAt, dif_neg hnot.1, if_pos hnot.2] at hslot
    exact lt_irrefl 0 hslot
  have hind : inn1.indirectExtentBlock = inn.indirectExtentBlock := by rw [hinn]
  have hshape := freeRun v a c
  have hv' := hshape.sound hv
  rcases @extSetNolock_spec (blkFreeRunNolock v a c) inn1 n e hv'.io hv'.data hn hstart hcount with
    ⟨v', inn', fresh, hset, hupd, hfresh⟩ | ⟨-, hfour, hz, -⟩
  · have hnil : fresh = [] := hfresh (by rw [hind]; exact hinuse)
    subst hnil
    have hindBlocks : indirectBlocks inn' = indirectBlocks inn := by
      rw [hupd.indirect, append_nil, indirectBlocks, indirectBlocks, hind]
    refine ⟨v', inn', hset, ⟨hshape.trans hupd.shape, ?_, ?_, ?_, ?_, ?_, ?_, hupd.merges⟩,
      hupd.used, ?_⟩
    · refine SameId.trans ?_ hupd.same
      rw [hinn]
      exact ⟨rfl, rfl, rfl, rfl⟩
    · rw [hupd.size, hinn]
    · exact indirectBlocks_inj hindBlocks
    · intro b
      rw [hupd.bits, bmTest_blkFreeRunNolock]
      simp only [not_mem_nil, decide_false, Bool.false_or, Bool.and_eq_true,
        Bool.not_eq_true', decide_eq_false_iff_not, mem_range'_1]
      have hiff : (a ≤ b ∧ b < a + c ∧ b < v.sb.totalBlocks) ↔ (a ≤ b ∧ b < a + c) := by omega
      rw [hiff, and_comm]
    · intro b hb
      rw [hupd.disk b (by rw [hindBlocks]; exact hb)]
      rfl
    · exact fun hexact => hupd.count (blkFreeRunNolock_freeExact v a c hexact)
    · intro m hm
      have hsame : slotAt (blkFreeRunNolock v a c) inn1 m = slotAt v inn m :=
        slotAt_congr (by rw [hinn]) hind (fun _ _ => rfl) m
      rw [hupd.slots m hm, hsame]
  · rcases hinuse with h | h
    · omega
    · exact absurd (hind.symm.trans hz) h

/-! ## The loops -/

/-- A slot behind `n` is what the loop finds next, a slot before `n` stays. -/
private theorem slotsFrom_next {n : Nat} {e : Extent} {l : List Extent}
    (h : SlotsFrom v inn (n + 1) l)
    (hslots : ∀ m < 345, slotAt v' inn' m = if m = n then e else slotAt v inn m) :
    SlotsFrom v' inn' (n + 1) l :=
  h.congr fun m hm hm' => by rw [hslots m hm', if_neg (by omega)]

theorem truncateLoop_spec {newLb fuel n cursor : Nat} {v : Vol} {inn : InodeMem}
    {l : List Extent} (hv : v.Sound) (h : SlotsFrom v inn n l) (hfuel : n + fuel = 345)
    (hstop : ∀ e ∈ l, e.stop ≤ v.sb.totalBlocks) :
    ∃ v' inn', truncateLoop newLb fuel n cursor v inn = (.eok, v', inn') ∧
      Shrink v inn v' inn' ((blocksOf l).drop (newLb - cursor)) ∧
      inn'.blocksUsed = inn.blocksUsed - ((blocksOf l).drop (newLb - cursor)).length ∧
      (∀ m < n, slotAt v' inn' m = slotAt v inn m) ∧
      SlotsFrom v' inn' n (cutExtents l (newLb - cursor)) := by
  induction fuel generalizing n cursor v inn l with
  | zero =>
    cases l with
    | nil => exact ⟨v, inn, rfl, by simpa using Shrink.refl v inn, by simp, fun _ _ => rfl, h⟩
    | cons e l => exact absurd h.1 (by omega)
  | succ fuel ih =>
    have hn : n < 345 := by omega
    rw [truncateLoop, extGetNolock_eq hv.io hn]
    cases l with
    | nil =>
      simp only [h n le_rfl hn, if_true]
      exact ⟨v, inn, rfl, by simpa using Shrink.refl v inn, by simp, fun _ _ => rfl, h⟩
    | cons e l =>
      obtain ⟨-, hpos, hslot, hrest⟩ := h
      have hne : e.blockCount ≠ 0 := by omega
      have htotal := hv.total
      have hstopHead := hstop e (by simp)
      have hstopTail : ∀ x ∈ l, x.stop ≤ v.sb.totalBlocks := fun x hx => hstop x (.tail _ hx)
      rw [Extent.stop] at hstopHead
      simp only [hslot, hne, if_false]
      rw [blocksOf_cons, cutExtents]
      -- The slot keeps `e'`, its blocks from the `k`-th on go, and everything behind it.
      have hcut : newLb < cursor + e.blockCount → ∀ k e', newLb - cursor = k →
          e'.startBlock < 2 ^ 64 → e'.blockCount < 2 ^ 32 → ∃ v' inn',
          (let r := extSetNolock (blkFreeRunNolock v (e.startBlock + k) (e.blockCount - k))
              {inn with blocksUsed := inn.blocksUsed - (e.blockCount - k)} n e'
           truncateLoop newLb fuel (n + 1) (cursor + e.blockCount) r.2.1 r.2.2) =
            (.eok, v', inn') ∧
          Shrink v inn v' inn' (range' (e.startBlock + k) (e.blockCount - k) ++ blocksOf l) ∧
          inn'.blocksUsed = inn.blocksUsed - (e.blockCount - k + (blocksOf l).length) ∧
          (∀ m < n, slotAt v' inn' m = slotAt v inn m) ∧ slotAt v' inn' n = e' ∧
          SlotsFrom v' inn' (n + 1) [] := by
        intro hpart k e' hk hstart hcount
        obtain ⟨v1, inn1, hset, hshrink, hused, hslots⟩ :=
          @shrinkSlot_spec v inn {inn with blocksUsed := inn.blocksUsed - (e.blockCount - k)} n
            (e.startBlock + k) (e.blockCount - k) e' hv hn (by rw [hslot]; exact hpos) (by omega)
            hstart hcount rfl
        obtain ⟨v2, inn2, hrun, hshrink', hused', hkeep, hlist⟩ :=
          @ih (n + 1) (cursor + e.blockCount) v1 inn1 l (hshrink.shape.sound hv)
            (slotsFrom_next hrest hslots) (by omega)
            (by rw [hshrink.shape.totalBlocks]; exact hstopTail)
        have hz : newLb - (cursor + e.blockCount) = 0 := by omega
        rw [hz, cutExtents_zero] at hlist
        rw [hz, drop_zero] at hshrink' hused'
        refine ⟨v2, inn2, by simp only [hset, hrun], hshrink.trans hshrink', ?_, ?_, ?_, hlist⟩
        · rw [hused', hused, Nat.sub_sub]
        · intro m hm
          rw [hkeep m (by omega), hslots m (by omega), if_neg (by omega)]
        · rw [hkeep n (by omega), hslots n hn, if_pos rfl]
      by_cases hall : newLb ≤ cursor
      · have hz : newLb - cursor = 0 := by omega
        obtain ⟨v2, inn2, hrun, hshrink, hused, hkeep, hlast, hlist⟩ :=
          hcut (by omega) 0 ⟨0, 0⟩ hz (by norm_num) (by norm_num)
        rw [if_pos hall, hz, if_pos rfl, drop_zero, length_append, length_range']
        refine ⟨v2, inn2, hrun, hshrink, hused, hkeep, fun m hm hm' => ?_⟩
        rcases eq_or_lt_of_le hm with rfl | hlt
        · rw [hlast]
        · exact hlist m hlt hm'
      · rw [if_neg hall]
        have hz : ¬ newLb - cursor = 0 := by omega
        rw [if_neg hz]
        by_cases hpart : newLb < cursor + e.blockCount
        · obtain ⟨v2, inn2, hrun, hshrink, hused, hkeep, hlast, hlist⟩ :=
            hcut hpart (newLb - cursor) ⟨e.startBlock, newLb - cursor⟩ rfl (by simp only; omega)
              (by simp only; omega)
          rw [if_pos hpart, if_pos (by omega), drop_append_of_le_length (by simp; omega),
            drop_range', Nat.mul_one, length_append, length_range']
          exact ⟨v2, inn2, hrun, hshrink, hused, hkeep, hn, by simp only; omega, hlast, hlist⟩
        · -- The extent stays.
          rw [if_neg hpart, if_neg (by omega)]
          obtain ⟨v2, inn2, hrun, hshrink, hused, hkeep, hlist⟩ :=
            @ih (n + 1) (cursor + e.blockCount) v inn l hv hrest (by omega) hstopTail
          have hsub : newLb - cursor - e.blockCount = newLb - (cursor + e.blockCount) := by
            omega
          have hdrop : (range' e.startBlock e.blockCount ++ blocksOf l).drop
              (newLb - cursor) = (blocksOf l).drop (newLb - (cursor + e.blockCount)) := by
            rw [drop_append, drop_eq_nil_of_le (by simp; omega), nil_append, length_range', hsub]
          rw [hdrop, hsub]
          refine ⟨v2, inn2, hrun, hshrink, hused, fun m hm => hkeep m (by omega),
            hn, hpos, ?_, hlist⟩
          rw [hkeep n (by omega), hslot]

theorem freeExtentsLoop_spec {fuel n : Nat} {v : Vol} {inn : InodeMem}
    {l : List Extent} (hv : v.Sound) (h : SlotsFrom v inn n l) (hfuel : n + fuel = 345)
    (hstop : ∀ e ∈ l, e.stop ≤ v.sb.totalBlocks) :
    ∃ v' inn', freeExtentsLoop fuel n v inn = (v', inn') ∧
      Shrink v inn v' inn' (blocksOf l) ∧ (∀ m < n, slotAt v' inn' m = slotAt v inn m) ∧
      SlotsFrom v' inn' n [] := by
  induction fuel generalizing n v inn l with
  | zero =>
    cases l with
    | nil => exact ⟨v, inn, rfl, Shrink.refl v inn, fun _ _ => rfl, h⟩
    | cons e l => exact absurd h.1 (by omega)
  | succ fuel ih =>
    have hn : n < 345 := by omega
    rw [freeExtentsLoop, extGetNolock_eq hv.io hn]
    cases l with
    | nil =>
      simp only [h n le_rfl hn, if_true]
      split_ifs with h4
      · exact ⟨v, inn, rfl, Shrink.refl v inn, fun _ _ => rfl, h⟩
      obtain ⟨v', inn', hrun, hshrink, hkeep, hlist⟩ :=
        @ih (n + 1) v inn [] hv (fun m hm => h m (by omega)) (by omega) (by simp)
      refine ⟨v', inn', hrun, hshrink, fun m hm => hkeep m (by omega), ?_⟩
      intro m hm hm'
      rcases eq_or_lt_of_le hm with rfl | hlt
      · rw [hkeep n (by omega)]
        exact h n le_rfl hn
      · exact hlist m hlt hm'
    | cons e l =>
      obtain ⟨-, hpos, hslot, hrest⟩ := h
      have hne : e.blockCount ≠ 0 := by omega
      have hstopHead := hstop e (by simp)
      rw [Extent.stop] at hstopHead
      simp only [hslot, hne, if_false]
      obtain ⟨v1, inn1, hset, hshrink, -, hslots⟩ :=
        @shrinkSlot_spec v inn inn n e.startBlock e.blockCount ⟨0, 0⟩ hv hn
          (by rw [hslot]; exact hpos) hstopHead (by norm_num) (by norm_num) rfl
      obtain ⟨v2, inn2, hrun, hshrink', hkeep, hlist⟩ :=
        @ih (n + 1) v1 inn1 l (hshrink.shape.sound hv) (slotsFrom_next hrest hslots) (by omega)
          (by
            rw [hshrink.shape.totalBlocks]
            exact fun x hx => hstop x (.tail _ hx))
      refine ⟨v2, inn2, by simp only [hset, hrun], hshrink.trans hshrink', ?_, ?_⟩
      · intro m hm
        rw [hkeep m (by omega), hslots m (by omega), if_neg (by omega)]
      · intro m hm hm'
        rcases eq_or_lt_of_le hm with rfl | hlt
        · rw [hkeep n (by omega), hslots n hn, if_pos rfl]
        · exact hlist m hlt hm'

/-! ## The whole calls -/

theorem anyIndirect_eq_false {fuel k : Nat} (hio : ∀ b, v.env.io b = true) (hfuel : k + fuel = 341)
    (h : anyIndirect v inn fuel k = false) :
    ∀ m, 4 + k ≤ m → m < 345 → (slotAt v inn m).blockCount = 0 := by
  induction fuel generalizing k with
  | zero =>
    intro m hm hm'
    omega
  | succ fuel ih =>
    rw [anyIndirect, extGetNolock_eq hio (by omega)] at h
    intro m hm hm'
    by_cases hzero : (slotAt v inn (4 + k)).blockCount = 0
    · simp only [hzero, ne_eq, not_true_eq_false, if_false] at h
      rcases eq_or_lt_of_le hm with rfl | hlt
      · exact hzero
      · exact ih (by omega) h m (by omega) hm'
    · simp [hzero] at h

theorem dropIndirect_spec {v : Vol} {inn : InodeMem} {l : List Extent} (hv : v.Sound)
    (h : SlotsFrom v inn 0 l) (hind : ∀ b ∈ indirectBlocks inn, b < v.sb.totalBlocks) :
    ∃ v' inn' gone, dropIndirect v inn = (v', inn') ∧
      indirectBlocks inn = indirectBlocks inn' ++ gone ∧ SlotsFrom v' inn' 0 l ∧
      SameShape v v' ∧ SameId inn inn' ∧ v'.disk = v.disk ∧
      (∀ b, bmTest v'.bmMem b = true ↔ bmTest v.bmMem b = true ∧ b ∉ gone) ∧
      inn'.blocksUsed = inn.blocksUsed - gone.length ∧ (v.FreeExact → v'.FreeExact) ∧
      v'.innerMerges = v.innerMerges := by
  unfold dropIndirect
  by_cases hz : inn.indirectExtentBlock = 0
  · rw [if_pos hz]
    exact ⟨v, inn, [], rfl, by simp, h, refl v, SameId.refl inn, rfl, by simp, rfl,
      fun hexact => hexact, rfl⟩
  rw [if_neg hz]
  cases hany : anyIndirect v inn 341 0 with
  | true =>
    exact ⟨v, inn, [], rfl, by simp, h, refl v, SameId.refl inn, rfl, by simp, rfl,
      fun hexact => hexact, rfl⟩
  | false =>
    have hempty := anyIndirect_eq_false hv.io rfl hany
    have hlt := hind inn.indirectExtentBlock (mem_indirectBlocks.mpr ⟨hz, rfl⟩)
    refine ⟨_, _, [inn.indirectExtentBlock], rfl, by simp [indirectBlocks, hz], ?_,
      freeRun _ _ _, ⟨rfl, rfl, rfl, rfl⟩, rfl, ?_, rfl,
      blkFreeRunNolock_freeExact v _ 1, rfl⟩
    · refine h.congr_empty ?_
      intro m hm hm'
      by_cases h4 : m < 4
      · left
        simp [slotAt, h4]
      · right
        refine ⟨hempty m (by omega) hm', ?_⟩
        simp [slotAt, h4]
    · intro b
      rw [bmTest_blkFreeRunNolock]
      simp only [Bool.and_eq_true, Bool.not_eq_true', decide_eq_false_iff_not, List.mem_singleton]
      have hiff : (inn.indirectExtentBlock ≤ b ∧ b < inn.indirectExtentBlock + 1 ∧
          b < v.sb.totalBlocks) ↔ b = inn.indirectExtentBlock := by omega
      rw [hiff, and_comm]

def sizeBlocks (size : Nat) : Nat := (size + 4095) / 4096

theorem truncateNolock_spec (hv : v.Sound) (h : FileInv v inn) (newSize : Nat) :
    ∃ v' inn', truncateNolock v inn newSize = (.eok, v', inn') ∧ Effect v inn v' inn' ∧
      inn'.sizeBytes = newSize ∧
      dataBlocks v' inn' = (dataBlocks v inn).take (sizeBlocks newSize) ∧
      (∀ b ∉ indirectBlocks inn, v'.disk b = v.disk b) ∧
      v'.innerMerges = v.innerMerges := by
  have hnewLb : (if newSize = 0 then 0 else (newSize - 1) / 4096 + 1) = sizeBlocks newSize := by
    unfold sizeBlocks
    split <;> omega
  obtain ⟨v1, inn1, hrun, hshrink, hused, -, hslots⟩ :=
    @truncateLoop_spec (sizeBlocks newSize) 345 0 0 v inn _ hv h.slots rfl fun e he => h.extent_le he
  rw [Nat.sub_zero] at hshrink hused hslots
  obtain ⟨v2, inn2, gone, hdrop, hind, hslots', hshape, hsame, hdisk, hbits, hused', hcount,
      hmerges⟩ := @dropIndirect_spec v1 inn1 _ (hshrink.shape.sound hv) hslots (by
    intro b hb
    rw [hshrink.indirectBlocks_eq] at hb
    rw [hshrink.shape.totalBlocks]
    exact (h.isUsed b (mem_inodeBlocks.mpr (.inr hb))).2.1)
  have hfinal : SlotsFrom v2 {inn2 with sizeBytes := newSize, dirty := true} 0
      (cutExtents (extentList v inn) (sizeBlocks newSize)) := hslots'.congr fun _ _ _ => rfl
  have hdisk' : ∀ b ∉ indirectBlocks inn, v2.disk b = v.disk b := by
    intro b hb
    rw [hdisk, hshrink.disk b hb]
  refine ⟨v2, {inn2 with sizeBytes := newSize, dirty := true}, ?_, ?_, rfl, ?_, hdisk', ?_⟩
  · simp [truncateNolock, hnewLb, hrun, hdrop]
  · have hbits' : ∀ b, bmTest v2.bmMem b = true ↔ bmTest v.bmMem b = true ∧
        b ∉ (dataBlocks v inn).drop (sizeBlocks newSize) ++ gone := by
      intro b
      rw [hbits, hshrink.bits, mem_append, not_or, and_assoc]
      rfl
    refine Effect.of_gone h (hshrink.shape.trans hshape)
      ((hshrink.same.trans hsame).trans ⟨rfl, rfl, rfl, rfl⟩) hfinal ?_ hbits' ?_ hdisk'
      (fun hexact => hcount (hshrink.count hexact)) (hmerges.trans hshrink.merges)
    · rw [hshrink.indirectBlocks_eq] at hind
      rw [inodeBlocks, hind, blocksOf_cutExtents, dataBlocks, ← append_assoc, ← append_assoc]
      refine List.Perm.append_right _ ?_
      nth_rewrite 1 [← take_append_drop (sizeBlocks newSize) (blocksOf (extentList v inn))]
      rw [append_assoc, append_assoc]
      exact List.Perm.append_left _ perm_append_comm
    · rw [hused', hused, length_append, dataBlocks]
      omega
  · rw [dataBlocks, hfinal.extentList_eq, blocksOf_cutExtents, dataBlocks]
  · exact hmerges.trans hshrink.merges

theorem inodeFreeAllExtents_spec (hv : v.Sound) (h : FileInv v inn) :
    ∃ v' inn', inodeFreeAllExtents v inn = (v', inn') ∧ Effect v inn v' inn' ∧
      inodeBlocks v' inn' = [] ∧ inn'.sizeBytes = 0 ∧
      (∀ b ∉ indirectBlocks inn, v'.disk b = v.disk b) ∧ v'.innerMerges = v.innerMerges := by
  obtain ⟨v1, inn1, hrun, hshrink, -, hslots⟩ :=
    @freeExtentsLoop_spec 345 0 v inn _ hv h.slots rfl fun e he => h.extent_le he
  let inn2 : InodeMem :=
    {inn1 with indirectExtentBlock := 0, blocksUsed := 0, sizeBytes := 0, dirty := true}
  have hind : indirectBlocks inn2 = [] := rfl
  -- The indirect block, if there is one, is freed after its entries.
  obtain ⟨v2, hv2, hshape, hdisk, hbits, hcount, hmerges⟩ : ∃ v2,
      (if inn1.indirectExtentBlock = 0 then v1
        else blkFreeRunNolock v1 inn1.indirectExtentBlock 1) = v2 ∧ SameShape v1 v2 ∧
      v2.disk = v1.disk ∧ (∀ b, bmTest v2.bmMem b = true ↔
        bmTest v1.bmMem b = true ∧ b ∉ indirectBlocks inn1) ∧
      (v1.FreeExact → v2.FreeExact) ∧ v2.innerMerges = v1.innerMerges := by
    by_cases hz : inn1.indirectExtentBlock = 0
    · exact ⟨v1, if_pos hz, refl v1, rfl, by simp [indirectBlocks, hz],
        fun hexact => hexact, rfl⟩
    refine ⟨_, if_neg hz, freeRun _ _ _, rfl, ?_, blkFreeRunNolock_freeExact v1 _ 1, rfl⟩
    intro b
    have hlt : inn1.indirectExtentBlock < v1.sb.totalBlocks := by
      rw [hshrink.shape.totalBlocks, hshrink.indirect]
      rw [hshrink.indirect] at hz
      exact (h.isUsed _ (mem_inodeBlocks.mpr (.inr (mem_indirectBlocks.mpr ⟨hz, rfl⟩)))).2.1
    rw [bmTest_blkFreeRunNolock]
    simp only [Bool.and_eq_true, Bool.not_eq_true', decide_eq_false_iff_not, mem_indirectBlocks]
    have hiff : (inn1.indirectExtentBlock ≤ b ∧ b < inn1.indirectExtentBlock + 1 ∧
        b < v1.sb.totalBlocks) ↔ (inn1.indirectExtentBlock ≠ 0 ∧ b = inn1.indirectExtentBlock) := by
      omega
    rw [hiff, and_comm]
  have hfinal : SlotsFrom v2 inn2 0 [] := by
    refine hslots.congr_empty fun m _ hm => ?_
    by_cases h4 : m < 4
    · left
      simp [slotAt, h4, inn2]
    · right
      refine ⟨hslots m (Nat.zero_le m) hm, ?_⟩
      simp [slotAt, h4, inn2]
  have hdisk' : ∀ b ∉ indirectBlocks inn, v2.disk b = v.disk b := by
    intro b hb
    rw [hdisk, hshrink.disk b hb]
  refine ⟨v2, inn2, ?_, ?_, ?_, rfl, hdisk', hmerges.trans hshrink.merges⟩
  · simp only [inodeFreeAllExtents, hrun, hv2, inn2]
  · have hbits' : ∀ b, bmTest v2.bmMem b = true ↔
        bmTest v.bmMem b = true ∧ b ∉ inodeBlocks v inn := by
      intro b
      rw [hbits, hshrink.bits, hshrink.indirectBlocks_eq, inodeBlocks, mem_append, not_or,
        and_assoc]
      rfl
    refine Effect.of_gone h (hshrink.shape.trans hshape)
      (hshrink.same.trans ⟨rfl, rfl, rfl, rfl⟩) hfinal ?_ hbits' ?_ hdisk'
      (fun hexact => hcount (hshrink.count hexact)) (hmerges.trans hshrink.merges)
    · simp [hind]
    · change 0 = _
      rw [h.used]
      omega
  · rw [inodeBlocks, dataBlocks, hfinal.extentList_eq, hind]
    rfl

end Kyuzen.Kfs
