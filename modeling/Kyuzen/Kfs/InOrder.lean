import Kyuzen.Kfs.VnodeIo

/-!
Writes whose blocks come in order. A new run is merged into the first extent that
it touches, and its blocks are then in the wrong place unless that extent is the
last one. Whether a whole write stays clear of this can be told from the bitmap
and the extents before it: every block it adds has to be the lowest free one.
-/

namespace Kyuzen.Kfs

open List

variable {v v' : Vol} {inn inn' : InodeMem} {l : List Extent} {start n lb off count : Nat}

def Vol.Lowest (v : Vol) (b : Nat) : Prop := v.IsFree b ∧ ∀ b', v.IsFree b' → b ≤ b'

/-- No block right behind an extent is free, except behind the last extent the
lowest free block. -/
structure Snug (v : Vol) (inn : InodeMem) : Prop where
  inner : ∀ e ∈ (extentList v inn).dropLast, ¬ v.IsFree e.stop
  last : ∀ e ∈ (extentList v inn).getLast?, v.IsFree e.stop → v.Lowest e.stop

/-- The blocks up to `lb` that are missing fit into one run from the lowest free
block on. Of one missing block this is always true. -/
def OneRun (v : Vol) (inn : InodeMem) (lb : Nat) : Prop :=
  lb + 1 - (dataBlocks v inn).length ≤ 64 ∧
    ∀ b, v.Lowest b → v.FreeRun b (lb + 1 - (dataBlocks v inn).length)

/-- All bytes of the write are mapped, or what it adds comes in order. -/
def InOrder (v : Vol) (inn : InodeMem) (off count : Nat) : Prop :=
  off + count ≤ covered v inn ∨ Snug v inn ∧ OneRun v inn (off / 4096)

theorem Vol.exists_lowest (h : ∃ b, v.IsFree b) : ∃ b, v.Lowest b :=
  ⟨Nat.find h, Nat.find_spec h, fun _ hb => Nat.find_min' h hb⟩

theorem oneRun_of_le (h : lb ≤ (dataBlocks v inn).length) : OneRun v inn lb := by
  refine ⟨by omega, fun b hlow b' hle hlt => ?_⟩
  exact hlow.1.run b' hle (by omega)

theorem Snug.congr (h : Snug v inn) (hlist : extentList v' inn' = extentList v inn)
    (hfree : ∀ b, v'.IsFree b ↔ v.IsFree b) : Snug v' inn' := by
  refine ⟨fun e he => ?_, fun e he hstop => ?_⟩
  · rw [hlist] at he
    rw [hfree]
    exact h.inner e he
  · rw [hlist] at he
    obtain ⟨hself, hmin⟩ := h.last e he ((hfree _).mp hstop)
    exact ⟨hstop, fun b hb => hmin b ((hfree b).mp hb)⟩

/-! ## One run -/

theorem mergesInside_of_inner (h : ∀ e ∈ l.dropLast, e.stop ≠ start) :
    mergesInside l start = false := by
  induction l with
  | nil => rfl
  | cons e l ih =>
    rw [mergesInside]
    cases l with
    | nil => simp [mergesInside]
    | cons e₂ l =>
      rw [dropLast_cons_cons, forall_mem_cons] at h
      rw [if_neg h.1]
      exact ih h.2

/-- A run that touches no inner extent makes the last one longer or is a new one. -/
theorem appendExtent_cases (h : ∀ e ∈ l.dropLast, e.stop ≠ start) :
    (∃ l₀ e, l = l₀ ++ [e] ∧ e.stop = start ∧
      appendExtent l start n = l₀ ++ [⟨e.startBlock, e.blockCount + n⟩]) ∨
    (∀ e ∈ l, e.stop ≠ start) ∧ appendExtent l start n = l ++ [⟨start, n⟩] := by
  induction l with
  | nil => exact .inr ⟨by simp, rfl⟩
  | cons e l ih =>
    rw [appendExtent]
    cases l with
    | nil =>
      by_cases hstop : e.stop = start
      · exact .inl ⟨[], e, rfl, hstop, by rw [if_pos hstop]; rfl⟩
      · exact .inr ⟨by simpa using hstop, by rw [if_neg hstop]; rfl⟩
    | cons e₂ l =>
      rw [dropLast_cons_cons, forall_mem_cons] at h
      rw [if_neg h.1]
      rcases ih h.2 with ⟨l₀, last, hl, hstop, happ⟩ | ⟨hnone, happ⟩
      · exact .inl ⟨e :: l₀, last, by rw [hl, cons_append], hstop, by rw [happ, cons_append]⟩
      · exact .inr ⟨forall_mem_cons.mpr ⟨h.1, hnone⟩, by rw [happ]; rfl⟩

theorem Snug.inner_ne (h : Snug v inn) (hlow : v.Lowest start) :
    ∀ e ∈ (extentList v inn).dropLast, e.stop ≠ start := by
  rintro e he rfl
  exact h.inner e he hlow.1

theorem Snug.append (h : Snug v inn) (hlow : v.Lowest start)
    (hgrow : Growth v inn v' inn' (range' start n))
    (hlist : extentList v' inn' = appendExtent (extentList v inn) start n) : Snug v' inn' := by
  -- what is free afterwards lies behind the run
  have hbehind : ∀ b, v'.IsFree b → start + n ≤ b := by
    intro b hb
    have hge := hlow.2 b (hgrow.isFree hb)
    by_contra hlt
    have hdata : b ∈ dataBlocks v' inn' :=
      hgrow.perm.mem_iff.mpr (mem_append_right _ (mem_range'_1.mpr ⟨hge, by omega⟩))
    exact (hgrow.effect.inv.isUsed b (mem_inodeBlocks.mpr (.inl hdata))).not_free hb
  rcases appendExtent_cases (h.inner_ne hlow) with ⟨l₀, e, hl, hstop, happ⟩ | ⟨hnone, happ⟩
  · rw [happ] at hlist
    refine ⟨fun e' he' hfree => ?_, fun e' he' hfree => ?_⟩
    · rw [hlist, dropLast_concat] at he'
      refine h.inner e' ?_ (hgrow.isFree hfree)
      rw [hl, dropLast_concat]
      exact he'
    · rw [hlist, getLast?_concat, Option.mem_some_iff] at he'
      subst he'
      refine ⟨hfree, fun b hb => ?_⟩
      have := hbehind b hb
      simp only [Extent.stop] at hstop ⊢
      omega
  · rw [happ] at hlist
    refine ⟨fun e he hfree => ?_, fun e he hfree => ?_⟩
    · -- the block behind the old last extent would have been the lowest one
      rw [hlist, dropLast_concat] at he
      have hold := hgrow.isFree hfree
      have hlast : e ∈ (extentList v inn).getLast? := by
        by_contra hinner
        have hne : some e ≠ (extentList v inn).getLast? := fun heq => hinner heq.symm
        exact h.inner e (mem_dropLast_of_mem_of_ne_getLast? he hne) hold
      exact hnone e he (le_antisymm ((h.last e hlast hold).2 _ hlow.1) (hlow.2 _ hold))
    · rw [hlist, getLast?_concat, Option.mem_some_iff] at he
      subst he
      exact ⟨hfree, fun b hb => hbehind b hb⟩

theorem Snug.grow (h : Snug v inn) (hv : v.Sound) (hinv : FileInv v inn)
    (hlb : (dataBlocks v inn).length ≤ lb) (hrun : OneRun v inn lb)
    (hcall : growToNolock v inn lb = (.eok, v', inn')) :
    v'.innerMerges = v.innerMerges ∧ Snug v' inn' := by
  obtain ⟨m, rfl⟩ := Nat.exists_eq_add_of_le hlb
  have hneed : (dataBlocks v inn).length + m + 1 - (dataBlocks v inn).length = m + 1 := by omega
  unfold OneRun at hrun
  rw [hneed] at hrun
  obtain ⟨rc, v'', inn'', added, hspec, hgrow, hend⟩ :=
    growToNolock_spec hv hinv ((dataBlocks v inn).length + m)
  rw [hspec] at hcall
  cases hcall
  have hsome : ∃ b, v.IsFree b := by
    have hlen := hgrow.perm.length_eq
    rcases hend with ⟨-, hlt, -⟩ | hrc | hrc
    · rw [length_append] at hlen
      obtain ⟨b, hb⟩ := exists_mem_of_length_pos (show 0 < added.length by omega)
      exact ⟨b, hgrow.free b hb⟩
    · cases hrc
    · cases hrc
  obtain ⟨b, hlow⟩ := Vol.exists_lowest hsome
  obtain ⟨hone, hmerges, hlist⟩ := growToNolock_run hv hinv hrun.1 (hrun.2 b hlow)
    (fun start' hfree => hlow.2 _ (hfree start' le_rfl (by omega))) hspec
  rw [mergesInside_of_inner (h.inner_ne hlow)] at hmerges
  exact ⟨hmerges, h.append hlow hone hlist⟩

/-! ## Whole writes -/

/-- What a successful write in order gives: no inner merge, and not more blocks
than the bytes need. -/
structure Tidy (v : Vol) (inn : InodeMem) (v' : Vol) (inn' : InodeMem) (stop : Nat) : Prop where
  merges : v'.innerMerges = v.innerMerges
  snug : Snug v inn → Snug v' inn'
  bound : covered v' inn' ≤ max (covered v inn) ((stop + 4095) / 4096 * 4096)

theorem Tidy.refl (v : Vol) (inn : InodeMem) (stop : Nat) : Tidy v inn v inn stop :=
  ⟨rfl, id, le_max_left _ _⟩

theorem Tidy.trans {v'' : Vol} {inn'' : InodeMem} {stop stop' : Nat} (h : Tidy v inn v' inn' stop)
    (h' : Tidy v' inn' v'' inn'' stop') (hle : stop ≤ stop') : Tidy v inn v'' inn'' stop' := by
  refine ⟨h'.merges.trans h.merges, fun hs => h'.snug (h.snug hs), ?_⟩
  have hbound := h.bound
  have hbound' := h'.bound
  omega

theorem writeTarget_tidy (hv : v.Sound) (hinv : FileInv v inn)
    (hok : lb < (dataBlocks v inn).length ∨ Snug v inn ∧ OneRun v inn lb) {phys : Nat}
    (hcall : writeTarget v inn lb = (.ok phys, v', inn')) :
    Tidy v inn v' inn' (lb * 4096 + 1) ∧ lb < (dataBlocks v' inn').length := by
  unfold writeTarget at hcall
  rw [hinv.phys_eq hv] at hcall
  cases hphys : (dataBlocks v inn)[lb]? with
  | some b =>
    rw [hphys] at hcall
    cases hcall
    exact ⟨Tidy.refl _ _ _, (List.getElem?_eq_some_iff.mp hphys).1⟩
  | none =>
    rw [hphys] at hcall
    have hlb := List.getElem?_eq_none_iff.mp hphys
    obtain ⟨hsnug, hrun⟩ := hok.resolve_left (not_lt.mpr hlb)
    obtain ⟨rc, v₁, inn₁, added, hspec, hgrow, hend⟩ := growToNolock_spec hv hinv lb
    rcases hend with ⟨rfl, hlt, hlen⟩ | rfl | rfl
    · obtain ⟨hmerges, hsnug'⟩ := hsnug.grow hv hinv hlb hrun hspec
      have hget := getElem?_eq_getElem hlt
      simp only [hspec, hgrow.effect.inv.phys_eq (hgrow.effect.shape.sound hv), hget] at hcall
      cases hcall
      refine ⟨⟨hmerges, fun _ => hsnug', ?_⟩, hlt⟩
      unfold covered
      rw [hlen]
      omega
    · simp only [hspec] at hcall
      cases hcall
    · simp only [hspec] at hcall
      cases hcall

theorem writeLoop_tidy {buf : Buf} {fuel nw w : Nat} (hv : v.Sound) (hinv : FileInv v inn)
    (hok : InOrder v inn off count) (hfuel : count ≤ fuel)
    (hcall : writeLoop buf fuel v inn off count nw = (.eok, v', inn', w)) :
    Tidy v inn v' inn' (off + count) := by
  induction fuel generalizing off count nw v inn with
  | zero =>
    cases hcall
    exact Tidy.refl _ _ _
  | succ fuel ih =>
    rw [writeLoop] at hcall
    split_ifs at hcall with hz
    · cases hcall
      exact Tidy.refl _ _ _
    have hpos := @chunkLen_pos off count hz
    have hle := chunkLen_le off count
    have hin := chunkLen_inside off count
    have hlb : off / 4096 < (dataBlocks v inn).length ∨ Snug v inn ∧ OneRun v inn (off / 4096) := by
      refine hok.imp_left fun hcov => ?_
      unfold covered at hcov
      omega
    obtain ⟨r, v₁, inn₁, added, htarget, hgrow, ⟨phys, rfl, hphys⟩ | ⟨rc, rfl, hrc⟩⟩ :=
      writeTarget_spec hv hinv (off / 4096)
    · obtain ⟨hfirst, hlt⟩ := writeTarget_tidy hv hinv hlb htarget
      have hv₁ := hgrow.effect.shape.sound hv
      simp only [chunkLen_eq, htarget, bcacheGet, bcacheRead, hv₁.io, if_true, ite_self] at hcall
      generalize chunkLen off count = chunk at hpos hle hin hcall
      have hput := @written_chunk v₁ inn₁ off phys chunk buf nw hgrow.effect.inv hphys hin hpos
      obtain ⟨-, hlist, -⟩ := @FileInv.putBlock v₁ inn₁ (chunkInode inn₁ (off + chunk)) phys
        (memcpy (v₁.disk phys) (off % 4096) buf nw chunk) hgrow.effect.inv
        (mem_of_getElem? hphys) rfl rfl rfl
      generalize hv₂ : v₁.putBlock phys (memcpy (v₁.disk phys) (off % 4096) buf nw chunk) = v₂
        at hput hlist hcall
      have hcov : covered v₂ (chunkInode inn₁ (off + chunk)) = covered v₁ inn₁ := by
        rw [covered, dataBlocks, hlist]
        rfl
      have hchunk : Tidy v₁ inn₁ v₂ (chunkInode inn₁ (off + chunk)) (off + chunk) := by
        refine ⟨by rw [← hv₂]; rfl, fun hs => hs.congr hlist fun b => ?_, by omega⟩
        rw [← hv₂]
        exact Iff.rfl
      have hboth := hfirst.trans hchunk (by omega)
      rw [show off + count = off + chunk + (count - chunk) by omega]
      refine hboth.trans (ih (hput.effect.shape.sound hv₁) hput.effect.inv ?_ (by omega) hcall)
        (by omega)
      have hmapped := hput.mapped (by omega)
      have hgrows := (hgrow.written off buf).grows
      rcases hok with hall | ⟨hsnug, -⟩
      · exact .inl (by omega)
      · refine .inr ⟨hboth.snug hsnug, oneRun_of_le ?_⟩
        unfold covered at hmapped
        omega
    · simp only [htarget] at hcall
      cases hcall
      exact absurd rfl hrc

theorem writePieces_tidy {buf : Buf} {fuel total w : Nat} (hv : v.Sound) (hinv : FileInv v inn)
    (hok : InOrder v inn (off + total) (count - total)) (hfuel : count - total ≤ fuel)
    (hle : total ≤ count)
    (hcall : writePieces buf off count fuel v inn total = (.eok, v', inn', w)) :
    Tidy v inn v' inn' (off + count) := by
  induction fuel generalizing total v inn with
  | zero =>
    cases hcall
    exact Tidy.refl _ _ _
  | succ fuel ih =>
    rw [writePieces] at hcall
    split at hcall
    next hmore =>
      generalize hpiece : (if count - total > 1048576 then 1048576 else count - total) = piece
        at hcall
      have hpos : 0 < piece := by rw [← hpiece]; split <;> omega
      have hpiece' : piece ≤ count - total := by rw [← hpiece]; split <;> omega
      obtain ⟨rc, v₁, inn₁, w₁, hwrite, hwritten, hw, hfull⟩ :=
        blkWriteFile_spec hv hinv (off + total) (fun i => buf (total + i)) piece
      simp only [hpiece, hwrite] at hcall
      cases rc with
      | eok =>
        obtain rfl := hfull rfl
        simp only [lt_irrefl, if_false] at hcall
        have hfirst : Tidy v inn v₁ inn₁ (off + total + w₁) := by
          refine writeLoop_tidy hv hinv (hok.imp_left fun hcov => ?_) le_rfl hwrite
          omega
        refine hfirst.trans (ih (hwritten.effect.shape.sound hv) hwritten.effect.inv ?_ (by omega)
          (by omega) hcall) (by omega)
        have hgrows := hwritten.grows
        have hmapped := hwritten.mapped (by omega)
        rcases hok with hall | ⟨hsnug, -⟩
        · exact .inl (by omega)
        · refine .inr ⟨hfirst.snug hsnug, oneRun_of_le ?_⟩
          unfold covered at hmapped
          omega
      | enoent | eio | enospc | einval | eexist | enotdir | eisdir | enomem | enametoolong =>
        cases hcall
    · cases hcall
      exact Tidy.refl _ _ _

end Kyuzen.Kfs
