import Kyuzen.Kfs.DirRep

/-!
What the directory functions do to the entries of a directory: `dir_add_entry`
adds one, `dir_remove_entry` takes one away and `dir_init_dots` makes the first two.
-/

namespace Kyuzen.Kfs

open Function List

variable {j parent : Nat}

variable {v v' : Vol} {dir dir' : InodeMem} {recs : Nat → List Dirent} {name : Name}
  {ino ftype : Nat}

/-! ### The entries after a write -/

theorem entries_rewrite {size : Nat} {before after : List Dirent} {r : Dirent}
    (hj : 4096 * j < size) (hsplit : recs j = before ++ r :: after) :
    ∃ rest, (entries size recs).Perm (inUse [r] ++ rest) ∧
      ∀ new, (entries size (update recs j (before ++ new ++ after))).Perm
        (inUse new ++ rest) := by
  have hlt : j < sizeBlocks size := by
    unfold sizeBlocks
    omega
  obtain ⟨rest, hrest⟩ := entriesFrom_perm recs hlt
  have hmiddle : ∀ new : List Dirent, (inUse (before ++ new ++ after) ++ rest).Perm
      (inUse new ++ (inUse before ++ inUse after ++ rest)) := by
    intro new
    rw [inUse_append, inUse_append, append_assoc, append_assoc, append_assoc]
    exact perm_append_comm_assoc _ _ _
  refine ⟨inUse before ++ inUse after ++ rest, ?_, fun new => (hrest _).trans (hmiddle new)⟩
  have hself := hrest (before ++ [r] ++ after)
  rw [append_assoc, singleton_append, ← hsplit, update_eq_self] at hself
  refine hself.trans ?_
  rw [hsplit, ← singleton_append, ← append_assoc]
  exact hmiddle [r]

theorem entries_append {size len : Nat} {r : Dirent} (hlen : 0 < len)
    (hfits : size % 4096 + len ≤ 4096) (hbeyond : ∀ k, size ≤ 4096 * k → recs k = []) :
    (entries (size + len) (update recs (size / 4096) (recs (size / 4096) ++ [r]))).Perm
      (inUse [r] ++ entries size recs) := by
  have hblocks : sizeBlocks (size + len) = size / 4096 + 1 := by
    unfold sizeBlocks
    omega
  have hold : entries size recs = entriesFrom recs 0 (size / 4096 + 1) := by
    have hn : size / 4096 + 1 = sizeBlocks size + (size / 4096 + 1 - sizeBlocks size) := by
      unfold sizeBlocks
      omega
    rw [hn, entriesFrom_beyond fun k hk => hbeyond k ?_]
    · rfl
    · unfold sizeBlocks at hk
      omega
  obtain ⟨rest, hrest⟩ := entriesFrom_perm recs (Nat.lt_succ_self (size / 4096))
  have hself := hrest (recs (size / 4096))
  rw [update_eq_self] at hself
  rw [entries, hblocks, hold]
  refine (hrest _).trans (((Perm.append_left _ hself).trans ?_).symm)
  rw [inUse_append, append_assoc]
  exact perm_append_comm_assoc _ _ _

/-! ### Writing a record -/

/-- How a record gets its bytes: into blocks that the directory has, or into one
new block, the lowest free one. -/
def Placed (v : Vol) (dir : InodeMem) (v' : Vol) (dir' : InodeMem) : Prop :=
  (v'.innerMerges = v.innerMerges ∧ v'.bmMem = v.bmMem ∧ v'.sb = v.sb ∧
    extentList v' dir' = extentList v dir) ∨
  ∃ start, (dataBlocks v' dir').Perm (dataBlocks v dir ++ [start]) ∧ v.IsFree start ∧
    (∀ b, v.IsFree b → start ≤ b) ∧ (∀ b, v'.IsFree b → v.IsFree b) ∧
    v'.innerMerges = v.innerMerges + (mergesInside (extentList v dir) start).toNat

structure NoRoom (v : Vol) (dir : InodeMem) (rc : Rc) (v' : Vol) (dir' : InodeMem) : Prop where
  full : rc = .einval ∨ rc = .enospc
  same : dir' = dir
  growth : Growth v dir v' dir []
  merges : v'.innerMerges = v.innerMerges
  why : Full v dir

theorem appendWrite_spec (hv : v.Sound) (hf : FileInv v dir) (hmapped : dir.sizeBytes ≤ covered v dir)
    {len : Nat} (data : Buf) (hpos : 0 < len) (hfits : dir.sizeBytes % 4096 + len ≤ 4096) :
    ∃ rc v' dir' w, blkWriteFile v dir dir.sizeBytes data len = (rc, v', dir', w) ∧
      ((rc = .eok ∧ Written v dir v' dir' dir.sizeBytes len data ∧ Placed v dir v' dir') ∨
        NoRoom v dir rc v' dir') := by
  by_cases hroom : dir.sizeBytes + len ≤ covered v dir
  · obtain ⟨v', dir', hrun, hw, hm, hbm, hsb, hlist⟩ := blkWriteFile_mapped hv hf data hroom
    exact ⟨_, _, _, _, hrun, .inl ⟨rfl, hw, .inl ⟨hm, hbm, hsb, hlist⟩⟩⟩
  have hsize : dir.sizeBytes = covered v dir := by
    unfold covered at hmapped hroom ⊢
    omega
  rw [hsize]
  rcases blkWriteFile_next hv hf data hpos (by omega) with
    ⟨v', dir', start, hrun, hw, hplaced⟩ | ⟨rc, v', hrun, hrc, hg, hm, hwhy⟩
  · exact ⟨_, _, _, _, hrun, .inl ⟨rfl, hw, .inr ⟨start, hplaced⟩⟩⟩
  · exact ⟨_, _, _, _, hrun, .inr ⟨hrc, rfl, hg, hm, hwhy⟩⟩

/-- When no free record is large enough, the new one must not cross the end of
the last block. -/
def AppendFits (v : Vol) (dir : InodeMem) (name : Name) (ino ftype : Nat) : Prop :=
  addLoop v dir name ino ftype (dir.sizeBytes / 4096 + 1) 0 v.env.heap = none →
    dir.sizeBytes % 4096 + direntRecLen name.length ≤ 4096

section
variable (hv : v.Sound) (hk : ∀ site, v.env.kmalloc site = true) (hf : FileInv v dir)
  (h : DirRep v dir recs)
include hv hk hf h

theorem dirAddEntry_spec (hr : Recordable ino ftype name)
    (hpos : 0 < name.length) (hfits : AppendFits v dir name ino ftype) :
    ∃ rc v' dir', dirAddEntry v dir name ino ftype = (rc, v', dir') ∧
      ((rc = .eok ∧ (∃ off n data, Written v dir v' dir' off n data) ∧ Placed v dir v' dir' ∧
          (v'.innerMerges = v.innerMerges → ∃ recs' len, DirRep v' dir' recs' ∧
            (entries dir'.sizeBytes recs').Perm
              (⟨ino, len, ftype, name⟩ :: entries dir.sizeBytes recs))) ∨
        NoRoom v dir rc v' dir') := by
  have hname := hr.name_len
  obtain ⟨h12, hneed, -⟩ := direntRecLen_bounds hpos hname
  have hblocks : sizeBlocks dir.sizeBytes ≤ dir.sizeBytes / 4096 + 1 := by
    unfold sizeBlocks
    omega
  unfold dirAddEntry
  rw [if_neg (by omega), if_neg (by simp [hk])]
  rcases @addLoop_spec v dir recs name hv hk hf h _ 0 _ ino ftype v.env.heap (zero_add _)
    hblocks with ⟨hnone, -⟩ | ⟨j, mid, before, r, after, hat, hfree, hle, hrun⟩
  · have hfits' := hfits hnone
    rw [mul_zero] at hnone
    simp only [hnone]
    obtain ⟨rc, v', dir', w, hrun, hend⟩ := appendWrite_spec hv hf h.mapped
      (direntRecord ino (direntRecLen name.length) ftype name) (by omega) hfits'
    refine ⟨rc, v', dir', by simp only [hrun], ?_⟩
    rcases hend with ⟨rfl, hw, hplaced⟩ | hno
    · left
      refine ⟨rfl, ⟨_, _, _, hw⟩, hplaced, fun hm => ?_⟩
      have htiles : Tiles (direntRecord ino (direntRecLen name.length) ftype name)
          (direntRecLen name.length) 0 [⟨ino, direntRecLen name.length, ftype, name⟩] :=
        ⟨direntAt_direntRecord hr (by omega), h12, hneed, zero_add _⟩
      obtain ⟨hsize, hrep⟩ := h.append (r := ⟨ino, direntRecLen name.length, ftype, name⟩) htiles
        hfits' hw hm
      refine ⟨_, direntRecLen name.length, hrep, ?_⟩
      rw [hsize]
      have hperm := @entries_append recs dir.sizeBytes (direntRecLen name.length)
        ⟨ino, direntRecLen name.length, ftype, name⟩ (by omega) hfits' h.beyond
      rwa [show inUse [⟨ino, direntRecLen name.length, ftype, name⟩] =
        [⟨ino, direntRecLen name.length, ftype, name⟩] by simp [inUse, hr.ino_ne]] at hperm
    · exact .inr hno
  · rw [mul_zero] at hrun
    simp only [hrun]
    obtain ⟨-, hmid, hchunk, hend⟩ := hat.bounds
    have hmapped := h.mapped
    obtain ⟨v', dir', hwrite, hw, hm, hbm, hsb, hlist⟩ := @blkWriteFile_mapped v dir hv hf
      (4096 * j + mid) r.recLen (slotRecord ino (direntRecLen name.length) ftype r.recLen name)
      (by omega)
    simp only [hwrite]
    refine ⟨_, _, _, rfl, .inl ⟨rfl, ⟨_, _, _, hw⟩, .inl ⟨hm, hbm, hsb, hlist⟩, fun _ => ?_⟩⟩
    obtain ⟨hsize, hrep⟩ := h.rewrite hat (slotRecord_tiles hr hpos hle (by omega)) hw hm
    obtain ⟨rest, hold, hnew⟩ := entries_rewrite hat.inside hat.split
    have huse : ∃ len, inUse (slotTiles ino (direntRecLen name.length) ftype r.recLen name) =
        [⟨ino, len, ftype, name⟩] := by
      unfold slotTiles
      split
      · exact ⟨r.recLen, by simp [inUse, hr.ino_ne]⟩
      · exact ⟨direntRecLen name.length, by simp [inUse, hr.ino_ne, Dirent.free]⟩
    obtain ⟨len, huse⟩ := huse
    refine ⟨_, len, hrep, ?_⟩
    rw [hsize]
    refine (hnew _).trans ?_
    rw [huse, singleton_append]
    refine Perm.cons _ (Perm.symm ?_)
    rwa [show inUse [r] = [] by simp [inUse, hfree]] at hold

theorem dirRemoveEntry_spec (hname : name.length ≤ 255) :
    (dirRemoveEntry v dir name = (.enoent, v, dir) ∧
      ∀ r ∈ entries dir.sizeBytes recs, r.name ≠ name) ∨
    ∃ v' dir' recs' r, dirRemoveEntry v dir name = (.eok, v', dir') ∧
      (∃ off n data, Written v dir v' dir' off n data) ∧ v'.innerMerges = v.innerMerges ∧
      v'.bmMem = v.bmMem ∧ v'.sb = v.sb ∧ extentList v' dir' = extentList v dir ∧
      dir'.sizeBytes = dir.sizeBytes ∧ DirRep v' dir' recs' ∧ r.name = name ∧
      (entries dir.sizeBytes recs).Perm (r :: entries dir'.sizeBytes recs') := by
  have hblocks : sizeBlocks dir.sizeBytes ≤ dir.sizeBytes / 4096 + 1 := by
    unfold sizeBlocks
    omega
  unfold dirRemoveEntry
  rw [if_neg (by omega), if_neg (by simp [hk])]
  rcases @removeLoop_spec v dir recs name hv hf h _ 0 _ v.env.heap (zero_add _) hblocks with
    hnone | ⟨j, mid, before, r, after, data, hat, huse, hr, htiles, hrun⟩
  · exact .inl hnone
  right
  rw [mul_zero] at hrun
  obtain ⟨-, -, -, hend⟩ := hat.bounds
  have hmapped := h.mapped
  obtain ⟨v', dir', hwrite, hw, hm, hbm, hsb, hlist⟩ := @blkWriteFile_mapped v dir hv hf
    (4096 * j + mid) r.recLen data (by omega)
  simp only [hwrite] at hrun
  obtain ⟨hsize, hrep⟩ := h.rewrite hat htiles hw hm
  obtain ⟨rest, hold, hnew⟩ := entries_rewrite hat.inside hat.split
  refine ⟨v', dir', _, r, hrun, ⟨_, _, _, hw⟩, hm, hbm, hsb, hlist, hsize, hrep,
    hr, ?_⟩
  rw [hsize]
  refine hold.trans ?_
  rw [show inUse [r] = [r] by simp [inUse, huse], singleton_append]
  refine Perm.cons _ (Perm.symm ?_)
  have hgone := hnew [.free r.recLen]
  rwa [show inUse [Dirent.free r.recLen] = [] by simp [inUse, Dirent.free]] at hgone

end

/-! ### The first two entries -/

theorem direntRecord_beyond {recLen i : Nat} (h : 8 + name.length ≤ i) :
    direntRecord ino recLen ftype name i = 0 := by
  unfold direntRecord
  rw [memcpy_outside (by omega), putLe_outside (by omega), putLe_outside (by omega),
    putLe_outside (by omega), putLe_outside (by omega)]

theorem dotsBlock_tiles (hino : ino ≠ 0) (hino' : ino < 2 ^ 32) (hparent : parent ≠ 0)
    (hparent' : parent < 2 ^ 32) :
    Tiles (dotsBlock ino parent) 4096 0
      [⟨ino, 12, flagDir, dotName⟩, ⟨parent, 4084, flagDir, dotdotName⟩] := by
  have hdot := @direntAt_direntRecord dotName ino 12 flagDir
    ⟨hino, hino', by decide, by decide⟩ (by omega)
  have hdotdot := @direntAt_direntRecord dotdotName parent 4084 flagDir
    ⟨hparent, hparent', by decide, by decide⟩ (by omega)
  have hfirst : ∀ i < 12, dotsBlock ino parent (0 + i) =
      direntRecord ino 12 flagDir dotName (0 + i) := by
    intro i hi
    rw [zero_add, dotsBlock, memcpy_outside (by omega)]
    by_cases hlt : i < 9
    · rw [memcpy_inside (by omega) (by omega), Nat.sub_zero, zero_add]
    · rw [memcpy_outside (by omega), direntRecord_beyond]
      simpa [dotName] using hlt
  have hsecond : ∀ i < 4084, dotsBlock ino parent (12 + i) =
      direntRecord parent 4084 flagDir dotdotName (0 + i) := by
    intro i hi
    rw [zero_add, dotsBlock]
    by_cases hlt : i < 10
    · rw [memcpy_inside (by omega) (by omega), Nat.add_sub_cancel_left, zero_add]
    · rw [memcpy_outside (by omega), memcpy_outside (by omega), direntRecord_beyond]
      simpa [dotdotName] using hlt
  have hlen : 8 + dotName.length ≤ 12 := by decide
  have hlen' : 8 + dotdotName.length ≤ 4084 := by decide
  refine ⟨?_, le_rfl, hlen, ?_, show 12 ≤ 4084 by omega, hlen', rfl⟩
  · rw [direntAt_congr hfirst (by omega) (by rw [hdot]; exact hlen), hdot]
  · rw [zero_add, direntAt_congr hsecond (by omega) (by rw [hdotdot]; exact hlen'), hdotdot]

theorem DirRep.congr (h : DirRep v dir recs) (hsize : dir'.sizeBytes = dir.sizeBytes)
    (hblocks : dataBlocks v' dir' = dataBlocks v dir)
    (hdisk : ∀ b ∈ dataBlocks v dir, v'.disk b = v.disk b) : DirRep v' dir' recs := by
  have hbyte : ∀ p, fileByte v' dir' p = fileByte v dir p := by
    intro p
    rw [fileByte, fileByte, hblocks]
    cases hb : (dataBlocks v dir)[p / 4096]? with
    | none => rfl
    | some b => exact congrFun (hdisk b (mem_of_getElem? hb)) _
  refine ⟨?_, fun k hk => ?_, fun k hk => h.beyond k (by omega)⟩
  · rw [hsize, covered, hblocks]
    exact h.mapped
  · rw [hsize] at hk ⊢
    exact (h.tiles k hk).congr fun i _ _ => hbyte _

def dotsRecs (ino parent : Nat) (k : Nat) : List Dirent :=
  if k = 0 then [⟨ino, 12, flagDir, dotName⟩, ⟨parent, 4084, flagDir, dotdotName⟩] else []

theorem dirInitDots_spec (hv : v.Sound) (hk : ∀ site, v.env.kmalloc site = true)
    (hf : FileInv v dir) (hempty : dataBlocks v dir = []) (hsize : dir.sizeBytes = 0)
    (hino : dir.ino ≠ 0) (hino' : dir.ino < 2 ^ 32) (hparent : parent ≠ 0)
    (hparent' : parent < 2 ^ 32) :
    (∃ v' dir', dirInitDots v dir parent = (.eok, v', {dir' with linksCount := 2, dirty := true}) ∧
      Written v dir v' dir' 0 4096 (dotsBlock dir.ino parent) ∧ v'.innerMerges = v.innerMerges ∧
      dir'.sizeBytes = 4096 ∧ DirRep v' dir' (dotsRecs dir.ino parent) ∧
      Placed v dir v' dir') ∨
    ∃ rc v', dirInitDots v dir parent = (rc, v', dir) ∧ NoRoom v dir rc v' dir := by
  have hcov : covered v dir = 0 := by simp [covered, hempty]
  have hlist : extentList v dir = [] := by
    cases hl : extentList v dir with
    | nil => rfl
    | cons e l =>
      have hpos := (hl ▸ hf.slots).pos e (by simp)
      rw [dataBlocks, hl, blocksOf_cons, append_eq_nil_iff] at hempty
      have := congrArg length hempty.1
      simp only [length_range', length_nil] at this
      omega
  unfold dirInitDots
  rw [if_neg (by simp [hk])]
  rcases @blkWriteFile_next v dir hv hf 4096 (dotsBlock dir.ino parent) (by omega)
    le_rfl with
    ⟨v', dir', start, hrun, hw, hplaced⟩ | ⟨rc, v', hrun, hrc, hg, hm, hwhy⟩
  · left
    rw [hcov] at hrun hw
    have hm := hplaced.2.2.2.2
    rw [hlist] at hm
    have hsize' : dir'.sizeBytes = 4096 := by
      rw [hw.size, hsize]
      rfl
    have hmapped := hw.mapped (by omega)
    refine ⟨v', dir', by rw [hrun], hw, hm, hsize', ⟨by omega, fun k hk' => ?_, fun k hk' => ?_⟩,
      .inr ⟨start, hplaced⟩⟩
    · obtain rfl : k = 0 := by omega
      rw [hsize']
      refine (dotsBlock_tiles hino hino' hparent hparent').congr fun i _ hi => ?_
      rw [blockBytes, mul_zero]
      exact hw.inside hm i hi
    · exact if_neg (by omega)
  · right
    rw [hcov] at hrun
    refine ⟨rc, v', ?_, hrc, rfl, hg, hm, hwhy⟩
    rw [hrun]
    rcases hrc with rfl | rfl <;> rfl

end Kyuzen.Kfs
