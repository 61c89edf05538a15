import Kyuzen.Kfs.Dirent
import Kyuzen.Kfs.Content

/-!
A directory as a file of tiled blocks. The block loops of the source are
searches over the records of the blocks in order, and writing a record changes
the list of one block.
-/

namespace Kyuzen.Kfs

open List Function

variable {j k mid : Nat} {r : Dirent} {tmp : Buf} {after before : List Dirent}

def blockBytes (v : Vol) (dir : InodeMem) (k : Nat) : Buf := fun i => fileByte v dir (4096 * k + i)

/-- `recs k` are the records of block `k`. -/
structure DirRep (v : Vol) (dir : InodeMem) (recs : Nat → List Dirent) : Prop where
  mapped : dir.sizeBytes ≤ covered v dir
  tiles : ∀ k, 4096 * k < dir.sizeBytes →
    Tiles (blockBytes v dir k) (chunkAt dir.sizeBytes (4096 * k)) 0 (recs k)
  beyond : ∀ k, dir.sizeBytes ≤ 4096 * k → recs k = []

def entriesFrom (recs : Nat → List Dirent) (k m : Nat) : List Dirent :=
  (range' k m).flatMap fun j => inUse (recs j)

/-- The records in use of a directory, in the order of `dir_read_index`. -/
def entries (size : Nat) (recs : Nat → List Dirent) : List Dirent :=
  entriesFrom recs 0 (sizeBlocks size)

variable {v v' : Vol} {dir dir' : InodeMem} {recs : Nat → List Dirent} {name : Name}

theorem inUse_append (l l' : List Dirent) : inUse (l ++ l') = inUse l ++ inUse l' :=
  filter_append _ _

theorem entriesFrom_succ (recs : Nat → List Dirent) (k m : Nat) :
    entriesFrom recs k (m + 1) = inUse (recs k) ++ entriesFrom recs (k + 1) m := by
  rw [entriesFrom, range'_succ, flatMap_cons, entriesFrom]

theorem chunkAt_bounds {size : Nat} (h : 4096 * k < size) :
    0 < chunkAt size (4096 * k) ∧ chunkAt size (4096 * k) ≤ 4096 ∧
      4096 * k + chunkAt size (4096 * k) ≤ size := by
  unfold chunkAt
  split <;> omega

/-- The list of one block stands in the entries once. -/
theorem entriesFrom_perm (recs : Nat → List Dirent) {n : Nat} (hj : j < n) :
    ∃ rest, ∀ l, (entriesFrom (update recs j l) 0 n).Perm (inUse l ++ rest) := by
  have hmem : j ∈ range' 0 n := mem_range'_1.mpr (by omega)
  refine ⟨((range' 0 n).erase j).flatMap fun k => inUse (recs k), fun l => ?_⟩
  refine ((perm_cons_erase hmem).flatMap_right _).trans ?_
  rw [flatMap_cons, update_self]
  refine Perm.append_left _ (Perm.of_eq ?_)
  refine flatMap_congr fun k hk => ?_
  rw [update_of_ne]
  rintro rfl
  exact ((Nodup.mem_erase_iff nodup_range').mp hk).1 rfl

theorem entriesFrom_beyond {n : Nat} (h : ∀ k, n ≤ k → recs k = []) (d : Nat) :
    entriesFrom recs 0 (n + d) = entriesFrom recs 0 n := by
  rw [entriesFrom, ← range'_append_1, flatMap_append, entriesFrom]
  have hrest : ((range' (0 + n) d).flatMap fun j => inUse (recs j)) = [] := by
    refine flatMap_eq_nil_iff.mpr fun k hk => ?_
    rw [h k (by simp [mem_range'_1] at hk; omega)]
    rfl
  rw [hrest, append_nil]

/-! ### Reading -/

section
variable (hv : v.Sound)
include hv

theorem DirRep.readBlock (hf : FileInv v dir) (h : DirRep v dir recs)
    (hk : 4096 * k < dir.sizeBytes) (tmp : Buf) :
    ∃ tmp', blkReadFile v dir (4096 * k) tmp (chunkAt dir.sizeBytes (4096 * k)) =
        (.eok, tmp', chunkAt dir.sizeBytes (4096 * k)) ∧
      Tiles tmp' (chunkAt dir.sizeBytes (4096 * k)) 0 (recs k) := by
  obtain ⟨-, -, hend⟩ := chunkAt_bounds hk
  obtain ⟨tmp', hread, hbytes, -⟩ :=
    blkReadFile_spec hv hf (4096 * k) tmp (chunkAt dir.sizeBytes (4096 * k))
  rw [Nat.min_eq_left (by omega)] at hread hbytes
  exact ⟨tmp', hread, (h.tiles k hk).congr fun i _ hi => hbytes i hi⟩

/-- The blocks of a directory one by one, as the loops read them. -/
@[elab_as_elim]
theorem DirRep.blocks_induction (hf : FileInv v dir) (h : DirRep v dir recs)
    {motive : Nat → Nat → Nat → Buf → Prop}
    (stop : ∀ fuel k tmp, ¬ 4096 * k < dir.sizeBytes → motive fuel k 0 tmp)
    (block : ∀ fuel k m tmp tmp', 4096 * k < dir.sizeBytes →
      blkReadFile v dir (4096 * k) tmp (chunkAt dir.sizeBytes (4096 * k)) =
        (.eok, tmp', chunkAt dir.sizeBytes (4096 * k)) →
      Tiles tmp' (chunkAt dir.sizeBytes (4096 * k)) 0 (recs k) →
      motive fuel (k + 1) m tmp' → motive (fuel + 1) k (m + 1) tmp)
    (fuel k m : Nat) (tmp : Buf) (hkm : k + m = sizeBlocks dir.sizeBytes) (hfuel : m ≤ fuel) :
    motive fuel k m tmp := by
  unfold sizeBlocks at hkm
  induction m generalizing fuel k tmp with
  | zero => exact stop fuel k tmp (by omega)
  | succ m ih =>
    obtain ⟨fuel, rfl⟩ := Nat.exists_eq_succ_of_ne_zero (show fuel ≠ 0 by omega)
    have hk : 4096 * k < dir.sizeBytes := by omega
    obtain ⟨tmp', hread, htiles⟩ := h.readBlock hv hf hk tmp
    exact block fuel k m tmp tmp' hk hread htiles (ih fuel (k + 1) tmp' (by omega) (by omega))

theorem lookupLoop_spec (hf : FileInv v dir) (h : DirRep v dir recs) {fuel m : Nat}
    (hkm : k + m = sizeBlocks dir.sizeBytes) (hfuel : m ≤ fuel) :
    lookupLoop v dir name fuel (4096 * k) tmp =
      match (entriesFrom recs k m).find? fun r => r.name = name with
      | some r => .ok (r.ino, r.ftype)
      | none => .error .enoent := by
  refine DirRep.blocks_induction hv hf h (fun fuel k tmp hend => ?_)
    (fun fuel k m tmp tmp' hk hread htiles ih => ?_) fuel k m tmp hkm hfuel
  · cases fuel with
    | zero => rfl
    | succ fuel =>
      rw [lookupLoop, if_neg hend]
      rfl
  rw [lookupLoop, if_pos hk, entriesFrom_succ, find?_append]
  simp only [hread]
  rcases @nameScan_spec name tmp' (recs k) _ (chunkAt dir.sizeBytes (4096 * k)) 0 htiles
    (by omega) with ⟨hscan, hno⟩ |
    ⟨before, r, after, mid, hrecs, huse, hname, hno, -, -, hscan⟩
  · have hnone : (inUse (recs k)).find? (fun r => r.name = name) = none :=
      find?_eq_none.mpr fun r hr => by simpa using hno r hr
    rw [hscan, hnone, Option.none_or, ← ih]
    rfl
  · have hsome : (inUse (recs k)).find? (fun r => r.name = name) = some r := by
      have hnone : (inUse before).find? (fun r => r.name = name) = none :=
        find?_eq_none.mpr fun r hr => by simpa using hno r hr
      rw [hrecs, inUse_append, find?_append, hnone, Option.none_or]
      simp [inUse, huse, hname]
    rw [hscan, hsome]
    rfl

theorem dirLookupEntry_spec (hk : ∀ site, v.env.kmalloc site = true)
    (hf : FileInv v dir) (h : DirRep v dir recs) (hname : name.length ≤ 255) :
    dirLookupEntry v dir name =
      match (entries dir.sizeBytes recs).find? fun r => r.name = name with
      | some r => .ok (r.ino, r.ftype)
      | none => .error .enoent := by
  rw [dirLookupEntry, if_neg (by omega), if_neg (by simp [hk])]
  have hfuel : sizeBlocks dir.sizeBytes ≤ dir.sizeBytes / 4096 + 1 := by
    unfold sizeBlocks
    omega
  exact lookupLoop_spec (k := 0) hv hf h (zero_add _) hfuel

theorem readIndexLoop_spec (hf : FileInv v dir) (h : DirRep v dir recs)
    {fuel m index cap : Nat} (hkm : k + m = sizeBlocks dir.sizeBytes) (hfuel : m ≤ fuel)
    (hcap : 256 ≤ cap) (seen : Nat) (hseen : seen ≤ index) :
    readIndexLoop v dir index cap fuel (4096 * k) tmp seen =
      match (entriesFrom recs k m)[index - seen]? with
      | some r => .ok (r.name, r.ftype)
      | none => .error .enoent := by
  revert seen
  refine DirRep.blocks_induction hv hf h (fun fuel k tmp hend seen hseen => ?_)
    (fun fuel k m tmp tmp' hk hread htiles ih seen hseen => ?_) fuel k m tmp hkm hfuel
  · cases fuel with
    | zero => rfl
    | succ fuel =>
      rw [readIndexLoop, if_neg hend]
      rfl
  rw [readIndexLoop, if_pos hk, entriesFrom_succ]
  simp only [hread]
  rw [@indexScan_spec tmp' (recs k) _ index cap _ 0 seen htiles (by omega) hseen hcap]
  by_cases hin : index - seen < (inUse (recs k)).length
  · rw [getElem?_append_left hin, getElem?_eq_getElem hin]
  · rw [getElem?_append_right (by omega), getElem?_eq_none (by omega)]
    dsimp only
    rw [show 4096 * k + 4096 = 4096 * (k + 1) by omega, ih _ (by omega), Nat.sub_sub]

theorem dirReadIndex_spec (hk : ∀ site, v.env.kmalloc site = true)
    (hf : FileInv v dir) (h : DirRep v dir recs) (index : Nat) {cap : Nat} (hcap : 256 ≤ cap) :
    dirReadIndex v dir index cap = match (entries dir.sizeBytes recs)[index]? with
      | some r => .ok (r.name, r.ftype)
      | none => .error .enoent := by
  rw [dirReadIndex, if_neg (by simp [hk])]
  have hfuel : sizeBlocks dir.sizeBytes ≤ dir.sizeBytes / 4096 + 1 := by
    unfold sizeBlocks
    omega
  exact readIndexLoop_spec (k := 0) hv hf h (zero_add _) hfuel hcap 0 (Nat.zero_le _)

end

/-! ### Finding the place of a write -/

/-- The record `r` of block `j`, which starts at byte `mid`. -/
structure RecordAt (v : Vol) (dir : InodeMem) (recs : Nat → List Dirent) (j mid : Nat)
    (before : List Dirent) (r : Dirent) (after : List Dirent) : Prop where
  inside : 4096 * j < dir.sizeBytes
  split : recs j = before ++ r :: after
  front : Tiles (blockBytes v dir j) mid 0 before
  rest : Tiles (blockBytes v dir j) (chunkAt dir.sizeBytes (4096 * j)) mid (r :: after)

theorem DirRep.recordAt (h : DirRep v dir recs) (hk : 4096 * k < dir.sizeBytes)
    (hrecs : recs k = before ++ r :: after) (hfront : Tiles tmp mid 0 before) :
    RecordAt v dir recs k mid before r after := by
  have htiles := h.tiles k hk
  rw [hrecs] at htiles
  obtain ⟨mid', hfront', hrest'⟩ := htiles.split
  -- both tilings have the same records, so they break at the same byte
  have hmid : ∀ {b b' : Buf} {pos stop stop' : Nat} {rs : List Dirent},
      Tiles b stop pos rs → Tiles b' stop' pos rs → stop = stop' := by
    intro b b' pos stop stop' rs hb hb'
    induction rs generalizing pos with
    | nil => exact hb.symm.trans hb'
    | cons r rs ih => exact ih hb.2.2.2 hb'.2.2.2
  obtain rfl := hmid hfront hfront'
  exact ⟨hk, hrecs, hfront', hrest'⟩

theorem removeLoop_spec (hv : v.Sound) (hf : FileInv v dir) (h : DirRep v dir recs)
    {fuel k m : Nat} {tmp : Buf} (hkm : k + m = sizeBlocks dir.sizeBytes) (hfuel : m ≤ fuel) :
    (removeLoop v dir name fuel (4096 * k) tmp = (.enoent, v, dir) ∧
      ∀ r ∈ entriesFrom recs k m, r.name ≠ name) ∨
    ∃ j mid before r after data, RecordAt v dir recs j mid before r after ∧ r.ino ≠ 0 ∧
      r.name = name ∧ Tiles data r.recLen 0 [.free r.recLen] ∧
      removeLoop v dir name fuel (4096 * k) tmp =
        ((blkWriteFile v dir (4096 * j + mid) data r.recLen).1,
          (blkWriteFile v dir (4096 * j + mid) data r.recLen).2.1,
          (blkWriteFile v dir (4096 * j + mid) data r.recLen).2.2.1) := by
  refine DirRep.blocks_induction hv hf h (fun fuel k tmp hend => ?_)
    (fun fuel k m tmp tmp' hk hread htiles ih => ?_) fuel k m tmp hkm hfuel
  · left
    refine ⟨?_, by simp [entriesFrom]⟩
    cases fuel with
    | zero => rfl
    | succ fuel => rw [removeLoop, if_neg hend]
  rw [removeLoop, if_pos hk, entriesFrom_succ]
  simp only [hread]
  rcases @nameScan_spec name tmp' (recs k) _ (chunkAt dir.sizeBytes (4096 * k)) 0 htiles
    (by omega) with ⟨hscan, hno⟩ |
    ⟨before, r, after, mid, hrecs, huse, hname, -, hfront, hrest, hscan⟩
  · rw [hscan]
    rw [show 4096 * k + 4096 = 4096 * (k + 1) by omega]
    rcases ih with ⟨hnone, hno'⟩ | hfound
    · left
      refine ⟨hnone, fun r hr => ?_⟩
      rcases mem_append.mp hr with hr | hr
      · exact hno r hr
      · exact hno' r hr
    · exact .inr hfound
  · right
    rw [hscan]
    have hlt : r.recLen < 2 ^ 16 := by
      rw [← hrest.1, direntAt_recLen]
      exact getLe_lt _ _ 2
    exact ⟨k, mid, before, r, after, _, h.recordAt hk hrecs hfront, huse, hname,
      removed_tiles hrest.2.1 hlt, rfl⟩

theorem addLoop_spec (hv : v.Sound) (hkm : ∀ site, v.env.kmalloc site = true)
    (hf : FileInv v dir) (h : DirRep v dir recs) {fuel k m ino ftype : Nat} {tmp : Buf}
    (hblocks : k + m = sizeBlocks dir.sizeBytes) (hfuel : m ≤ fuel) :
    (addLoop v dir name ino ftype fuel (4096 * k) tmp = none ∧
      ∀ j, k ≤ j → j < k + m → ∀ r ∈ recs j, ¬ (r.ino = 0 ∧ direntRecLen name.length ≤ r.recLen)) ∨
    ∃ j mid before r after, RecordAt v dir recs j mid before r after ∧ r.ino = 0 ∧
      direntRecLen name.length ≤ r.recLen ∧
      addLoop v dir name ino ftype fuel (4096 * k) tmp = some ((blkWriteFile v dir (4096 * j + mid)
            (slotRecord ino (direntRecLen name.length) ftype r.recLen name) r.recLen).1,
          (blkWriteFile v dir (4096 * j + mid)
            (slotRecord ino (direntRecLen name.length) ftype r.recLen name) r.recLen).2.1,
          (blkWriteFile v dir (4096 * j + mid)
            (slotRecord ino (direntRecLen name.length) ftype r.recLen name) r.recLen).2.2.1) := by
  refine DirRep.blocks_induction hv hf h (fun fuel k tmp hend => ?_)
    (fun fuel k m tmp tmp' hk hread htiles ih => ?_) fuel k m tmp hblocks hfuel
  · left
    refine ⟨?_, fun j hj hj' => by omega⟩
    cases fuel with
    | zero => rfl
    | succ fuel => rw [addLoop, if_neg hend]
  rw [addLoop, if_pos hk]
  simp only [hread, ne_eq, not_true_eq_false, if_false]
  rcases @addScan_spec tmp' (recs k) _ (direntRecLen name.length)
    (chunkAt dir.sizeBytes (4096 * k)) 0 htiles (by omega) with ⟨hscan, hno⟩ |
    ⟨before, r, after, mid, hrecs, hfree, hneed, hfront, -, hscan⟩
  · rw [hscan]
    rw [show 4096 * k + 4096 = 4096 * (k + 1) by omega]
    rcases ih with ⟨hnone, hno'⟩ | hfound
    · left
      refine ⟨hnone, fun j hj hj' r hr => ?_⟩
      by_cases hjk : j = k
      · subst hjk
        exact hno r hr
      · exact hno' j (by omega) (by omega) r hr
    · exact .inr hfound
  · right
    rw [hscan]
    refine ⟨k, mid, before, r, after, h.recordAt hk hrecs hfront, hfree, hneed, ?_⟩
    simp [hkm]

/-! ### Writing -/

theorem RecordAt.bounds (h : RecordAt v dir recs j mid before r after) :
    12 ≤ r.recLen ∧ mid + r.recLen ≤ chunkAt dir.sizeBytes (4096 * j) ∧
      chunkAt dir.sizeBytes (4096 * j) ≤ 4096 ∧
      4096 * j + mid + r.recLen ≤ dir.sizeBytes := by
  obtain ⟨-, hchunk, hend⟩ := chunkAt_bounds h.inside
  have hle := h.rest.2.2.2.le
  have hrec := h.rest.2.1
  refine ⟨hrec, hle, hchunk, by omega⟩

/-- The bytes of a record are replaced by other records. -/
theorem DirRep.rewrite (h : DirRep v dir recs) {new : List Dirent} {data : Buf}
    (hat : RecordAt v dir recs j mid before r after) (hnew : Tiles data r.recLen 0 new)
    (hw : Written v dir v' dir' (4096 * j + mid) r.recLen data)
    (hm : v'.innerMerges = v.innerMerges) :
    dir'.sizeBytes = dir.sizeBytes ∧
      DirRep v' dir' (update recs j (before ++ new ++ after)) := by
  obtain ⟨hrec, hmid, hchunk, hend⟩ := hat.bounds
  have hmapped := h.mapped
  have hsize : dir'.sizeBytes = dir.sizeBytes := by
    rw [hw.size, if_neg (by omega)]
    omega
  refine ⟨hsize, ?_, fun k hk => ?_, fun k hk => ?_⟩
  · rw [hsize]
    exact hmapped.trans hw.grows
  · rw [hsize] at hk ⊢
    obtain ⟨-, hchunk', hend'⟩ := chunkAt_bounds hk
    by_cases hkj : k = j
    · subst hkj
      rw [update_self]
      refine Tiles.congr (b := fun i => if i < chunkAt dir.sizeBytes (4096 * k) then
        blockBytes v' dir' k i else blockBytes v dir k i) ?_ fun i _ hi => (if_pos hi).symm
      refine Tiles.replace hat.front hat.rest rfl hnew (fun i hi => ?_) fun i hi => ?_
      · rw [if_pos (by omega), blockBytes, ← add_assoc, hw.inside hm i hi]
      · by_cases hlt : i < chunkAt dir.sizeBytes (4096 * k)
        · rw [if_pos hlt]
          exact hw.outside hm _ (by omega) (by omega)
        · rw [if_neg hlt]
    · rw [update_of_ne hkj]
      refine (h.tiles k hk).congr fun i _ hi => ?_
      refine hw.outside hm _ (by omega) ?_
      rcases Nat.lt_or_gt_of_ne hkj with hlt | hlt <;> omega
  · rw [hsize] at hk
    rw [update_of_ne, h.beyond k hk]
    rintro rfl
    exact absurd hat.inside (by omega)

theorem DirRep.append (h : DirRep v dir recs) {data : Buf} (hnew : Tiles data r.recLen 0 [r])
    (hfits : dir.sizeBytes % 4096 + r.recLen ≤ 4096)
    (hw : Written v dir v' dir' dir.sizeBytes r.recLen data) (hm : v'.innerMerges = v.innerMerges) :
    dir'.sizeBytes = dir.sizeBytes + r.recLen ∧ DirRep v' dir' (update recs (dir.sizeBytes / 4096)
        (recs (dir.sizeBytes / 4096) ++ [r])) := by
  have hrec : 12 ≤ r.recLen := hnew.2.1
  have hmapped := h.mapped
  have hsize : dir'.sizeBytes = dir.sizeBytes + r.recLen := by
    rw [hw.size, if_neg (by omega)]
    omega
  have hold : ∀ p < dir.sizeBytes, fileByte v' dir' p = fileByte v dir p :=
    fun p hp => hw.outside hm p (by omega) (by omega)
  refine ⟨hsize, ?_, fun k hk => ?_, fun k hk => ?_⟩
  · rw [hsize]
    exact hw.mapped (by omega)
  · rw [hsize] at hk ⊢
    by_cases hkj : k = dir.sizeBytes / 4096
    · subst hkj
      have hchunk : chunkAt (dir.sizeBytes + r.recLen) (4096 * (dir.sizeBytes / 4096)) =
          dir.sizeBytes % 4096 + r.recLen := by
        unfold chunkAt
        split <;> omega
      have hfront : Tiles (blockBytes v' dir' (dir.sizeBytes / 4096)) (dir.sizeBytes % 4096) 0
          (recs (dir.sizeBytes / 4096)) := by
        by_cases hfull : dir.sizeBytes % 4096 = 0
        · rw [h.beyond _ (by omega), hfull]
          rfl
        · have htiles := h.tiles (dir.sizeBytes / 4096) (by omega)
          rw [show chunkAt dir.sizeBytes (4096 * (dir.sizeBytes / 4096)) = dir.sizeBytes % 4096 by
            unfold chunkAt; split <;> omega] at htiles
          exact htiles.congr fun i _ hi => hold _ (by omega)
      have hlast : Tiles (blockBytes v' dir' (dir.sizeBytes / 4096))
          (dir.sizeBytes % 4096 + r.recLen) (dir.sizeBytes % 4096) [r] := by
        have hshift := @Tiles.shift data (blockBytes v' dir' (dir.sizeBytes / 4096)) r.recLen 0 [r]
          (dir.sizeBytes % 4096) hnew fun i hi => by
            rw [zero_add] at hi ⊢
            rw [blockBytes, ← add_assoc, Nat.div_add_mod, hw.inside hm i hi]
        exact hshift
      rw [update_self, hchunk]
      exact hfront.append hlast
    · rw [update_of_ne hkj]
      have htiles := h.tiles k (by omega)
      rw [show chunkAt dir.sizeBytes (4096 * k) = chunkAt (dir.sizeBytes + r.recLen) (4096 * k) by
        unfold chunkAt; split <;> split <;> omega] at htiles
      refine htiles.congr fun i _ hi => hold _ ?_
      have := (chunkAt_bounds hk).2.1
      omega
  · rw [hsize] at hk
    rw [update_of_ne (by omega), h.beyond k (by omega)]

end Kyuzen.Kfs
