import Kyuzen.Base.Run
import Kyuzen.Kfs.DirOps
import Kyuzen.Kfs.Mapping

/-!
A directory that `dir_init_dots` made refines a finite map from names to inode
numbers and types, over every sequence of additions and removals in which no
record is appended across the end of a block.
-/

namespace Kyuzen.Kfs

open Function List

variable {parent : Nat}

/-! ### Entries as a map -/

/-- What a directory is for: the inode number and the type of each name in it. -/
abbrev NameMap := Name → Option (Nat × Nat)

/-- The entries of a directory, one for each name of the map. -/
structure Represents (l : List Dirent) (m : NameMap) : Prop where
  nodup : (l.map (·.name)).Nodup
  mem : ∀ name p, m name = some p ↔ ∃ r ∈ l, r.name = name ∧ (r.ino, r.ftype) = p

namespace Represents

variable {l l' : List Dirent} {m : NameMap} {r : Dirent} {name : Name}

theorem perm (h : Represents l m) (hperm : l'.Perm l) : Represents l' m where
  nodup := ((hperm.map _).nodup_iff).mpr h.nodup
  mem name p := by
    rw [h.mem]
    simp only [hperm.mem_iff]

theorem eq_none_iff (h : Represents l m) : m name = none ↔ ∀ r ∈ l, r.name ≠ name := by
  rw [Option.eq_none_iff_forall_ne_some]
  constructor
  · intro hnone r hr heq
    exact hnone (r.ino, r.ftype) ((h.mem _ _).mpr ⟨r, hr, heq, rfl⟩)
  · intro hno p hp
    obtain ⟨r, hr, heq, -⟩ := (h.mem _ _).mp hp
    exact hno r hr heq

theorem cons (h : Represents l m) (hr : m r.name = none) :
    Represents (r :: l) (update m r.name (some (r.ino, r.ftype))) where
  nodup := by
    rw [map_cons, nodup_cons]
    refine ⟨fun hmem => ?_, h.nodup⟩
    obtain ⟨r', hr', heq⟩ := mem_map.mp hmem
    exact h.eq_none_iff.mp hr r' hr' heq
  mem name p := by
    by_cases hname : name = r.name
    · subst hname
      have hno := h.eq_none_iff.mp hr
      rw [update_self, Option.some_inj]
      constructor
      · rintro rfl
        exact ⟨r, (.head _), rfl, rfl⟩
      · rintro ⟨r', hr', heq, rfl⟩
        rcases mem_cons.mp hr' with rfl | hr'
        · rfl
        · exact absurd heq (hno r' hr')
    · simp [update_of_ne hname, h.mem, Ne.symm hname]

theorem tail (h : Represents (r :: l) m) : Represents l (update m r.name none) where
  nodup := (nodup_cons.mp h.nodup).2
  mem name p := by
    have hnotMem := (nodup_cons.mp h.nodup).1
    by_cases hname : name = r.name
    · subst hname
      rw [update_self]
      constructor
      · exact nofun
      · rintro ⟨r', hr', heq, -⟩
        exact absurd (mem_map.mpr ⟨r', hr', heq⟩) hnotMem
    · simp [update_of_ne hname, h.mem, Ne.symm hname]

theorem find (h : Represents l m) (name : Name) :
    (l.find? fun r => r.name = name).map (fun r => (r.ino, r.ftype)) = m name := by
  cases hfind : l.find? fun r => r.name = name with
  | none =>
    have hno := find?_eq_none.mp hfind
    exact (h.eq_none_iff.mpr fun r hr => by simpa using hno r hr).symm
  | some r =>
    have hname : r.name = name := by simpa using find?_some hfind
    exact ((h.mem _ _).mpr ⟨r, mem_of_find?_eq_some hfind, hname, rfl⟩).symm

end Represents

/-! ### Blocks in order -/

/-- The data blocks stand in the order of their numbers and below every free
block. No new block then touches an extent but the last one. -/
structure Ordered (v : Vol) (dir : InodeMem) : Prop where
  sorted : (dataBlocks v dir).Pairwise (· < ·)
  below : ∀ d ∈ dataBlocks v dir, ∀ b, v.IsFree b → d < b

theorem mergesInside_eq_false {l : List Extent} {start : Nat} (hpos : ∀ e ∈ l, 0 < e.blockCount)
    (hsorted : (blocksOf l).Pairwise (· < ·)) (hbelow : ∀ d ∈ blocksOf l, d < start) :
    mergesInside l start = false := by
  induction l with
  | nil => rfl
  | cons e l ih =>
    rw [blocksOf_cons, pairwise_append] at hsorted
    obtain ⟨-, hrest, hcross⟩ := hsorted
    rw [mergesInside]
    by_cases hstop : e.stop = start
    · cases l with
      | nil => rw [if_pos hstop, isEmpty_nil, Bool.not_true]
      | cons e' l =>
        have hfirst := hpos e (by simp)
        have hsecond := hpos e' (by simp)
        have hlast : e.stop - 1 ∈ range' e.startBlock e.blockCount := by
          rw [mem_range'_1, Extent.stop]
          omega
        have hnext : e'.startBlock ∈ blocksOf (e' :: l) :=
          mem_blocksOf.mpr ⟨e', by simp, le_rfl, by rw [Extent.stop]; omega⟩
        have hlt := hcross _ hlast _ hnext
        have hlt' := hbelow _ (by rw [blocksOf_cons]; exact mem_append_right _ hnext)
        omega
    · rw [if_neg hstop]
      refine ih (fun e' he' => hpos e' (.tail _ he')) hrest fun d hd => ?_
      exact hbelow d (by rw [blocksOf_cons]; exact mem_append_right _ hd)

/-- Placing a record keeps the order, and merges nothing inside. -/
theorem Ordered.placed {v v' : Vol} {dir dir' : InodeMem} {off n : Nat} {data : Buf}
    (h : Ordered v dir) (hf : FileInv v dir) (hw : Written v dir v' dir' off n data)
    (hplaced : Placed v dir v' dir') :
    v'.innerMerges = v.innerMerges ∧ Ordered v' dir' := by
  rcases hplaced with ⟨hm, hbm, hsb, hlist⟩ | ⟨start, hperm, hfree, hlow, hsub, hm⟩
  · refine ⟨hm, ?_⟩
    have hblocks : dataBlocks v' dir' = dataBlocks v dir := by rw [dataBlocks, hlist, dataBlocks]
    have hsame : ∀ b, v'.IsFree b → v.IsFree b := by
      intro b hb
      unfold Vol.IsFree at hb ⊢
      rwa [hbm, hsb, hw.effect.shape.dataStart] at hb
    refine ⟨by rw [hblocks]; exact h.sorted, fun d hd b hb => ?_⟩
    rw [hblocks] at hd
    exact h.below d hd b (hsame b hb)
  have hinner : mergesInside (extentList v dir) start = false :=
    mergesInside_eq_false hf.slots.pos h.sorted fun d hd => h.below d hd start hfree
  rw [hinner] at hm
  have hblocks : dataBlocks v' dir' = dataBlocks v dir ++ [start] := by
    obtain ⟨rest, hrest⟩ := hw.order hm
    rw [← hrest, perm_append_left_iff, perm_singleton] at hperm
    rw [← hrest, hperm]
  refine ⟨hm, ?_, fun d hd b hb => ?_⟩
  · rw [hblocks, pairwise_append]
    refine ⟨h.sorted, pairwise_singleton _ _, fun d hd b hb => ?_⟩
    rw [mem_singleton.mp hb]
    exact h.below d hd start hfree
  rw [hblocks] at hd
  rcases mem_append.mp hd with hd | hd
  · exact h.below d hd b (hsub b hb)
  rw [mem_singleton.mp hd]
  refine lt_of_le_of_ne (hlow b (hsub b hb)) ?_
  rintro rfl
  refine hb.not_set ((hw.effect.bits start).mpr (Or.inr (mem_inodeBlocks.mpr (Or.inl ?_))))
  rw [hblocks]
  exact mem_append_right _ (by simp)

/-! ### Runs -/

structure DirState where
  vol : Vol
  dir : InodeMem
  map : NameMap

inductive DirOp where
  | add (name : Name) (ino ftype : Nat)
  | remove (name : Name)

def DirOp.call (v : Vol) (dir : InodeMem) : DirOp → Rc × Vol × InodeMem
  | .add name ino ftype => dirAddEntry v dir name ino ftype
  | .remove name => dirRemoveEntry v dir name

def DirOp.apply (m : NameMap) : DirOp → NameMap
  | .add name ino ftype => update m name (some (ino, ftype))
  | .remove name => update m name none

/-- A call succeeds, unless it removes a name that is not there. -/
def DirOp.result (m : NameMap) : DirOp → Rc
  | .add _ _ _ => .eok
  | .remove name => if m name = none then .enoent else .eok

/-- Blocks for a record and for a first indirect block, and an extent slot. -/
def HasRoom (v : Vol) (dir : InodeMem) : Prop :=
  (∃ b b', v.IsFree b ∧ v.IsFree b' ∧ b ≠ b') ∧ (extentList v dir).length < 345

/-- The calls of a run. An addition that finds no free record must fit behind
the last record of its block. -/
def DirOp.Allowed (s : DirState) : DirOp → Prop
  | .add name ino ftype =>
    s.map name = none ∧ 0 < name.length ∧ Recordable ino ftype name ∧ HasRoom s.vol s.dir ∧
      AppendFits s.vol s.dir name ino ftype
  | .remove name => name.length ≤ 255 ∧ name ≠ dotName ∧ name ≠ dotdotName

def DirStep (s : DirState) (op : DirOp) (s' : DirState) : Prop :=
  op.Allowed s ∧ (∃ rc, op.call s.vol s.dir = (rc, s'.vol, s'.dir)) ∧ s'.map = op.apply s.map

/-- The directory shows the map, which has "." and "..". -/
structure DirShows (ino parent : Nat) (s : DirState) : Prop where
  sound : s.vol.Sound
  kmalloc : ∀ site, s.vol.env.kmalloc site = true
  inv : FileInv s.vol s.dir
  ordered : Ordered s.vol s.dir
  rep : ∃ recs, DirRep s.vol s.dir recs ∧ Represents (entries s.dir.sizeBytes recs) s.map
  dot : s.map dotName = some (ino, flagDir)
  dotdot : s.map dotdotName = some (parent, flagDir)

/-- One call: its result, and the map after it. -/
theorem DirShows.call {ino : Nat} {s : DirState} {op : DirOp} (h : DirShows ino parent s)
    (hop : op.Allowed s) :
    ∃ v' dir', op.call s.vol s.dir = (op.result s.map, v', dir') ∧
      DirShows ino parent ⟨v', dir', op.apply s.map⟩ := by
  obtain ⟨recs, hrep, hmap⟩ := h.rep
  cases op with
  | add name i t =>
    obtain ⟨hnew, hpos, hr, ⟨⟨b, b', hb, hb', hne⟩, hlen⟩, hfits⟩ := hop
    have hkeep : ∀ other p, s.map other = some p →
        update s.map name (some (i, t)) other = s.map other := by
      rintro other p hother
      refine update_of_ne ?_ _ _
      rintro rfl
      exact nomatch hnew.symm.trans hother
    obtain ⟨rc, v', dir', hrun, hend⟩ := dirAddEntry_spec h.sound h.kmalloc h.inv hrep hr hpos hfits
    rcases hend with ⟨rfl, ⟨off, n, data, hw⟩, hplaced, hrecs⟩ | hno
    · obtain ⟨hm, hordered⟩ := h.ordered.placed h.inv hw hplaced
      obtain ⟨recs', len, hrecorded, hperm⟩ := hrecs hm
      refine ⟨v', dir', hrun, hw.effect.shape.sound h.sound, ?_, hw.effect.inv, hordered,
        ⟨recs', hrecorded, (hmap.cons (r := ⟨i, len, t, name⟩) hnew).perm hperm⟩,
        (hkeep _ _ h.dot).trans h.dot, (hkeep _ _ h.dotdot).trans h.dotdot⟩
      rw [hw.effect.shape.env]
      exact h.kmalloc
    · rcases hno.why with hfull | ⟨hone, -⟩
      · omega
      · exact absurd (hone b b' hb hb') hne
  | remove name =>
    obtain ⟨hlen, hdot⟩ := hop
    have hdots : update s.map name none dotName = some (ino, flagDir) ∧
        update s.map name none dotdotName = some (parent, flagDir) := by
      rw [update_of_ne hdot.1.symm, update_of_ne hdot.2.symm]
      exact ⟨h.dot, h.dotdot⟩
    rcases dirRemoveEntry_spec h.sound h.kmalloc h.inv hrep hlen with ⟨hrun, hno⟩ |
      ⟨v', dir', recs', r, hrun, ⟨off, n, data, hw⟩, hm, hbm, hsb, hlist, -, hrecorded, rfl, hperm⟩
    · have hnone : s.map name = none := hmap.eq_none_iff.mpr hno
      refine ⟨s.vol, s.dir, by rw [DirOp.call, hrun, DirOp.result, if_pos hnone], ?_⟩
      rw [DirOp.apply, ← hnone, update_eq_self]
      exact h
    · have hsome : s.map r.name ≠ none := fun hnone =>
        hmap.eq_none_iff.mp hnone r (hperm.mem_iff.mpr (.head _)) rfl
      obtain ⟨-, hordered⟩ := h.ordered.placed h.inv hw (Or.inl ⟨hm, hbm, hsb, hlist⟩)
      refine ⟨v', dir', by rw [DirOp.call, hrun, DirOp.result, if_neg hsome],
        hw.effect.shape.sound h.sound, ?_, hw.effect.inv, hordered,
        ⟨recs', hrecorded, (hmap.perm hperm.symm).tail⟩, hdots.1, hdots.2⟩
      rw [hw.effect.shape.env]
      exact h.kmalloc

theorem DirShows.step {ino : Nat} {s s' : DirState} {op : DirOp} (h : DirShows ino parent s)
    (hstep : DirStep s op s') : DirShows ino parent s' := by
  obtain ⟨hop, ⟨rc, hrun⟩, hmap⟩ := hstep
  obtain ⟨v', dir', hrun', hshows⟩ := h.call hop
  obtain ⟨-, hvol⟩ := Prod.mk.inj (hrun.symm.trans hrun')
  obtain ⟨hv, hdir⟩ := Prod.mk.inj hvol
  rw [← hv, ← hdir, ← hmap] at hshows
  exact hshows

def NameMap.dots (ino parent : Nat) : NameMap := fun name =>
  if name = dotName then some (ino, flagDir)
  else if name = dotdotName then some (parent, flagDir)
  else none

open NameMap

theorem DirShows.init {v v₀ : Vol} {dir dir₀ : InodeMem} (hv : v.Sound)
    (hk : ∀ site, v.env.kmalloc site = true) (hf : FileInv v dir) (hempty : dataBlocks v dir = [])
    (hsize : dir.sizeBytes = 0) (hino : dir.ino ≠ 0) (hino' : dir.ino < 2 ^ 32)
    (hparent : parent ≠ 0) (hparent' : parent < 2 ^ 32)
    (hinit : dirInitDots v dir parent = (.eok, v₀, dir₀)) :
    DirShows dir.ino parent ⟨v₀, dir₀, dots dir.ino parent⟩ := by
  rcases dirInitDots_spec hv hk hf hempty hsize hino hino' hparent hparent' with
    ⟨v', dir', hrun, hw, hm, hsize', hrep, hplaced⟩ | ⟨rc, v', hrun, hno⟩
  · obtain ⟨-, hvol⟩ := Prod.mk.inj (hinit.symm.trans hrun)
    cases hvol
    have hordered : Ordered v dir := ⟨by simp [hempty], by simp [hempty]⟩
    obtain ⟨-, hordered'⟩ := hordered.placed hf hw hplaced
    -- the link count and the dirty flag are nothing that the blocks depend on
    obtain ⟨hinv, hlist, -⟩ := @FileInv.congr v₀ v₀ dir'
      {dir' with linksCount := 2, dirty := true} hw.effect.inv
      (fun m _ => slotAt_congr rfl rfl (fun _ _ => rfl) m) rfl rfl hw.effect.inv.isUsed
    have hblocks : dataBlocks v₀ {dir' with linksCount := 2, dirty := true} =
        dataBlocks v₀ dir' := by rw [dataBlocks, hlist, dataBlocks]
    refine ⟨hw.effect.shape.sound hv, ?_, hinv, ⟨?_, ?_⟩,
      ⟨_, hrep.congr rfl hblocks fun _ _ => rfl, ?_⟩, rfl, rfl⟩
    · rw [hw.effect.shape.env]
      exact hk
    · rw [hblocks]
      exact hordered'.sorted
    · rw [hblocks]
      exact hordered'.below
    · have hentries : entries dir'.sizeBytes (dotsRecs dir.ino parent) =
          [⟨dir.ino, 12, flagDir, dotName⟩, ⟨parent, 4084, flagDir, dotdotName⟩] := by
        rw [hsize']
        simp [entries, entriesFrom, sizeBlocks, dotsRecs, inUse, hino, hparent]
      rw [hentries]
      refine ⟨by simp [dotName, dotdotName], fun name p => ?_⟩
      by_cases hdot : name = dotName
      · subst hdot
        simp [dots, dotName, dotdotName]
      · by_cases hdotdot : name = dotdotName
        · subst hdotdot
          simp [dots, dotName, dotdotName]
        · simp [dots, hdot, hdotdot, Ne.symm hdot, Ne.symm hdotdot]
  · cases hinit.symm.trans hrun
    rcases hno.full with hrc | hrc <;> cases hrc

/-- In every state of a run, each allowed call returns what the map says,
`dir_lookup_entry` is the map, and `dir_read_index` enumerates each name of the
map exactly once, "." and ".." among them. -/
theorem dir_refines_map {v v₀ : Vol} {dir dir₀ : InodeMem} {parent : Nat} {ops : List DirOp}
    {s : DirState} (hv : v.Sound) (hk : ∀ site, v.env.kmalloc site = true) (hf : FileInv v dir)
    (hempty : dataBlocks v dir = []) (hsize : dir.sizeBytes = 0) (hino : dir.ino ≠ 0)
    (hino' : dir.ino < 2 ^ 32) (hparent : parent ≠ 0) (hparent' : parent < 2 ^ 32)
    (hinit : dirInitDots v dir parent = (.eok, v₀, dir₀))
    (hrun : Run DirStep ⟨v₀, dir₀, NameMap.dots dir.ino parent⟩ ops s) :
    (∀ op : DirOp, op.Allowed s → (op.call s.vol s.dir).1 = op.result s.map) ∧
    (∀ name : Name, name.length ≤ 255 → dirLookupEntry s.vol s.dir name = match s.map name with
      | some p => .ok p
      | none => .error .enoent) ∧
    s.map dotName = some (dir.ino, flagDir) ∧ s.map dotdotName = some (parent, flagDir) ∧
    ∃ l : List (Name × Nat), (l.map Prod.fst).Nodup ∧
      (∀ name ftype, (name, ftype) ∈ l ↔ ∃ i, s.map name = some (i, ftype)) ∧
      ∀ index cap, 256 ≤ cap → dirReadIndex s.vol s.dir index cap = match l[index]? with
        | some r => .ok r
        | none => .error .enoent := by
  have hshows : DirShows dir.ino parent s :=
    hrun.invariant (I := DirShows dir.ino parent) (fun _ _ _ h hstep => h.step hstep)
      (DirShows.init hv hk hf hempty hsize hino hino' hparent hparent' hinit)
  obtain ⟨recs, hrep, hmap⟩ := hshows.rep
  refine ⟨fun op hop => ?_, fun name hname => ?_, hshows.dot, hshows.dotdot,
    (entries s.dir.sizeBytes recs).map fun r => (r.name, r.ftype), ?_, fun name ftype => ?_,
    fun index cap hcap => ?_⟩
  · obtain ⟨v', dir', hcall, -⟩ := hshows.call hop
    rw [hcall]
  · rw [dirLookupEntry_spec hshows.sound hshows.kmalloc hshows.inv hrep hname, ← hmap.find name]
    cases (entries s.dir.sizeBytes recs).find? fun r => r.name = name with
    | none => rfl
    | some r => rfl
  · rw [map_map]
    exact hmap.nodup
  · rw [mem_map]
    constructor
    · rintro ⟨r, hr, heq⟩
      cases heq
      exact ⟨r.ino, (hmap.mem _ _).mpr ⟨r, hr, rfl, rfl⟩⟩
    · rintro ⟨i, hi⟩
      obtain ⟨r, hr, rfl, heq⟩ := (hmap.mem _ _).mp hi
      cases heq
      exact ⟨r, hr, rfl⟩
  · rw [dirReadIndex_spec hshows.sound hshows.kmalloc hshows.inv hrep index hcap,
      getElem?_map]
    cases (entries s.dir.sizeBytes recs)[index]? with
    | none => rfl
    | some r => rfl

/-! ### A directory on the small volume -/

def emptyDir : InodeMem := ⟨2, flagDir, 1, 0, 0, fun _ => ⟨0, 0⟩, 0, false, 1⟩

def dotsOnly : Rc × Vol × InodeMem := dirInitDots smallVol emptyDir 1
def oneName : Rc × Vol × InodeMem := dirAddEntry dotsOnly.2.1 dotsOnly.2.2 [97] 3 flagFile

theorem dir_refines_map_oneName : dirLookupEntry oneName.2.1 oneName.2.2 [97] = .ok (3, flagFile) ∧
      dirLookupEntry oneName.2.1 oneName.2.2 [98] = .error .enoent := by
  have hroom : HasRoom dotsOnly.2.1 dotsOnly.2.2 :=
    ⟨⟨5, 6, by unfold Vol.IsFree; decide +kernel, by unfold Vol.IsFree; decide +kernel, by decide⟩,
      by decide +kernel⟩
  have hstep : DirStep ⟨dotsOnly.2.1, dotsOnly.2.2, dots emptyDir.ino 1⟩
      (.add [97] 3 flagFile)
      ⟨oneName.2.1, oneName.2.2, DirOp.apply (dots 2 1) (.add [97] 3 flagFile)⟩ :=
    ⟨⟨by decide, by decide, ⟨by decide, by decide, by decide, by decide⟩, hroom,
      fun _ => by decide +kernel⟩, ⟨oneName.1, rfl⟩, rfl⟩
  have hempty : FileInv smallVol emptyDir := FileInv.of_empty (fun _ => rfl) rfl rfl
  have hlookup := (dir_refines_map smallVol_sound (fun _ => rfl) hempty (by decide +kernel) rfl (by decide) (by decide)
    (by decide) (by decide) (show dirInitDots smallVol emptyDir 1 = (.eok, _, _) from
      Prod.ext (by decide +kernel) rfl) (.cons hstep (.nil _))).2.1
  exact ⟨hlookup [97] (by decide), hlookup [98] (by decide)⟩

def longName (k : Nat) : Name := UInt8.ofNat (97 + k) :: replicate 254 97

def addLong : Nat → Rc × Vol × InodeMem
  | 0 => dotsOnly
  | k + 1 => dirAddEntry (addLong k).2.1 (addLong k).2.2 (longName k) (k + 3) flagFile

/-- The sixteenth record starts in one block and ends in the next one. Its name
is not found, and every further addition fails. -/
theorem dirAddEntry_crosses_block :
    (∀ k < 17, (addLong k).1 = .eok) ∧ HasRoom (addLong 16).2.1 (addLong 16).2.2 ∧
      dirLookupEntry (addLong 16).2.1 (addLong 16).2.2 (longName 15) = .error .enoent ∧
      (addLong 17).1 = .eio := by
  have hfree : (addLong 16).2.1.IsFree 10 ∧ (addLong 16).2.1.IsFree 11 := by
    unfold Vol.IsFree
    decide +kernel
  exact ⟨by decide +kernel, ⟨⟨10, 11, hfree.1, hfree.2, by decide⟩, by decide +kernel⟩,
    by decide +kernel, by decide +kernel⟩

end Kyuzen.Kfs
