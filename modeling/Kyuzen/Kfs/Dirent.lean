import Kyuzen.Kfs.Dir

/-!
Directory records. A block of a directory is tiled when records of at least 12
bytes follow each other from its first byte to its last. On a tiled block the
record loops of the source are searches in the list of its records, and the
three ways to write a record keep the block tiled.
-/

namespace Kyuzen.Kfs

open List

variable {pos : Nat} {b : Buf}

/-- A record as its readers see it. A free record has inode number 0; nobody
reads its name. -/
structure Dirent where
  ino : Nat
  recLen : Nat
  ftype : Nat
  name : Name
  deriving DecidableEq, Repr

def Dirent.free (recLen : Nat) : Dirent := ⟨0, recLen, 0, []⟩

def direntAt (b : Buf) (pos : Nat) : Dirent :=
  if getLe b pos 4 = 0 then .free (getLe b (pos + 4) 2)
  else
    ⟨getLe b pos 4, getLe b (pos + 4) 2, getLe b (pos + 7) 1,
      nameAt b (pos + 8) (getLe b (pos + 6) 1)⟩

/-- The records of `b` from `pos` to `stop`. -/
def Tiles (b : Buf) (stop : Nat) : Nat → List Dirent → Prop
  | pos, [] => pos = stop
  | pos, r :: rs =>
    direntAt b pos = r ∧ 12 ≤ r.recLen ∧ 8 + r.name.length ≤ r.recLen ∧
      Tiles b stop (pos + r.recLen) rs

def inUse (rs : List Dirent) : List Dirent := rs.filter (·.ino ≠ 0)

theorem nameAt_length (b : Buf) (off n : Nat) : (nameAt b off n).length = n := by
  simp [nameAt]

theorem nameAt_congr {b' : Buf} {off off' n : Nat} (h : ∀ i < n, b (off + i) = b' (off' + i)) :
    nameAt b off n = nameAt b' off' n := by
  refine map_congr_left fun i hi => ?_
  exact h i (mem_range.mp hi)

theorem nameAt_nameBuf (name : Name) : nameAt (nameBuf name) 0 name.length = name := by
  refine ext_getElem (by simp [nameAt]) fun i _ hi => ?_
  simp [nameAt, nameBuf, getD_eq_getElem?_getD, getElem?_eq_getElem hi]

/-! ### One record -/

theorem direntAt_of_ino (h : getLe b pos 4 ≠ 0) : direntAt b pos =
      ⟨getLe b pos 4, getLe b (pos + 4) 2, getLe b (pos + 7) 1,
        nameAt b (pos + 8) (getLe b (pos + 6) 1)⟩ := if_neg h

theorem direntAt_of_free (h : getLe b pos 4 = 0) :
    direntAt b pos = .free (getLe b (pos + 4) 2) := if_pos h

@[simp] theorem direntAt_ino (b : Buf) (pos : Nat) : (direntAt b pos).ino = getLe b pos 4 := by
  unfold direntAt
  split
  next hz => exact hz.symm
  · rfl

@[simp] theorem direntAt_recLen (b : Buf) (pos : Nat) :
    (direntAt b pos).recLen = getLe b (pos + 4) 2 := by
  unfold direntAt
  split <;> rfl

theorem fields_of_direntAt {r : Dirent} (h : direntAt b pos = r) :
    getLe b pos 4 = r.ino ∧ getLe b (pos + 4) 2 = r.recLen := by
  simp [← h]

theorem direntAt_congr {b' : Buf} {pos' n : Nat} (h : ∀ i < n, b' (pos' + i) = b (pos + i))
    (hn : 12 ≤ n) (hname : 8 + (direntAt b pos).name.length ≤ n) :
    direntAt b' pos' = direntAt b pos := by
  have hword : ∀ off width, off + width ≤ n →
      getLe b' (pos' + off) width = getLe b (pos + off) width := by
    intro off width hle
    apply getLe_congr
    intro i hi
    rw [add_assoc, add_assoc]
    exact h _ (by omega)
  have hino := hword 0 4 (by omega)
  have hrec := hword 4 2 (by omega)
  rw [add_zero, add_zero] at hino
  by_cases hz : getLe b pos 4 = 0
  · rw [direntAt_of_free hz, direntAt_of_free (hino.trans hz), hrec]
  rw [direntAt_of_ino hz] at hname ⊢
  rw [nameAt_length] at hname
  rw [direntAt_of_ino (by rwa [hino]), hino, hrec, hword 7 1 (by omega), hword 6 1 (by omega)]
  congr 1
  apply nameAt_congr
  intro i hi
  rw [add_assoc, add_assoc]
  exact h _ (by omega)

/-- What a caller of `dir_add_entry` may put into a record. -/
structure Recordable (ino ftype : Nat) (name : Name) : Prop where
  ino_ne : ino ≠ 0
  ino_lt : ino < 2 ^ 32
  ftype_lt : ftype < 256
  name_len : name.length ≤ 255

variable {name : Name} {tmp : Buf} {rs : List Dirent}

theorem direntAt_direntRecord {ino recLen ftype : Nat}
    (h : Recordable ino ftype name) (hrec : recLen < 2 ^ 16) :
    direntAt (direntRecord ino recLen ftype name) 0 = ⟨ino, recLen, ftype, name⟩ := by
  have hhead : ∀ off width, off + width ≤ 8 → getLe (direntRecord ino recLen ftype name) off width =
        getLe (putLe (putLe (putLe (putLe (fun _ => 0) 0 4 ino) 4 2 recLen) 6 1 name.length) 7 1
          ftype) off width := by
    intro off width hle
    exact getLe_memcpy_outside (Or.inl hle)
  have hino : getLe (direntRecord ino recLen ftype name) 0 4 = ino := by
    rw [hhead 0 4 (by omega), getLe_putLe_disjoint (by omega), getLe_putLe_disjoint (by omega),
      getLe_putLe_disjoint (by omega), getLe_putLe_of_lt h.ino_lt]
  have hlen : getLe (direntRecord ino recLen ftype name) (0 + 4) 2 = recLen := by
    rw [zero_add, hhead 4 2 (by omega), getLe_putLe_disjoint (by omega),
      getLe_putLe_disjoint (by omega), getLe_putLe_of_lt hrec]
  have hnlen : getLe (direntRecord ino recLen ftype name) (0 + 6) 1 = name.length := by
    have := h.name_len
    rw [zero_add, hhead 6 1 (by omega), getLe_putLe_disjoint (by omega),
      getLe_putLe_of_lt (by omega)]
  have hftype : getLe (direntRecord ino recLen ftype name) (0 + 7) 1 = ftype := by
    rw [zero_add, hhead 7 1 (by omega), getLe_putLe_of_lt h.ftype_lt]
  rw [direntAt_of_ino (by rw [hino]; exact h.ino_ne), hino, hlen, hnlen, hftype]
  congr 1
  rw [← nameAt_nameBuf name]
  simp only [nameAt_length]
  apply nameAt_congr
  intro i hi
  rw [direntRecord, memcpy_inside (by omega) (by rw [nameAt_length]; omega)]
  simp [nameAt_nameBuf]

theorem direntRecLen_bounds {nl : Nat} (hpos : 0 < nl) (hle : nl ≤ 255) :
    12 ≤ direntRecLen nl ∧ 8 + nl ≤ direntRecLen nl ∧ direntRecLen nl ≤ 264 := by
  unfold direntRecLen
  omega

/-! ### Tilings -/

namespace Tiles

variable {b b' : Buf} {stop pos : Nat} {rs rs' : List Dirent}

theorem le (h : Tiles b stop pos rs) : pos ≤ stop := by
  induction rs generalizing pos with
  | nil => exact h.le
  | cons r rs ih =>
    obtain ⟨-, -, -, hrest⟩ := h
    have := ih hrest
    omega

/-- A tiling depends on the bytes it covers, wherever they stand. -/
theorem shift {pos' : Nat} (h : Tiles b stop pos rs)
    (heq : ∀ i, pos + i < stop → b' (pos' + i) = b (pos + i)) :
    Tiles b' (pos' + (stop - pos)) pos' rs := by
  induction rs generalizing pos pos' with
  | nil =>
    obtain rfl : pos = stop := h
    simp [Tiles]
  | cons r rs ih =>
    obtain ⟨rfl, hrec, hname, hrest⟩ := h
    have hle := hrest.le
    refine ⟨direntAt_congr (fun i hi => heq i (by omega)) hrec hname, hrec, hname, ?_⟩
    have htail := @ih (pos + (direntAt b pos).recLen) (pos' + (direntAt b pos).recLen) hrest
      (fun i hi => by
        rw [add_assoc, add_assoc]
        exact heq _ (by omega))
    rwa [add_assoc, show (direntAt b pos).recLen + (stop - (pos + (direntAt b pos).recLen)) =
      stop - pos by omega] at htail

theorem congr (h : Tiles b stop pos rs) (heq : ∀ i, pos ≤ i → i < stop → b' i = b i) :
    Tiles b' stop pos rs := by
  have hle := h.le
  have hshift := @shift b b' stop pos rs pos h fun i hi => heq _ (by omega) hi
  rwa [show pos + (stop - pos) = stop by omega] at hshift

theorem append (h : Tiles b stop pos rs) {stop' : Nat} (h' : Tiles b stop' stop rs') :
    Tiles b stop' pos (rs ++ rs') := by
  induction rs generalizing pos with
  | nil =>
    obtain rfl : pos = stop := h
    exact h'
  | cons r rs ih =>
    obtain ⟨hr, hrec, hname, hrest⟩ := h
    exact ⟨hr, hrec, hname, ih hrest⟩

theorem split (h : Tiles b stop pos (rs ++ rs')) :
    ∃ mid, Tiles b mid pos rs ∧ Tiles b stop mid rs' := by
  induction rs generalizing pos with
  | nil => exact ⟨pos, rfl, h⟩
  | cons r rs ih =>
    obtain ⟨hr, hrec, hname, hrest⟩ := h
    obtain ⟨mid, hleft, hright⟩ := ih hrest
    exact ⟨mid, ⟨hr, hrec, hname, hleft⟩, hright⟩

theorem replace {mid len : Nat} {r : Dirent} {new : List Dirent} {record : Buf}
    (h : Tiles b mid pos rs) (h' : Tiles b stop mid (r :: rs')) (hlen : len = r.recLen)
    (hnew : Tiles record len 0 new)
    (hinside : ∀ i < len, b' (mid + i) = record i)
    (houtside : ∀ i, ¬ (mid ≤ i ∧ i < mid + len) → b' i = b i) :
    Tiles b' stop pos (rs ++ new ++ rs') := by
  obtain ⟨-, -, -, hrest⟩ := h'
  have hmiddle : Tiles b' (mid + len) mid new := by
    have := @shift record b' len 0 new mid hnew fun i hi => by
      rw [zero_add] at hi ⊢
      exact hinside i hi
    simpa using this
  refine append (append (h.congr fun i _ hi => houtside i (by omega)) hmiddle) ?_
  rw [hlen]
  exact hrest.congr fun i hi _ => houtside i (by omega)

end Tiles

/-- The records that take the place of a free one of `eRec` bytes. -/
def slotTiles (ino recLen ftype eRec : Nat) (name : Name) : List Dirent :=
  if eRec - recLen < 12 then [⟨ino, eRec, ftype, name⟩]
  else [⟨ino, recLen, ftype, name⟩, .free (eRec - recLen)]

theorem slotRecord_tiles {ino ftype eRec : Nat} (h : Recordable ino ftype name)
    (hpos : 0 < name.length) (hle : direntRecLen name.length ≤ eRec) (hlt : eRec < 2 ^ 16) :
    Tiles (slotRecord ino (direntRecLen name.length) ftype eRec name) eRec 0
      (slotTiles ino (direntRecLen name.length) ftype eRec name) := by
  obtain ⟨h12, hname, -⟩ := direntRecLen_bounds hpos h.name_len
  generalize direntRecLen name.length = recLen at *
  unfold slotRecord slotTiles
  by_cases hrest : eRec - recLen < 12
  · simp only [if_pos hrest, lt_irrefl, if_false]
    refine ⟨direntAt_direntRecord h hlt, ?_, ?_, zero_add _⟩
    · exact h12.trans hle
    · exact hname.trans hle
  have huse : recLen < eRec := by omega
  simp only [if_neg hrest, huse, if_true]
  have hbelow : ∀ i < recLen,
      putLe (putLe (direntRecord ino recLen ftype name) recLen 4 0) (recLen + 4) 2
        (eRec - recLen) (0 + i) = direntRecord ino recLen ftype name (0 + i) := by
    intro i hi
    rw [putLe_outside (by omega), putLe_outside (by omega)]
  have hrecord := direntAt_direntRecord h (show recLen < 2 ^ 16 by omega)
  refine ⟨?_, h12, hname, ?_, ?_, ?_, ?_⟩
  · rw [direntAt_congr hbelow h12 (by rw [hrecord]; exact hname), hrecord]
  · have hino : getLe (putLe (putLe (direntRecord ino recLen ftype name) recLen 4 0)
        (recLen + 4) 2 (eRec - recLen)) (0 + recLen) 4 = 0 := by
      rw [zero_add, getLe_putLe_disjoint (by omega), getLe_putLe_of_lt (by omega)]
    rw [direntAt_of_free hino, zero_add, getLe_putLe_of_lt (by omega)]
  · simp only [Dirent.free]
    omega
  · simp only [Dirent.free, length_nil]
    omega
  · simp only [Dirent.free, Tiles]
    omega

theorem removed_tiles {eRec : Nat} (hrec : 12 ≤ eRec) (hlt : eRec < 2 ^ 16) :
    Tiles (fun i =>
        memset (putLe (putLe tmp pos 4 0) (pos + 4) 2 eRec) (pos + 6) 0 (eRec - 6) (pos + i))
      eRec 0 [.free eRec] := by
  have hword : ∀ off width, off + width ≤ 6 → getLe (fun i =>
      memset (putLe (putLe tmp pos 4 0) (pos + 4) 2 eRec) (pos + 6) 0 (eRec - 6) (pos + i))
      off width = getLe (putLe (putLe tmp pos 4 0) (pos + 4) 2 eRec) (pos + off) width := by
    intro off width hle
    apply getLe_congr
    intro i hi
    rw [memset_outside (by omega), add_assoc]
  refine ⟨?_, hrec, by simp [Dirent.free]; omega, zero_add _⟩
  rw [direntAt_of_free, hword _ _ (by omega), zero_add, getLe_putLe_of_lt hlt]
  rw [hword _ _ (by omega), getLe_putLe_disjoint (by omega), add_zero,
    getLe_putLe_of_lt (by omega)]

/-! ### The record loops -/

theorem addScan_spec {chunk need fuel pos : Nat}
    (h : Tiles tmp chunk pos rs) (hfuel : chunk - pos ≤ fuel) :
    (addScan tmp chunk need fuel pos = .absent ∧ ∀ r ∈ rs, ¬ (r.ino = 0 ∧ need ≤ r.recLen)) ∨
    ∃ before r after mid, rs = before ++ r :: after ∧ r.ino = 0 ∧ need ≤ r.recLen ∧
      Tiles tmp mid pos before ∧ Tiles tmp chunk mid (r :: after) ∧
      addScan tmp chunk need fuel pos = .slot mid r.recLen := by
  induction rs generalizing pos fuel with
  | nil =>
    obtain rfl : pos = chunk := h
    left
    refine ⟨?_, by simp⟩
    cases fuel with
    | zero => rfl
    | succ fuel => rw [addScan, if_neg (by omega)]
  | cons r rs ih =>
    have hall := h
    obtain ⟨hr, hrec, hname, hrest⟩ := h
    have hle := hrest.le
    cases fuel with
    | zero => omega
    | succ fuel =>
      obtain ⟨hino, hlen⟩ := fields_of_direntAt hr
      simp only [addScan, hino, hlen]
      rw [if_pos (by omega), if_neg (by omega)]
      by_cases huse : r.ino = 0 ∧ r.recLen ≥ need
      · right
        rw [if_pos huse]
        exact ⟨[], r, rs, pos, rfl, huse.1, huse.2, rfl, hall, rfl⟩
      rw [if_neg huse]
      rcases @ih fuel _ hrest (by omega) with ⟨habsent, hno⟩ |
        ⟨before, r', after, mid, rfl, hfree, hneed, hbefore, hafter, hslot⟩
      · left
        refine ⟨habsent, fun r' hr' => ?_⟩
        rcases mem_cons.mp hr' with rfl | hr'
        · exact huse
        · exact hno r' hr'
      · right
        exact ⟨r :: before, r', after, mid, rfl, hfree, hneed, ⟨hr, hrec, hname, hbefore⟩,
          hafter, hslot⟩

theorem name_matches (hino : getLe tmp pos 4 ≠ 0) :
    (getLe tmp (pos + 6) 1 = name.length ∧ nameAt tmp (pos + 8) name.length = name) ↔
      (direntAt tmp pos).name = name := by
  rw [direntAt_of_ino hino]
  dsimp only
  constructor
  · rintro ⟨hlen, hname⟩
    rw [hlen, hname]
  · intro hname
    have hlen : getLe tmp (pos + 6) 1 = name.length := by
      rw [← hname, nameAt_length]
    refine ⟨hlen, ?_⟩
    rw [← hlen, hname]

theorem nameScan_spec {chunk fuel pos : Nat}
    (h : Tiles tmp chunk pos rs) (hfuel : chunk - pos ≤ fuel) :
    (nameScan tmp chunk name fuel pos = .absent ∧ ∀ r ∈ inUse rs, r.name ≠ name) ∨
    ∃ before r after mid, rs = before ++ r :: after ∧ r.ino ≠ 0 ∧ r.name = name ∧
      (∀ r' ∈ inUse before, r'.name ≠ name) ∧
      Tiles tmp mid pos before ∧ Tiles tmp chunk mid (r :: after) ∧
      nameScan tmp chunk name fuel pos = .found mid r.ino r.recLen r.ftype := by
  induction rs generalizing pos fuel with
  | nil =>
    obtain rfl : pos = chunk := h
    left
    refine ⟨?_, by simp [inUse]⟩
    cases fuel with
    | zero => rfl
    | succ fuel => rw [nameScan, if_neg (by omega)]
  | cons r rs ih =>
    have hall := h
    obtain ⟨hr, hrec, hname, hrest⟩ := h
    have hle := hrest.le
    cases fuel with
    | zero => omega
    | succ fuel =>
      obtain ⟨hino, hlen⟩ := fields_of_direntAt hr
      simp only [nameScan, hlen]
      rw [if_pos (by omega), if_neg (by omega)]
      by_cases huse : r.ino ≠ 0 ∧ r.name = name
      · right
        have hne : getLe tmp pos 4 ≠ 0 := by rw [hino]; exact huse.1
        have hftype : getLe tmp (pos + 7) 1 = r.ftype := by rw [← hr, direntAt_of_ino hne]
        rw [if_pos ⟨hne, (name_matches hne).mpr (by rw [hr]; exact huse.2)⟩, hino, hftype]
        exact ⟨[], r, rs, pos, rfl, huse.1, huse.2, by simp [inUse], rfl, hall, rfl⟩
      have hskip : ∀ l, (∀ r' ∈ inUse l, r'.name ≠ name) →
          ∀ r' ∈ inUse (r :: l), r'.name ≠ name := by
        intro l hno r' hr'
        obtain ⟨hmem, hne⟩ := mem_filter.mp hr'
        rcases mem_cons.mp hmem with rfl | hmem
        · exact fun heq => huse ⟨of_decide_eq_true hne, heq⟩
        · exact hno r' (mem_filter.mpr ⟨hmem, hne⟩)
      rw [if_neg (fun hmatch => huse ⟨hino ▸ hmatch.1, hr ▸ (name_matches hmatch.1).mp hmatch.2⟩)]
      rcases @ih fuel _ hrest (by omega) with ⟨habsent, hno⟩ |
        ⟨before, r', after, mid, rfl, huse', hname', hno, hbefore, hafter, hfound⟩
      · exact .inl ⟨habsent, hskip rs hno⟩
      · exact .inr ⟨r :: before, r', after, mid, rfl, huse', hname', hskip before hno,
          ⟨hr, hrec, hname, hbefore⟩, hafter, hfound⟩

theorem indexScan_spec {chunk index cap fuel pos seen : Nat}
    (h : Tiles tmp chunk pos rs) (hfuel : chunk - pos ≤ fuel) (hseen : seen ≤ index)
    (hcap : 256 ≤ cap) :
    indexScan tmp chunk index cap fuel pos seen = match (inUse rs)[index - seen]? with
      | some r => .found r.name r.ftype
      | none => .absent (seen + (inUse rs).length) := by
  induction rs generalizing pos fuel seen with
  | nil =>
    obtain rfl : pos = chunk := h
    cases fuel with
    | zero => rfl
    | succ fuel =>
      rw [indexScan, if_neg (by omega)]
      rfl
  | cons r rs ih =>
    obtain ⟨hr, hrec, -, hrest⟩ := h
    have hle := hrest.le
    cases fuel with
    | zero => omega
    | succ fuel =>
      obtain ⟨hino, hlen⟩ := fields_of_direntAt hr
      simp only [indexScan, hino, hlen]
      rw [if_pos (by omega), if_neg (by omega)]
      by_cases hfree : r.ino = 0
      · have hcons : inUse (r :: rs) = inUse rs := by simp [inUse, hfree]
        rw [if_neg (by simpa using hfree), hcons]
        exact ih hrest (by omega) hseen
      have hcons : inUse (r :: rs) = r :: inUse rs := by simp [inUse, hfree]
      have hne : getLe tmp pos 4 ≠ 0 := by rw [hino]; exact hfree
      rw [if_pos hfree, hcons]
      by_cases hhit : seen = index
      · have hnlen := getLe_lt tmp (pos + 6) 1
        rw [if_pos hhit, if_neg (by omega), hhit, Nat.sub_self, getElem?_cons_zero,
          ← hr, direntAt_of_ino hne]
      rw [if_neg hhit, ih hrest (by omega) (by omega)]
      have hsub : index - seen = index - (seen + 1) + 1 := by omega
      rw [hsub, getElem?_cons_succ, length_cons]
      cases (inUse rs)[index - (seen + 1)]? with
      | some r' => rfl
      | none =>
        dsimp only
        congr 1
        omega

end Kyuzen.Kfs
