import Kyuzen.Proc.Elf

/-!
Which files the 64-bit loader handles soundly in every address space. The
condition is one on the headers: they are not cut off by the end of the file, a
segment that has a page ends in the user half, and the bytes a segment writes
lie inside pages that were mapped for it or for a segment before it.
-/

namespace Kyuzen.Proc

open Mm List Option Nat Ev

variable {page segEnd : Nat} {p : Phys}

/-- The event is allowed after the events `before`. -/
def EvOk (size : Nat) (before : List Ev) : Ev → Prop
  | .read off len => off + len ≤ size
  | .ensure page => page < ucUserVaMax
  | .protect page => page < ucUserVaMax
  | .write addr len =>
    ∀ b, addr ≤ b → b < addr + len → b < ucUserVaMax ∧ ensure (pageOf b) ∈ before

def Fine (size : Nat) (before : List Ev) : List Ev → Prop
  | [] => True
  | ev :: rest => EvOk size before ev ∧ Fine size (before ++ [ev]) rest

def IsElf32 (buf : Buf) : Prop := (checkMagic buf elfMagic).2 = true ∧ buf 4 = elfClass32

/-- In every state of memory and every address space the load ends, all it
touches is allowed, and its result is the entry point or 0. -/
def LoadSafe (fileLen : Nat) (buf : Buf) : Prop :=
  ¬ IsElf32 buf → ∀ (p : Phys) (pml4 nx : Nat) (heapOk wantStack : Bool),
    ∃ fuel r, elfLoadFile fileLen buf heapOk pml4 nx fuel wantStack p = some r ∧
      Fine (fileLen % 2 ^ 32) [] r.evs ∧ (r.entry = 0 ∨ r.entry = eEntry64 buf)

/-! ### The condition on the headers -/

def Phdr.Covers (h : Phdr) (b : Nat) : Prop := pageOf h.vaddr ≤ pageOf b ∧ pageOf b < h.segEnd

/-- The user bytes that the copy and the clearing write. -/
def Phdr.Writes (h : Phdr) (b : Nat) : Prop :=
  h.vaddr ≤ b ∧ b < h.vaddr + h.filesz % 2 ^ 32 ∨
    h.filesz < h.memsz ∧ h.vaddr + h.filesz ≤ b ∧
      b < h.vaddr + h.filesz + (h.memsz - h.filesz) % 2 ^ 32

/-- A segment with a page ends in the user half; an empty one has a page unless
it starts at one. -/
def Phdr.InUser (h : Phdr) : Prop := pageOf h.vaddr < h.segEnd → h.segEnd ≤ ucUserVaMax

/-- The segment lies in the user half and writes into pages of its own or of the
segments before it. -/
def SegOk (earlier : List Phdr) (h : Phdr) : Prop :=
  h.InUser ∧ ∀ b, h.Writes b → ∃ g ∈ h :: earlier, g.Covers b

/-- The segments the loader comes to: the first one that its checks refuse ends
the load. -/
def SegsOk (size : Nat) (earlier : List Phdr) : List Phdr → Prop
  | [] => True
  | h :: rest =>
    if h.type ≠ 1 then SegsOk size earlier rest
    else if h.overflows ∨ h.outside size then True
    else SegOk earlier h ∧ SegsOk size (h :: earlier) rest

def segments (buf : Buf) : List Phdr :=
  (phdrOffsets (ePhoff64 buf) (ePhnum64 buf) 56).map (phdr64 buf)

def HeaderOk (size : Nat) (buf : Buf) : Prop :=
  40 ≤ size ∧ (ePhoff64 buf ≤ size → 58 ≤ size ∧
    (ePhnum64 buf * 56 ≤ size - ePhoff64 buf → SegsOk size [] (segments buf)))

/-- A matching start of the magic number is not the end of the file. -/
def MagicOk (size : Nat) (buf : Buf) : Prop :=
  buf 0 = 0x7F → 1 < size ∧ (buf 1 = 69 → 2 < size ∧ (buf 2 = 76 → 3 < size ∧
    (buf 3 = 70 → 4 < size)))

def FileOk (size : Nat) (buf : Buf) : Prop :=
  size ≠ 0 → ¬ IsElf32 buf → MagicOk size buf ∧
    ((checkMagic buf elfMagic).2 = true → buf 4 = elfClass64 → HeaderOk size buf)

/-! ### Trails -/

section

variable {size : Nat} {before : List Ev}

theorem fine_append {xs ys : List Ev} :
    Fine size before (xs ++ ys) ↔ Fine size before xs ∧ Fine size (before ++ xs) ys := by
  induction xs generalizing before with
  | nil => simp [Fine]
  | cons ev xs ih => simp only [cons_append, Fine, ih, append_assoc,
      nil_append, and_assoc]

theorem fine_map {ev : Nat → Ev} (hev : ∀ before page, EvOk size before (ev page) ↔
    page < ucUserVaMax) (pages : List Nat) :
    Fine size before (pages.map ev) ↔ ∀ page ∈ pages, page < ucUserVaMax := by
  induction pages generalizing before with
  | nil => simp [Fine]
  | cons page pages ih => rw [List.map_cons, Fine, hev, ih, List.forall_mem_cons]

theorem fine_ensures (pages : List Nat) :
    Fine size before (pages.map .ensure) ↔ ∀ page ∈ pages, page < ucUserVaMax :=
  fine_map (fun _ _ => Iff.rfl) pages

theorem fine_protects (pages : List Nat) :
    Fine size before (pages.map .protect) ↔ ∀ page ∈ pages, page < ucUserVaMax :=
  fine_map (fun _ _ => Iff.rfl) pages

end

/-! ### The loops over pages -/

def pagesFrom (page segEnd : Nat) : List Nat :=
  (range ((segEnd - page + 4095) / 4096)).map fun k => page + k * 4096

theorem pagesFrom_of_le (h : segEnd ≤ page) : pagesFrom page segEnd = [] := by
  have hcount : (segEnd - page + 4095) / 4096 = 0 := by omega
  rw [pagesFrom, hcount]
  rfl

theorem pagesFrom_of_lt (h : page < segEnd) :
    pagesFrom page segEnd = page :: pagesFrom (page + 4096) segEnd := by
  have hcount : (segEnd - page + 4095) / 4096 = (segEnd - (page + 4096) + 4095) / 4096 + 1 := by
    omega
  rw [pagesFrom, hcount, range_succ_eq_map, List.map_cons, List.map_map, pagesFrom]
  refine congrArg₂ List.cons (by omega) (map_congr_left fun k _ => ?_)
  simp only [Function.comp_apply, Nat.succ_eq_add_one]
  omega

theorem mem_pagesFrom {q : Nat} (hpage : page % 4096 = 0) (hq : q % 4096 = 0) :
    q ∈ pagesFrom page segEnd ↔ page ≤ q ∧ q < segEnd := by
  simp only [pagesFrom, List.mem_map, List.mem_range]
  constructor
  · rintro ⟨k, hk, rfl⟩
    omega
  · rintro ⟨hle, hlt⟩
    exact ⟨(q - page) / 4096, by omega, by omega⟩

theorem pagesFrom_lt {q : Nat} (hq : q ∈ pagesFrom page segEnd) : q < segEnd := by
  simp only [pagesFrom, List.mem_map, List.mem_range] at hq
  obtain ⟨k, hk, rfl⟩ := hq
  omega

/-- The pages of a segment are user pages when its end is. -/
theorem inUser_iff (h : Phdr) :
    h.InUser ↔ ∀ q ∈ pagesFrom (pageOf h.vaddr) h.segEnd, q < ucUserVaMax := by
  refine ⟨fun huser q hq => ?_, fun hpages hlt => ?_⟩
  · have hq' := pagesFrom_lt hq
    have hle : pageOf h.vaddr < h.segEnd := by
      by_contra hempty
      rw [pagesFrom_of_le (not_lt.mp hempty)] at hq
      exact not_mem_nil hq
    have := huser hle
    omega
  · have hlast : pageOf (h.segEnd - 1) ∈ pagesFrom (pageOf h.vaddr) h.segEnd := by
      rw [mem_pagesFrom (pageOf_mod _) (pageOf_mod _)]
      unfold pageOf at hlt ⊢
      omega
    have := hpages _ hlast
    unfold pageOf ucUserVaMax at this
    unfold ucUserVaMax
    omega

theorem Phdr.InUser.segEnd_le {h : Phdr} (huser : h.InUser) (hlt : h.vaddr < 2 ^ 64) :
    h.segEnd ≤ 2 ^ 64 - 4096 := by
  by_cases hpage : pageOf h.vaddr < h.segEnd
  · have := huser hpage
    unfold ucUserVaMax at this
    omega
  · have hmod := pageOf_mod h.vaddr
    have hle := pageOf_le h.vaddr
    omega

/-- Every entry of every table is present, so that every page is mapped. -/
def AllPresent (p : Phys) : Prop := ∀ t i, present (p.mem t i) = true

theorem AllPresent.mapped (h : AllPresent p) (cur page pml4 : Nat) :
    pagingIsMappedInto p.mem cur page pml4 = true := by
  simp [pagingIsMappedInto, walkIsMapped, h _ _]

theorem AllPresent.setEntry (h : AllPresent p) {table i e : Nat} (he : present e = true) :
    AllPresent (p.setEntry table i e) := by
  intro t j
  simp only [Phys.setEntry]
  split
  · exact he
  · exact h t j

theorem AllPresent.protect (h : AllPresent p) {flags : Nat} (hflags : flags.testBit 0 = true)
    (page pml4 : Nat) :
    AllPresent (vmmProtectPageInto p page flags pml4).2 := by
  unfold vmmProtectPageInto
  have hentry : ∀ e, present ((e &&& pageMask) ||| flags) = true := by
    intro e
    rw [present, testBit_or, hflags, Bool.or_true]
  simp only
  repeat' split
  all_goals first | exact h | exact h.setEntry (hentry _)

section

variable {pml4 segEnd fuel page : Nat} {p : Phys}

theorem premap_allPresent (h : AllPresent p) {s : Stage} (hpage : page % 4096 = 0)
    (hlt : page < 2 ^ 64) (hs : premap pml4 segEnd fuel page p = some s) :
    segEnd ≤ 2 ^ 64 - 4096 ∧ s = ⟨(pagesFrom page segEnd).map .ensure, p, true⟩ := by
  induction fuel generalizing page s with
  | zero => cases hs
  | succ fuel ih =>
    rw [premap] at hs
    split at hs
    next hmore =>
      rw [if_pos (h.mapped _ _ _)] at hs
      obtain ⟨s', hs', rfl⟩ := map_eq_some_iff.mp hs
      obtain ⟨hend, rfl⟩ := ih (by omega) (mod_lt _ (by decide)) hs'
      rw [mod_eq_of_lt (by omega), pagesFrom_of_lt hmore]
      exact ⟨hend, by simp only [Stage.after, map_cons, cons_append, nil_append]⟩
    next hdone =>
      cases hs
      rw [pagesFrom_of_le (not_lt.mp hdone)]
      exact ⟨by omega, rfl⟩

theorem reprotect_allPresent (h : AllPresent p) {flags : Nat} (hflags : flags.testBit 0 = true)
    {s : Stage} (hs : reprotect pml4 segEnd flags fuel page p = some s) :
    AllPresent s.phys := by
  induction fuel generalizing page p s with
  | zero => cases hs
  | succ fuel ih =>
    rw [reprotect] at hs
    split at hs
    · obtain ⟨s', hs', rfl⟩ := map_eq_some_iff.mp hs
      have hrest := ih (h.protect hflags page pml4) hs'
      exact hrest
    · cases hs
      exact h

/-- A segment that ends before the last page is left after one round a page. -/
theorem premap_ends (pml4 page : Nat) (p : Phys) (hend : segEnd ≤ 2 ^ 64 - 4096)
    (hfuel : (segEnd - page + 4095) / 4096 < fuel) :
    ∃ s, premap pml4 segEnd fuel page p = some s ∧
      (s.go = true → s.evs = (pagesFrom page segEnd).map .ensure) ∧
      ∃ pages : List Nat, s.evs = pages.map .ensure ∧ pages ⊆ pagesFrom page segEnd := by
  induction fuel generalizing page p with
  | zero => omega
  | succ fuel ih =>
    rw [premap]
    split
    next hmore =>
      have hnext : ∀ q : Phys, ∃ s, (premap pml4 segEnd fuel ((page + 4096) % 2 ^ 64) q).map
          (Stage.after [.ensure page]) = some s ∧
          (s.go = true → s.evs = (pagesFrom page segEnd).map .ensure) ∧
          ∃ pages : List Nat, s.evs = pages.map .ensure ∧ pages ⊆ pagesFrom page segEnd := by
        intro q
        rw [mod_eq_of_lt (by omega)]
        obtain ⟨s, hs, hgo, pages, hevs, hsub⟩ := ih (page + 4096) q (by omega)
        refine ⟨s.after [.ensure page], by rw [hs, map_some], fun h => ?_, page :: pages, ?_, ?_⟩
        · rw [pagesFrom_of_lt hmore, map_cons, ← hgo h, Stage.after, singleton_append]
        · rw [map_cons, ← hevs, Stage.after, singleton_append]
        · rw [pagesFrom_of_lt hmore]
          exact cons_subset_cons page hsub
      split
      · exact hnext p
      · split
        · refine ⟨_, rfl, fun h => (by cases h), [page], rfl, ?_⟩
          simp [pagesFrom_of_lt hmore]
        · exact hnext _
    next hdone =>
      rw [pagesFrom_of_le (not_lt.mp hdone)]
      exact ⟨_, rfl, fun _ => rfl, [], rfl, nil_subset _⟩

theorem reprotect_ends (pml4 page flags : Nat) (p : Phys) (hend : segEnd ≤ 2 ^ 64 - 4096)
    (hfuel : (segEnd - page + 4095) / 4096 < fuel) :
    ∃ s, reprotect pml4 segEnd flags fuel page p = some s := by
  induction fuel generalizing page p with
  | zero => omega
  | succ fuel ih =>
    rw [reprotect]
    split
    · rw [mod_eq_of_lt (by omega)]
      obtain ⟨s, hs⟩ := ih (page + 4096) (vmmProtectPageInto p page flags pml4).2 (by omega)
      exact ⟨_, by rw [hs, map_some]⟩
    · exact ⟨_, rfl⟩

theorem reprotect_evs {flags : Nat} (hend : segEnd ≤ 2 ^ 64 - 4096) {s : Stage}
    (hs : reprotect pml4 segEnd flags fuel page p = some s) :
    s.go = true ∧ s.evs = (pagesFrom page segEnd).map .protect := by
  induction fuel generalizing page p s with
  | zero => cases hs
  | succ fuel ih =>
    rw [reprotect] at hs
    split at hs
    next hmore =>
      obtain ⟨s', hs', rfl⟩ := map_eq_some_iff.mp hs
      rw [mod_eq_of_lt (by omega)] at hs'
      obtain ⟨hgo, hevs⟩ := ih hs'
      refine ⟨hgo, ?_⟩
      rw [pagesFrom_of_lt hmore, map_cons, ← hevs, Stage.after, singleton_append]
    next hdone =>
      cases hs
      rw [pagesFrom_of_le (not_lt.mp hdone)]
      exact ⟨rfl, rfl⟩

end

/-! ### One segment -/

def segReads (o : Nat) : List Ev := phdrReads o ++ [.read (o + 4) 4]

def Phdr.pages (h : Phdr) : List Nat := pagesFrom (pageOf h.vaddr) h.segEnd

def protects (nx : Nat) (h : Phdr) : List Ev :=
  if segFlags nx h ≠ fillFlags then h.pages.map .protect else []

def segEvs (nx o : Nat) (h : Phdr) : List Ev :=
  segReads o ++ h.pages.map .ensure ++ h.copies ++ protects nx h

theorem segFlags_present (nx : Nat) (h : Phdr) : (segFlags nx h).testBit 0 = true := by
  simp [segFlags]

section

variable {size : Nat} {buf : Buf} {pml4 nx fuel o : Nat} {p : Phys}

theorem loadSegment_load (htype : (phdr64 buf o).type = 1) (hover : ¬ (phdr64 buf o).overflows)
    (hin : ¬ (phdr64 buf o).outside size) :
    loadSegment size buf pml4 nx fuel o p =
      (premap pml4 (phdr64 buf o).segEnd fuel (pageOf (phdr64 buf o).vaddr) p).bind fun s =>
        (s.after (segReads o)).then fun p =>
          if segFlags nx (phdr64 buf o) ≠ fillFlags then
            (reprotect pml4 (phdr64 buf o).segEnd (segFlags nx (phdr64 buf o)) fuel
              (pageOf (phdr64 buf o).vaddr) p).map (Stage.after (phdr64 buf o).copies)
          else some ⟨(phdr64 buf o).copies, p, true⟩ := by
  rw [loadSegment]
  simp [htype, hover, hin, segReads]

theorem vaddr_lt (buf : Buf) (o : Nat) : (phdr64 buf o).vaddr < 2 ^ 64 := getLe_lt buf (o + 16) 8

theorem loadSegment_allPresent (h : AllPresent p) (htype : (phdr64 buf o).type = 1)
    (hover : ¬ (phdr64 buf o).overflows) (hin : ¬ (phdr64 buf o).outside size) {s : Stage}
    (hs : loadSegment size buf pml4 nx fuel o p = some s) :
    s.go = true ∧ s.evs = segEvs nx o (phdr64 buf o) ∧ AllPresent s.phys := by
  rw [loadSegment_load htype hover hin] at hs
  obtain ⟨m, hm, hs⟩ := bind_eq_some_iff.mp hs
  have hpage := pageOf_mod (phdr64 buf o).vaddr
  have hle := pageOf_le (phdr64 buf o).vaddr
  have hlt := vaddr_lt buf o
  obtain ⟨hend, rfl⟩ := premap_allPresent h hpage (by omega) hm
  rw [Stage.then, if_pos (show (Stage.after _ _).go = true from rfl)] at hs
  obtain ⟨t, ht, rfl⟩ := map_eq_some_iff.mp hs
  split at ht
  next hflags =>
    obtain ⟨u, hu, rfl⟩ := map_eq_some_iff.mp ht
    obtain ⟨hgo, hevs⟩ := reprotect_evs hend hu
    have hall := reprotect_allPresent h (segFlags_present nx _) hu
    refine ⟨hgo, ?_, hall⟩
    simp only [Stage.after, hevs, segEvs, protects, if_pos hflags, Phdr.pages, append_assoc]
  next hflags =>
    cases ht
    refine ⟨rfl, ?_, h⟩
    simp only [Stage.after, segEvs, protects, if_neg hflags, Phdr.pages, append_nil]

theorem loadSegment_ends (pml4 nx : Nat) (p : Phys) (hfuel : 2 ^ 52 ≤ fuel)
    (htype : (phdr64 buf o).type = 1)
    (hover : ¬ (phdr64 buf o).overflows) (hin : ¬ (phdr64 buf o).outside size)
    (hend : (phdr64 buf o).segEnd ≤ 2 ^ 64 - 4096) :
    ∃ s, loadSegment size buf pml4 nx fuel o p = some s ∧
      (s.go = true → s.evs = segEvs nx o (phdr64 buf o)) ∧
      (s.go = false → ∃ pages ⊆ (phdr64 buf o).pages, s.evs = segReads o ++ pages.map .ensure) := by
  have hrounds : ((phdr64 buf o).segEnd - pageOf (phdr64 buf o).vaddr + 4095) / 4096 < fuel := by
    omega
  obtain ⟨m, hm, hgo, pages, hpages, hsub⟩ := premap_ends pml4 _ p hend hrounds
  rw [loadSegment_load htype hover hin, hm, bind_some, Stage.then]
  cases hcont : m.go with
  | true =>
    rw [if_pos (show (m.after (segReads o)).go = true from hcont)]
    split
    next hflags =>
      obtain ⟨t, ht⟩ := reprotect_ends pml4 _ (segFlags nx (phdr64 buf o)) m.phys hend hrounds
      obtain ⟨htgo, htevs⟩ := reprotect_evs hend ht
      refine ⟨_, congrArg _ (congrArg _ ht), fun _ => ?_, fun h => ?_⟩
      · simp [Stage.after, hgo hcont, htevs, segEvs, protects, if_pos hflags, Phdr.pages]
      · cases htgo.symm.trans h
    next hflags =>
      refine ⟨_, map_some _ _, fun _ => ?_, fun h => absurd h (by simp [Stage.after])⟩
      simp [Stage.after, hgo hcont, segEvs, protects, if_neg hflags, Phdr.pages]
  | false =>
    rw [if_neg (show ¬ (m.after (segReads o)).go = true by simp [Stage.after, hcont])]
    refine ⟨_, rfl, fun h => ?_, fun _ => ⟨pages, hsub, ?_⟩⟩
    · cases hcont.symm.trans h
    · simp [Stage.after, hpages]

end

/-- The pages that the trail made sure of are those of the segments, and these
lie in the user half. -/
structure Covered (before : List Ev) (earlier : List Phdr) : Prop where
  ensured : ∀ b, ensure (pageOf b) ∈ before ↔ ∃ g ∈ earlier, g.Covers b
  user : ∀ g ∈ earlier, g.InUser

section

variable {size nx o : Nat} {before : List Ev} {earlier : List Phdr} {h : Phdr}

theorem Covered.append_reads (hcov : Covered before earlier) {evs : List Ev}
    (hevs : ∀ page, ensure page ∉ evs) : Covered (before ++ evs) earlier := by
  refine ⟨fun b => ?_, hcov.user⟩
  rw [mem_append, or_iff_left (hevs _), hcov.ensured b]

/-- A covered byte is a user byte. -/
theorem Covered.lt (hcov : Covered before earlier) {b : Nat} (hb : ∃ g ∈ earlier, g.Covers b) :
    b < ucUserVaMax := by
  obtain ⟨g, hg, hle, hlt⟩ := hb
  have hend := hcov.user g hg (hle.trans_lt hlt)
  unfold pageOf at hlt
  unfold ucUserVaMax at hend ⊢
  omega

theorem ensure_notMem_segReads (page : Nat) : ensure page ∉ segReads o := by
  simp [segReads, phdrReads]

theorem ensure_notMem_copies (page : Nat) : ensure page ∉ h.copies := by
  unfold Phdr.copies
  split <;> simp

theorem ensure_notMem_protects (page : Nat) : ensure page ∉ protects nx h := by
  unfold protects
  split <;> simp

theorem Covered.append_pages (hcov : Covered before earlier) (huser : h.InUser) :
    Covered (before ++ h.pages.map .ensure) (h :: earlier) := by
  refine ⟨fun b => ?_, forall_mem_cons.mpr ⟨huser, hcov.user⟩⟩
  rw [mem_append, hcov.ensured b, List.mem_map]
  simp only [ensure.injEq, exists_eq_right, List.mem_cons, exists_eq_or_imp, Phdr.pages,
    mem_pagesFrom (pageOf_mod _) (pageOf_mod _), Phdr.Covers]
  exact or_comm

theorem Covered.append_segEvs (hcov : Covered before earlier) (huser : h.InUser) :
    Covered (before ++ segEvs nx o h) (h :: earlier) := by
  rw [segEvs, ← append_assoc, ← append_assoc, ← append_assoc]
  exact (((hcov.append_reads ensure_notMem_segReads).append_pages huser).append_reads
    ensure_notMem_copies).append_reads ensure_notMem_protects

theorem fine_segReads (ho : o + 56 ≤ size) : Fine size before (segReads o) := by
  simp only [segReads, phdrReads, cons_append, nil_append, Fine, EvOk, and_true]
  omega

theorem fine_copies (hcov : Covered before earlier) (hin : ¬ h.outside size) :
    Fine size before h.copies ↔ ∀ b, h.Writes b → ∃ g ∈ earlier, g.Covers b := by
  have hread : h.offset + h.filesz % 2 ^ 32 ≤ size := by
    have := mod_le h.filesz (2 ^ 32)
    simp only [Phdr.outside, not_or, not_lt] at hin
    omega
  have hwrite : ∀ (evs : List Ev) (addr len : Nat), (∀ page, ensure page ∉ evs) →
      (EvOk size (before ++ evs) (.write addr len) ↔ ∀ b, addr ≤ b → b < addr + len →
        ∃ g ∈ earlier, g.Covers b) := by
    intro evs addr len hevs
    refine forall_congr' fun b => forall_congr' fun _ => forall_congr' fun _ => ?_
    rw [(hcov.append_reads hevs).ensured b]
    exact and_iff_right_of_imp hcov.lt
  unfold Phdr.copies
  split
  next hclear =>
    simp only [cons_append, nil_append, Fine, and_true, append_assoc]
    rw [hwrite _ _ _ (by simp), hwrite _ _ _ (by simp)]
    refine ⟨fun hfine b hb => ?_, fun hall => ⟨hread, ?_, ?_⟩⟩
    · rcases hb with ⟨hle, hlt⟩ | ⟨-, hle, hlt⟩
      · exact hfine.2.1 b hle hlt
      · exact hfine.2.2 b hle hlt
    · exact fun b hle hlt => hall b (.inl ⟨hle, hlt⟩)
    · exact fun b hle hlt => hall b (.inr ⟨hclear, hle, hlt⟩)
  next hclear =>
    simp only [append_nil, Fine, and_true]
    rw [hwrite _ _ _ (by simp)]
    refine ⟨fun hfine b hb => ?_, fun hall => ⟨hread, fun b hle hlt => hall b (.inl ⟨hle, hlt⟩)⟩⟩
    rcases hb with ⟨hle, hlt⟩ | ⟨hlt', -⟩
    · exact hfine.2 b hle hlt
    · exact absurd hlt' hclear

theorem fine_segEvs (hcov : Covered before earlier) (ho : o + 56 ≤ size)
    (hin : ¬ h.outside size) : Fine size before (segEvs nx o h) ↔ SegOk earlier h := by
  have hprotects : ∀ before, h.InUser → Fine size before (protects nx h) := by
    intro before huser
    unfold protects
    split
    · exact (fine_protects _).mpr ((inUser_iff h).mp huser)
    · trivial
  rw [segEvs, fine_append, fine_append, fine_append, fine_ensures, ← append_assoc]
  refine ⟨fun hfine => ?_, fun hseg => ?_⟩
  · have huser : h.InUser := (inUser_iff h).mpr hfine.1.1.2
    have hcov' := (hcov.append_reads (ensure_notMem_segReads (o := o))).append_pages huser
    exact ⟨huser, (fine_copies hcov' hin).mp hfine.1.2⟩
  · have hcov' := (hcov.append_reads (ensure_notMem_segReads (o := o))).append_pages hseg.1
    exact ⟨⟨⟨fine_segReads ho, (inUser_iff h).mp hseg.1⟩, (fine_copies hcov' hin).mpr hseg.2⟩,
      hprotects _ hseg.1⟩

end

/-! ### All segments -/

section

variable {before : List Ev} {earlier : List Phdr} {size : Nat} {buf : Buf} {pml4 nx fuel : Nat}

theorem fine_loadSegment (pml4 nx : Nat) (p : Phys) {o : Nat} (hfuel : 2 ^ 52 ≤ fuel)
    (ho : o + 56 ≤ size) (hcov : Covered before earlier) (hseg : SegOk earlier (phdr64 buf o))
    (htype : (phdr64 buf o).type = 1) (hover : ¬ (phdr64 buf o).overflows)
    (hin : ¬ (phdr64 buf o).outside size) :
    ∃ s, loadSegment size buf pml4 nx fuel o p = some s ∧ Fine size before s.evs ∧
      (s.go = true → s.evs = segEvs nx o (phdr64 buf o)) := by
  obtain ⟨s, hs, hgo, hstop⟩ := loadSegment_ends pml4 nx p hfuel htype hover hin
    (hseg.1.segEnd_le (vaddr_lt buf o))
  refine ⟨s, hs, ?_, hgo⟩
  cases hcont : s.go with
  | true =>
    rw [hgo hcont]
    exact (fine_segEvs hcov ho hin).mpr hseg
  | false =>
    obtain ⟨pages, hsub, hpages⟩ := hstop hcont
    rw [hpages, fine_append, fine_ensures]
    exact ⟨fine_segReads ho, fun page hpage => (inUser_iff _).mp hseg.1 page (hsub hpage)⟩

theorem loadSegment_refused (pml4 nx : Nat) (p : Phys) {o : Nat} (before : List Ev)
    (ho : o + 56 ≤ size) (htype : (phdr64 buf o).type = 1)
    (hrefused : (phdr64 buf o).overflows ∨ (phdr64 buf o).outside size) :
    ∃ s, loadSegment size buf pml4 nx fuel o p = some s ∧ s.go = false ∧
      Fine size before s.evs := by
  rw [loadSegment]
  simp only [htype, ne_eq, not_true_eq_false, if_false]
  split
  · refine ⟨_, rfl, rfl, ?_⟩
    simp only [Fine, EvOk, and_true]
    omega
  next hover =>
    rw [if_pos (hrefused.resolve_left hover)]
    refine ⟨_, rfl, rfl, ?_⟩
    simp only [phdrReads, Fine, EvOk, and_true]
    omega

theorem fine_loadSegments (pml4 nx : Nat) (hfuel : 2 ^ 52 ≤ fuel) {os : List Nat}
    (hos : ∀ o ∈ os, o + 56 ≤ size) (hsegs : SegsOk size earlier (os.map (phdr64 buf)))
    (hcov : Covered before earlier) (p : Phys) :
    ∃ s, loadSegments size buf pml4 nx fuel os p = some s ∧ Fine size before s.evs := by
  induction os generalizing earlier before p with
  | nil => exact ⟨_, rfl, trivial⟩
  | cons o os ih =>
    have ho := hos o (.head _)
    have hrest := fun o' ho' => hos o' (.tail _ ho')
    rw [map_cons, SegsOk] at hsegs
    rw [loadSegments]
    split at hsegs
    next htype =>
      rw [loadSegment, if_pos htype, bind_some, Stage.then, if_pos rfl]
      have hcov' : Covered (before ++ [.read o 4]) earlier := hcov.append_reads (by simp)
      obtain ⟨s, hs, hfine⟩ := ih hrest hsegs hcov' p
      refine ⟨_, by rw [hs, map_some], ?_⟩
      rw [Stage.after, fine_append]
      refine ⟨⟨?_, trivial⟩, hfine⟩
      simp only [EvOk]
      omega
    rename_i htype
    rw [not_not] at htype
    split at hsegs
    next hrefused =>
      obtain ⟨s, hs, hgo, hfine⟩ := loadSegment_refused pml4 nx p before ho htype hrefused
      refine ⟨s, ?_, hfine⟩
      rw [hs, bind_some, Stage.then, hgo, if_neg Bool.false_ne_true]
    rename_i hok
    rw [not_or] at hok
    obtain ⟨s, hs, hfine, hgo⟩ := fine_loadSegment pml4 nx p hfuel ho hcov hsegs.1 htype hok.1 hok.2
    rw [hs, bind_some, Stage.then]
    split
    next hcont =>
      have hcov' : Covered (before ++ s.evs) (phdr64 buf o :: earlier) := by
        rw [hgo hcont]
        exact hcov.append_segEvs hsegs.1.1
      obtain ⟨t, ht, htfine⟩ := ih hrest hsegs.2 hcov' s.phys
      refine ⟨_, by rw [ht, map_some], ?_⟩
      rw [Stage.after, fine_append]
      exact ⟨hfine, htfine⟩
    · exact ⟨s, rfl, hfine⟩

theorem segsOk_of_fine {os : List Nat} (hos : ∀ o ∈ os, o + 56 ≤ size)
    (hcov : Covered before earlier) {p : Phys} (hp : AllPresent p) {s : Stage}
    (hs : loadSegments size buf pml4 nx fuel os p = some s) (hfine : Fine size before s.evs) :
    SegsOk size earlier (os.map (phdr64 buf)) := by
  induction os generalizing earlier before p s with
  | nil => trivial
  | cons o os ih =>
    have ho := hos o (.head _)
    have hrest := fun o' ho' => hos o' (.tail _ ho')
    rw [loadSegments] at hs
    obtain ⟨m, hm, hs⟩ := bind_eq_some_iff.mp hs
    rw [map_cons, SegsOk]
    split
    next htype =>
      rw [loadSegment, if_pos htype] at hm
      cases hm
      rw [Stage.then, if_pos rfl] at hs
      obtain ⟨t, ht, rfl⟩ := map_eq_some_iff.mp hs
      rw [Stage.after, fine_append] at hfine
      exact ih hrest (hcov.append_reads (by simp)) hp ht hfine.2
    next htype =>
      rw [not_not] at htype
      split
      · trivial
      rename_i hok
      rw [not_or] at hok
      obtain ⟨hgo, hevs, hp'⟩ := loadSegment_allPresent hp htype hok.1 hok.2 hm
      rw [Stage.then, if_pos hgo] at hs
      obtain ⟨t, ht, rfl⟩ := map_eq_some_iff.mp hs
      rw [Stage.after, fine_append, hevs] at hfine
      have hseg := (fine_segEvs hcov ho hok.2).mp hfine.1
      exact ⟨hseg, ih hrest (hcov.append_segEvs hseg.1) hp' ht hfine.2⟩

end

/-! ### The file -/

theorem magicOk_iff {size : Nat} {buf : Buf} (hsize : size ≠ 0) : MagicOk size buf ↔
    Fine size [] (checkMagic buf elfMagic).1 ∧
      ((checkMagic buf elfMagic).2 = true → 5 ≤ size) := by
  simp only [MagicOk, checkMagic, elfMagic]
  split_ifs <;> simp_all [Fine, EvOk] <;> omega

theorem ensure_notMem_checkMagic (buf : Buf) (magic : List (Nat × UInt8)) (page : Nat) :
    ensure page ∉ (checkMagic buf magic).1 := by
  induction magic with
  | nil => simp [checkMagic]
  | cons head magic ih =>
    simp only [checkMagic]
    split <;> simp [ih]

theorem phdrOffsets_le {size phoff phnum : Nat} (hphoff : phoff ≤ size)
    (h : phnum * 56 ≤ size - phoff) : ∀ o ∈ phdrOffsets phoff phnum 56, o + 56 ≤ size := by
  intro o ho
  obtain ⟨i, hi, rfl⟩ := mem_map.mp ho
  have := mem_range.mp hi
  omega

theorem covered_nil {before : List Ev} (h : ∀ page, ensure page ∉ before) : Covered before [] := by
  refine ⟨fun b => ?_, fun g hg => absurd hg not_mem_nil⟩
  simp [h]

section

variable {size : Nat} {buf : Buf} {before : List Ev}

theorem fine_loadElf64 (hbefore : ∀ page, ensure page ∉ before) (hok : HeaderOk size buf)
    (pml4 nx : Nat) (wantStack : Bool) (p : Phys) :
    ∃ r, loadElf64 size buf pml4 nx (2 ^ 52) wantStack p = some r ∧ Fine size before r.evs ∧
      (r.entry = 0 ∨ r.entry = eEntry64 buf) := by
  unfold loadElf64
  split
  · exact ⟨_, rfl, trivial, .inl rfl⟩
  split
  · exact ⟨_, rfl, ⟨hok.1, trivial⟩, .inl rfl⟩
  rename_i hin
  have hphoff := not_lt.mp hin
  obtain ⟨hsize, hsegs⟩ := hok.2 hphoff
  split
  · exact ⟨_, rfl, ⟨hok.1, hsize, trivial⟩, .inl rfl⟩
  rename_i hnum
  have hphnum := not_lt.mp hnum
  have hcov : Covered (before ++ [.read 32 8, .read 56 2]) [] :=
    covered_nil fun page => by simp [hbefore page]
  obtain ⟨s, hs, hfine⟩ := fine_loadSegments pml4 nx (Nat.le_refl (2 ^ 52))
    (phdrOffsets_le hphoff hphnum) (hsegs hphnum) hcov p
  have hevs : Fine size before ([.read 32 8, .read 56 2] ++ s.evs) :=
    fine_append.mpr ⟨⟨hok.1, hsize, trivial⟩, hfine⟩
  have hentry : Fine size before ([.read 32 8, .read 56 2] ++ s.evs ++ [.read 24 8]) := by
    refine fine_append.mpr ⟨hevs, ?_, trivial⟩
    simp only [EvOk]
    omega
  rw [hs, map_some]
  refine ⟨_, rfl, ?_⟩
  split
  · exact ⟨hevs, .inl rfl⟩
  · split
    · exact ⟨hentry, .inr rfl⟩
    · split
      · exact ⟨hentry, .inl rfl⟩
      · exact ⟨hentry, .inr rfl⟩

theorem headerOk_of_fine (hbefore : ∀ page, ensure page ∉ before) {pml4 nx fuel : Nat}
    (hpml4 : pml4 ≠ physNull) {p : Phys} (hp : AllPresent p) {r : Loaded}
    (hr : loadElf64 size buf pml4 nx fuel false p = some r) (hfine : Fine size before r.evs) :
    HeaderOk size buf := by
  rw [loadElf64, if_neg hpml4] at hr
  split at hr
  next hout =>
    cases hr
    exact ⟨hfine.1, fun hin => absurd hin (Nat.not_le_of_lt hout)⟩
  rename_i hin
  split at hr
  next hnum =>
    cases hr
    exact ⟨hfine.1, fun _ => ⟨hfine.2.1, fun h => absurd h (Nat.not_le_of_lt hnum)⟩⟩
  rename_i hnum
  obtain ⟨s, hs, rfl⟩ := map_eq_some_iff.mp hr
  have hevs : Fine size before ([.read 32 8, .read 56 2] ++ s.evs) := by
    simp only [Bool.not_false, if_true] at hfine
    split at hfine
    · exact hfine
    · exact (fine_append.mp hfine).1
  obtain ⟨⟨h40, h58, -⟩, hsegs⟩ := fine_append.mp hevs
  have hcov : Covered (before ++ [.read 32 8, .read 56 2]) [] :=
    covered_nil fun page => by simp [hbefore page]
  exact ⟨h40, fun _ => ⟨h58, fun _ => segsOk_of_fine (phdrOffsets_le (not_lt.mp hin)
    (not_lt.mp hnum)) hcov hp hs hsegs⟩⟩

end

/-- Every table is the table at 0x1000, whose entries all lead back to it. -/
def fullPhys : Phys where
  mem _ _ := 0x1007
  bitmap _ := true
  bitmapPages := 0
  totalPages := 0
  usedPages := 0
  nextFreeHint := 0
  currentPml4 := 0x1000

theorem fullPhys_allPresent : AllPresent fullPhys := fun _ _ =>
  show testBit 0x1007 0 = true by decide

theorem ensure_notMem_class (buf : Buf) (page : Nat) :
    ensure page ∉ [] ++ ((checkMagic buf elfMagic).1 ++ [.read 4 1]) := by
  simp [ensure_notMem_checkMagic]

/-- The load into `fullPhys` comes to every header that counts. -/
theorem LoadSafe.fileOk {fileLen : Nat} {buf : Buf} (hsafe : LoadSafe fileLen buf) :
    FileOk (fileLen % 2 ^ 32) buf := by
  intro hsize h32
  obtain ⟨fuel, r, hr, hfine, -⟩ := hsafe h32 fullPhys 0x1000 0 true false
  rw [elfLoadFile] at hr
  simp only [hsize, if_false, Bool.not_true, Bool.false_eq_true] at hr
  rw [magicOk_iff hsize]
  split at hr
  next hmagic =>
    cases hr
    rw [Bool.not_eq_true'] at hmagic
    exact ⟨⟨hfine, fun h => (by cases hmagic.symm.trans h)⟩,
      fun h => (by cases hmagic.symm.trans h)⟩
  rename_i hmatch
  have hstart : Fine (fileLen % 2 ^ 32) [] ((checkMagic buf elfMagic).1 ++ [.read 4 1]) ∧
      (buf 4 = elfClass64 → HeaderOk (fileLen % 2 ^ 32) buf) := by
    split at hr
    · obtain ⟨q, hq, rfl⟩ := map_eq_some_iff.mp hr
      obtain ⟨hhead, hrest⟩ := fine_append.mp hfine
      exact ⟨hhead, fun _ => headerOk_of_fine (ensure_notMem_class buf) (by decide)
        fullPhys_allPresent hq hrest⟩
    next hnot64 =>
      split at hr
      next his32 => exact absurd ⟨by simpa using hmatch, his32⟩ h32
      · cases hr
        exact ⟨hfine, fun h => absurd h hnot64⟩
  obtain ⟨hmagic, hread, -⟩ := fine_append.mp hstart.1
  exact ⟨⟨hmagic, fun _ => hread⟩, fun _ => hstart.2⟩

theorem FileOk.loadSafe {fileLen : Nat} {buf : Buf} (hok : FileOk (fileLen % 2 ^ 32) buf) :
    LoadSafe fileLen buf := by
  intro h32 p pml4 nx heapOk wantStack
  refine ⟨2 ^ 52, ?_⟩
  rw [elfLoadFile]
  split
  · exact ⟨_, rfl, trivial, .inl rfl⟩
  rename_i hsize
  obtain ⟨hmagic, hheader⟩ := hok hsize h32
  rw [magicOk_iff hsize] at hmagic
  split
  · exact ⟨_, rfl, trivial, .inl rfl⟩
  split
  · exact ⟨_, rfl, hmagic.1, .inl rfl⟩
  rename_i hmatch
  have htrue : (checkMagic buf elfMagic).2 = true := by simpa using hmatch
  have hhead : Fine (fileLen % 2 ^ 32) [] ((checkMagic buf elfMagic).1 ++ [.read 4 1]) :=
    fine_append.mpr ⟨hmagic.1, hmagic.2 htrue, trivial⟩
  split
  next h64 =>
    obtain ⟨r, hr, hfine, hentry⟩ := fine_loadElf64 (ensure_notMem_class buf) (hheader htrue h64)
      pml4 nx wantStack p
    rw [hr, map_some]
    exact ⟨_, rfl, fine_append.mpr ⟨hhead, hfine⟩, hentry⟩
  · split
    next his32 => exact absurd ⟨htrue, his32⟩ h32
    · exact ⟨_, rfl, hhead, .inl rfl⟩

/-- An ELF64 file of 121 bytes. Its one segment goes to the start of the higher
half, where the kernel's tables are. -/
def kernelSegment : Buf :=
  let magic : Buf := fun i => [0x7F, 69, 76, 70, 2].getD i 0
  let header := putLe (putLe (putLe magic 24 8 0x400000) 32 8 64) 56 2 1
  let segment := putLe (putLe (putLe header 64 4 1) 72 8 120) 80 8 0xFFFF800000000000
  putLe (putLe segment 96 8 1) 104 8 1

end Kyuzen.Proc
