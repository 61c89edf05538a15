import Kyuzen.Mm.Page

/-!
The copies of `usercopy.c` across the user boundary. A page is accepted when the
walk finds it present. Whether the caller itself may read or write it is a
question of more bits than the walk looks at.
-/

namespace Kyuzen.Mm

open Nat List

variable {a cap len usrc : Nat}

def ucUserVaMax : Nat := 0x0000800000000000
def ucMaxRange : Nat := 64 * 1024 * 1024

structure UcopyCtx where
  fromUser : Bool
  pml4 : Nat

/-- What the calls see: the page tables, the kernel's PML4 and the bytes at each
address of the caller's address space. -/
structure View where
  tables : Tables
  currentPml4 : Nat
  bytes : Nat → UInt8

def View.mapped (v : View) (ctx : UcopyCtx) (va : Nat) : Bool :=
  pagingIsMappedInto v.tables v.currentPml4 va ctx.pml4

/-- The page loop of `user_range_ok`. -/
def rangeLoop (mapped : Nat → Bool) : Nat → Nat → Nat → Bool
  | 0, _, _ => false
  | fuel + 1, p, last =>
    if !mapped p then false
    else if p = last then true
    else rangeLoop mapped fuel ((p + 4096) % 2 ^ 64) last

def userRangeOk (v : View) (ctx : UcopyCtx) (uaddr len : Nat) : Bool :=
  if uaddr = 0 then false
  else if len = 0 then true
  else if len > ucMaxRange then false
  else if (uaddr + len) % 2 ^ 64 < uaddr then false
  else if !ctx.fromUser then true
  else if uaddr ≥ ucUserVaMax ∨ len > ucUserVaMax - uaddr then false
  else
    let first := pageOf uaddr
    let last := pageOf (uaddr + len - 1)
    rangeLoop (v.mapped ctx) ((last - first) / 4096 + 1) first last

/-- `copy_from_user` with what it leaves in the kernel buffer. -/
def copyFromUser (v : View) (ctx : UcopyCtx) (usrc len : Nat) : Int × List UInt8 :=
  if !userRangeOk v ctx usrc len then (-1, [])
  else (0, (range len).map fun i => v.bytes (usrc + i))

/-- `copy_to_user` with the bytes of the address space afterwards. -/
def copyToUser (v : View) (ctx : UcopyCtx) (udst : Nat) (data : List UInt8) : Int × (Nat → UInt8) :=
  if !userRangeOk v ctx udst data.length then (-1, v.bytes)
  else (0, fun a => if udst ≤ a then data.getD (a - udst) (v.bytes a) else v.bytes a)

/-- The end of `strncpy_from_user`: the result, the bytes in the kernel buffer
and the user addresses that were read. -/
structure StrCopy where
  ret : Int
  dest : List UInt8
  reads : List Nat

/-- The loop for ring 3, with `todo` bytes of room left. -/
def strncpyLoop (v : View) (ctx : UcopyCtx) (usrc : Nat) :
    Nat → Nat → Nat → List UInt8 → List Nat → StrCopy
  | 0, i, _, dest, reads => ⟨i, dest ++ [0], reads⟩
  | todo + 1, i, checked, dest, reads =>
    let addr := (usrc + i) % 2 ^ 64
    if addr < usrc then ⟨-1, dest, reads⟩
    else
      let page := pageOf addr
      if page ≠ checked ∧ (page ≥ ucUserVaMax ∨ v.mapped ctx page = false) then
        ⟨-1, dest, reads⟩
      else
        let c := v.bytes addr
        if c = 0 then ⟨i, dest ++ [0], reads ++ [addr]⟩
        else strncpyLoop v ctx usrc todo (i + 1) page (dest ++ [c]) (reads ++ [addr])

/-- The loop for ring 0 reads without a check. -/
def strncpyKernel (v : View) (usrc : Nat) : Nat → Nat → List UInt8 → List Nat → StrCopy
  | 0, i, dest, reads => ⟨i, dest ++ [0], reads⟩
  | todo + 1, i, dest, reads =>
    let c := v.bytes (usrc + i)
    if c = 0 then ⟨i, dest ++ [0], reads ++ [usrc + i]⟩
    else strncpyKernel v usrc todo (i + 1) (dest ++ [c]) (reads ++ [usrc + i])

def strncpyFromUser (v : View) (ctx : UcopyCtx) (usrc cap : Nat) : StrCopy :=
  if usrc = 0 ∨ cap = 0 then ⟨-1, [], []⟩
  else if !ctx.fromUser then strncpyKernel v usrc (cap - 1) 0 [] []
  else strncpyLoop v ctx usrc (cap - 1) 0 1 [] []

/-! ### What the calls are for -/

/-- The caller of ring 3 may read, or write, the byte at `a`. -/
def View.UserByte (v : View) (ctx : UcopyCtx) (write : Bool) (a : Nat) : Prop :=
  a < ucUserVaMax ∧
    userAccess v.tables (if ctx.pml4 ≠ 0 then ctx.pml4 else v.currentPml4) a write = true

/-- The entries on the way to the byte at `a` carry the flags for ring 3. -/
def View.Grants (v : View) (ctx : UcopyCtx) (write : Bool) (a : Nat) : Prop :=
  entriesGrant v.tables (if ctx.pml4 ≠ 0 then ctx.pml4 else v.currentPml4) a write = true

def View.Plain (v : View) (ctx : UcopyCtx) (a : Nat) : Prop :=
  PlainWalk v.tables (if ctx.pml4 ≠ 0 then ctx.pml4 else v.currentPml4) a

instance (v : View) (ctx : UcopyCtx) (write : Bool) (a : Nat) :
    Decidable (v.Grants ctx write a) := inferInstanceAs (Decidable (_ = true))

instance (v : View) (ctx : UcopyCtx) (a : Nat) : Decidable (v.Plain ctx a) :=
  inferInstanceAs (Decidable (PlainWalk _ _ _))

def ReadSound (v : View) (ctx : UcopyCtx) (usrc len : Nat) : Prop :=
  (copyFromUser v ctx usrc len).1 = 0 →
    ∀ a, usrc ≤ a → a < usrc + len → v.UserByte ctx false a

def WriteSound (v : View) (ctx : UcopyCtx) (udst : Nat) (data : List UInt8) : Prop :=
  (copyToUser v ctx udst data).1 = 0 →
    ∀ a, udst ≤ a → a < udst + data.length → v.UserByte ctx true a

/-- The string at `usrc`, cut to `cap - 1` bytes, is `n` bytes long and readable,
with its end when it is not cut. -/
def StringAt (v : View) (ctx : UcopyCtx) (usrc cap n : Nat) : Prop :=
  n ≤ cap - 1 ∧ (∀ i < n, v.UserByte ctx false (usrc + i) ∧ v.bytes (usrc + i) ≠ 0) ∧
    (n = cap - 1 ∨ v.UserByte ctx false (usrc + n) ∧ v.bytes (usrc + n) = 0)

def StringSound (v : View) (ctx : UcopyCtx) (usrc cap : Nat) : Prop :=
  let r := strncpyFromUser v ctx usrc cap
  (∀ a ∈ r.reads, v.UserByte ctx false a) ∧ (0 ≤ r.ret ↔ ∃ n, StringAt v ctx usrc cap n) ∧
    ∀ n, StringAt v ctx usrc cap n →
      r.ret = n ∧ r.dest = (range n).map (fun i => v.bytes (usrc + i)) ++ [0]

/-- A range within the limits of `user_range_ok`, with all of its pages present. -/
def Backed (v : View) (ctx : UcopyCtx) (uaddr len : Nat) : Prop :=
  uaddr ≠ 0 ∧ len ≤ ucMaxRange ∧ uaddr + len ≤ ucUserVaMax ∧
    ∀ a, uaddr ≤ a → a < uaddr + len → v.mapped ctx a = true

/-- The string goes on up to its byte `i`, and all pages up to there are present. -/
def Reached (v : View) (ctx : UcopyCtx) (usrc cap i : Nat) : Prop :=
  i < cap - 1 ∧ (∀ j < i, v.bytes (usrc + j) ≠ 0) ∧
    ∀ j ≤ i, usrc + j < ucUserVaMax ∧ v.mapped ctx (usrc + j) = true

variable {v : View} {ctx : UcopyCtx} {write : Bool}

theorem userByte_iff (hplain : v.Plain ctx a) : v.UserByte ctx write a ↔
    a < ucUserVaMax ∧ v.mapped ctx a = true ∧ v.Grants ctx write a := by
  unfold View.UserByte
  rw [userAccess_eq hplain, Bool.and_eq_true]
  rfl

theorem mapped_pageOf (a : Nat) : v.mapped ctx (pageOf a) = v.mapped ctx a :=
  walkIsMapped_pageOf _ _ _

/-! ### Ranges -/

theorem rangeLoop_iff {mapped : Nat → Bool} {n p : Nat} (hp : p + n * 4096 < 2 ^ 64) :
    rangeLoop mapped (n + 1) p (p + n * 4096) = true ↔ ∀ k ≤ n, mapped (p + k * 4096) = true := by
  induction n generalizing p with
  | zero =>
    unfold rangeLoop
    cases hm : mapped p with
    | false => simp [hm]
    | true =>
      simp only [Bool.not_true, Bool.false_eq_true, if_false, Nat.zero_mul, Nat.add_zero,
        if_true, true_iff]
      intro k hk
      obtain rfl := le_zero.mp hk
      exact hm
  | succ n ih =>
    have hnext : p + (n + 1) * 4096 = p + 4096 + n * 4096 := by omega
    have hstep := ih (p := p + 4096) (by omega)
    have hmod : (p + 4096) % 2 ^ 64 = p + 4096 := mod_eq_of_lt (by omega)
    unfold rangeLoop
    rw [if_neg (show ¬ p = p + (n + 1) * 4096 by omega), hmod, hnext]
    cases hm : mapped p with
    | false =>
      simp only [Bool.not_false, if_true, Bool.false_eq_true, false_iff, not_forall]
      exact ⟨0, Nat.zero_le _, by simp [hm]⟩
    | true =>
      simp only [Bool.not_true, Bool.false_eq_true, if_false]
      rw [hstep]
      refine ⟨fun h k hk => ?_, fun h k hk => ?_⟩
      · rcases Nat.eq_zero_or_pos k with rfl | hpos
        · exact hm
        · have := h (k - 1) (by omega)
          rwa [show p + 4096 + (k - 1) * 4096 = p + k * 4096 by omega] at this
      · have := h (k + 1) (by omega)
        rwa [show p + (k + 1) * 4096 = p + 4096 + k * 4096 by ring] at this

/-- A byte of the `k`-th page of a range: the first one of the range, or the first of the page. -/
theorem exists_byte_of_page {uaddr len k : Nat} (hlen : len ≠ 0)
    (hk : pageOf uaddr + k * 4096 ≤ uaddr + len - 1) :
    ∃ b, uaddr ≤ b ∧ b < uaddr + len ∧ pageOf b = pageOf uaddr + k * 4096 := by
  rcases Nat.eq_zero_or_pos k with rfl | hpos
  · exact ⟨uaddr, le_rfl, by omega, by simp⟩
  refine ⟨pageOf uaddr + k * 4096, ?_, by omega, ?_⟩
  · unfold pageOf
    omega
  · unfold pageOf
    rw [← add_mul, Nat.mul_div_cancel _ (by decide)]

theorem userRangeOk_iff (hring : ctx.fromUser = true) {uaddr : Nat} (hlen : len ≠ 0) :
    userRangeOk v ctx uaddr len = true ↔ Backed v ctx uaddr len := by
  have hmax : ucUserVaMax < 2 ^ 64 := by decide
  unfold userRangeOk Backed
  rw [if_neg hlen, hring]
  simp only [Bool.not_true, Bool.false_eq_true, if_false]
  by_cases hzero : uaddr = 0
  · simp [hzero]
  rw [if_neg hzero]
  by_cases hbig : len > ucMaxRange
  · rw [if_pos hbig]
    simp only [Bool.false_eq_true, false_iff]
    omega
  rw [if_neg hbig]
  by_cases htop : uaddr ≥ ucUserVaMax ∨ len > ucUserVaMax - uaddr
  · rw [if_pos htop]
    simp only [ite_self, Bool.false_eq_true, false_iff]
    omega
  have hwrap : ¬ (uaddr + len) % 2 ^ 64 < uaddr := by
    rw [mod_eq_of_lt (by omega)]
    omega
  rw [if_neg hwrap, if_neg htop]
  -- the pages of the range are those of its bytes
  have hle : pageOf uaddr ≤ pageOf (uaddr + len - 1) := by
    unfold pageOf
    omega
  obtain ⟨n, hn⟩ : ∃ n, pageOf (uaddr + len - 1) = pageOf uaddr + n * 4096 := by
    refine ⟨(uaddr + len - 1) / 4096 - uaddr / 4096, ?_⟩
    unfold pageOf
    omega
  have hcount : (pageOf (uaddr + len - 1) - pageOf uaddr) / 4096 + 1 = n + 1 := by
    rw [hn]
    omega
  have hlast := pageOf_le (uaddr + len - 1)
  rw [hcount, hn, rangeLoop_iff (by omega)]
  refine ⟨fun h => ⟨hzero, by omega, by omega, fun a ha hlt => ?_⟩, fun h k hk => ?_⟩
  · have hk := h (a / 4096 - uaddr / 4096) (by unfold pageOf at hn; omega)
    rw [show pageOf uaddr + (a / 4096 - uaddr / 4096) * 4096 = pageOf a by
      unfold pageOf; omega, mapped_pageOf] at hk
    exact hk
  obtain ⟨b, hb, hb', hpage⟩ := @exists_byte_of_page uaddr len k hlen (by omega)
  have hmap := h.2.2.2 b hb hb'
  rwa [← mapped_pageOf, hpage] at hmap

/-- An accepted range is open to the caller exactly when the flags are there. -/
theorem userRangeOk_sound_iff (hring : ctx.fromUser = true) {uaddr : Nat}
    (hplain : ∀ a, uaddr ≤ a → a < uaddr + len → v.Plain ctx a) :
    (userRangeOk v ctx uaddr len = true → ∀ a, uaddr ≤ a → a < uaddr + len →
      v.UserByte ctx write a) ↔
    (Backed v ctx uaddr len → ∀ a, uaddr ≤ a → a < uaddr + len → v.Grants ctx write a) := by
  rcases Nat.eq_zero_or_pos len with rfl | hpos
  · exact iff_of_true (fun _ a ha hlt => by omega) fun _ a ha hlt => by omega
  rw [userRangeOk_iff hring (by omega)]
  refine forall_congr' fun hback => forall_congr' fun a => forall_congr' fun ha =>
    forall_congr' fun hlt => ?_
  rw [userByte_iff (hplain a ha hlt)]
  have hmap := hback.2.2.2 a ha hlt
  have htop := hback.2.2.1
  exact ⟨fun h => h.2.2, fun h => ⟨by omega, hmap, h⟩⟩

theorem copyFromUser_eq_zero :
    (copyFromUser v ctx usrc len).1 = 0 ↔ userRangeOk v ctx usrc len = true := by
  unfold copyFromUser
  cases userRangeOk v ctx usrc len <;> simp

theorem copyToUser_eq_zero {udst : Nat} {data : List UInt8} :
    (copyToUser v ctx udst data).1 = 0 ↔ userRangeOk v ctx udst data.length = true := by
  unfold copyToUser
  cases userRangeOk v ctx udst data.length <;> simp

/-! ### Strings -/

theorem StringAt.unique {n n' : Nat} (h : StringAt v ctx usrc cap n)
    (h' : StringAt v ctx usrc cap n') : n = n' := by
  have hnot : ∀ {m m' : Nat}, StringAt v ctx usrc cap m → StringAt v ctx usrc cap m' → ¬ m < m' := by
    intro m m' hm hm' hlt
    rcases hm.2.2 with hfull | ⟨-, hend⟩
    · have := hm'.1
      omega
    · exact (hm'.2.1 m hlt).2 hend
  have := hnot h h'
  have := hnot h' h
  omega

/-- A byte that cannot be read ends the search. -/
theorem not_stringAt {i : Nat} (hi : i < cap - 1) (hbefore : ∀ j < i, v.bytes (usrc + j) ≠ 0)
    (hbyte : ¬ v.UserByte ctx false (usrc + i)) :
    ¬ ∃ n, StringAt v ctx usrc cap n := by
  rintro ⟨n, hle, hall, hend⟩
  rcases lt_trichotomy n i with hlt | rfl | hgt
  · rcases hend with hfull | ⟨-, hzero⟩
    · omega
    · exact hbefore n hlt hzero
  · rcases hend with hfull | ⟨hread, -⟩
    · omega
    · exact hbyte hread
  · exact hbyte (hall i hgt).1

/-- The first `n` addresses of the string, as they are read. -/
def addrs (usrc n : Nat) : List Nat := (range n).map (usrc + ·)

def bytesFrom (v : View) (usrc n : Nat) : List UInt8 := (range n).map fun i => v.bytes (usrc + i)

/-- The three ends of the loop: the room is used up, the string has ended, or
a page is refused. -/
inductive StrSpec (v : View) (ctx : UcopyCtx) (usrc cap : Nat) : StrCopy → Prop
  | cut (hshown : ∀ j < cap - 1, Reached v ctx usrc cap j ∧ v.bytes (usrc + j) ≠ 0) :
    StrSpec v ctx usrc cap
      ⟨(cap - 1 : Nat), bytesFrom v usrc (cap - 1) ++ [0], addrs usrc (cap - 1)⟩
  | ended (n : Nat) (hshown : ∀ j < n, Reached v ctx usrc cap j ∧ v.bytes (usrc + j) ≠ 0)
    (hlast : Reached v ctx usrc cap n) (hzero : v.bytes (usrc + n) = 0) :
    StrSpec v ctx usrc cap ⟨n, bytesFrom v usrc n ++ [0], addrs usrc (n + 1)⟩
  | refused (n : Nat) (hn : n < cap - 1)
    (hshown : ∀ j < n, Reached v ctx usrc cap j ∧ v.bytes (usrc + j) ≠ 0)
    (hbad : ¬ (usrc + n < ucUserVaMax ∧ v.mapped ctx (usrc + n) = true)) :
    StrSpec v ctx usrc cap ⟨-1, bytesFrom v usrc n, addrs usrc n⟩

theorem reached_of_shown {i : Nat} (hi : i < cap - 1)
    (hshown : ∀ j < i, Reached v ctx usrc cap j ∧ v.bytes (usrc + j) ≠ 0)
    (hpage : usrc + i < ucUserVaMax ∧ v.mapped ctx (usrc + i) = true) :
    Reached v ctx usrc cap i := by
  refine ⟨hi, fun j hj => (hshown j hj).2, fun j hj => ?_⟩
  rcases Nat.lt_or_eq_of_le hj with hlt | rfl
  · exact (hshown j hlt).1.2.2 j le_rfl
  · exact hpage

theorem pageOf_lt_userVaMax {a : Nat} : pageOf a < ucUserVaMax ↔ a < ucUserVaMax := by
  unfold pageOf ucUserVaMax
  omega

/-- The page of `a` is below the limit and mapped, just checked or checked before. -/
theorem page_checked {a checked : Nat}
    (hchecked : ∀ a, pageOf a = checked → a < ucUserVaMax ∧ v.mapped ctx a = true)
    (hpage : ¬ (pageOf a ≠ checked ∧ (pageOf a ≥ ucUserVaMax ∨ v.mapped ctx (pageOf a) = false))) :
    a < ucUserVaMax ∧ v.mapped ctx a = true := by
  by_cases hsame : pageOf a = checked
  · exact hchecked a hsame
  have hnew : ¬ (pageOf a ≥ ucUserVaMax ∨ v.mapped ctx (pageOf a) = false) :=
    fun h => hpage ⟨hsame, h⟩
  rw [not_or, mapped_pageOf, Bool.not_eq_false, not_le, pageOf_lt_userVaMax] at hnew
  exact hnew

theorem strncpyLoop_spec (todo i checked : Nat) (hcap : cap - 1 = i + todo)
    (hshown : ∀ j < i, Reached v ctx usrc cap j ∧ v.bytes (usrc + j) ≠ 0)
    (hchecked : ∀ a, pageOf a = checked → a < ucUserVaMax ∧ v.mapped ctx a = true) :
    StrSpec v ctx usrc cap
      (strncpyLoop v ctx usrc todo i checked (bytesFrom v usrc i) (addrs usrc i)) := by
  induction todo generalizing i checked with
  | zero =>
    obtain rfl : i = cap - 1 := by omega
    exact .cut hshown
  | succ todo ih =>
    have hi : i < cap - 1 := by omega
    have hmax : ucUserVaMax < 2 ^ 64 := by decide
    unfold strncpyLoop
    dsimp only
    split
    next hwrap =>
      refine .refused i hi hshown fun hpage => ?_
      rw [Nat.mod_eq_of_lt (by omega)] at hwrap
      omega
    rename_i hwrap
    split
    next hpage =>
      refine .refused i hi hshown fun hok => ?_
      rw [Nat.mod_eq_of_lt (by omega)] at hpage
      rcases hpage.2 with hhigh | hunmapped
      · have := pageOf_le (usrc + i)
        omega
      · rw [mapped_pageOf, hok.2] at hunmapped
        cases hunmapped
    rename_i hpage
    have hok := page_checked hchecked hpage
    -- the bytes before this one lie below the limit, so the sum did not wrap
    have haddr : (usrc + i) % 2 ^ 64 = usrc + i := by
      cases i with
      | zero => omega
      | succ j =>
        have := ((hshown j (Nat.lt_succ_self j)).1.2.2 j le_rfl).1
        omega
    rw [haddr] at hok ⊢
    have hreached := reached_of_shown hi hshown hok
    have hreads : addrs usrc i ++ [usrc + i] = addrs usrc (i + 1) := by
      simp [addrs, List.range_succ]
    have hdest : bytesFrom v usrc i ++ [v.bytes (usrc + i)] = bytesFrom v usrc (i + 1) := by
      simp [bytesFrom, List.range_succ]
    rw [hreads, hdest]
    split
    next hend => exact .ended i hshown hreached hend
    rename_i hmore
    refine ih (i + 1) _ (by omega) (fun j hj => ?_) fun a ha => ?_
    · rcases Nat.lt_succ_iff_lt_or_eq.mp hj with hlt | rfl
      · exact hshown j hlt
      · exact ⟨hreached, hmore⟩
    · rw [← mapped_pageOf, ← pageOf_lt_userVaMax, ha, mapped_pageOf, pageOf_lt_userVaMax]
      exact hok

theorem strncpyFromUser_spec (hring : ctx.fromUser = true) (husrc : usrc ≠ 0) (hcap : cap ≠ 0) :
    StrSpec v ctx usrc cap (strncpyFromUser v ctx usrc cap) := by
  unfold strncpyFromUser
  rw [if_neg (by omega), hring]
  refine strncpyLoop_spec (cap - 1) 0 1 (by omega) (fun j hj => absurd hj (Nat.not_lt_zero j))
    fun a ha => ?_
  have := pageOf_mod a
  omega

theorem mem_addrs {n : Nat} : a ∈ addrs usrc n ↔ ∃ i < n, a = usrc + i := by
  simp [addrs, eq_comm]

/-- The loop reads exactly the bytes it can reach. -/
theorem StrSpec.mem_reads {r : StrCopy} (h : StrSpec v ctx usrc cap r) :
    a ∈ r.reads ↔ ∃ i, Reached v ctx usrc cap i ∧ a = usrc + i := by
  cases h with
  | cut hshown =>
    rw [mem_addrs]
    constructor
    · rintro ⟨i, hi, ha⟩
      exact ⟨i, (hshown i hi).1, ha⟩
    · rintro ⟨i, hi, ha⟩
      exact ⟨i, hi.1, ha⟩
  | ended n hshown hlast hzero =>
    rw [mem_addrs]
    constructor
    · rintro ⟨i, hi, ha⟩
      rcases Nat.lt_succ_iff_lt_or_eq.mp hi with hlt | rfl
      · exact ⟨i, (hshown i hlt).1, ha⟩
      · exact ⟨i, hlast, ha⟩
    · rintro ⟨i, hi, ha⟩
      refine ⟨i, ?_, ha⟩
      by_contra hgt
      exact hi.2.1 n (by omega) hzero
  | refused n hn hshown hbad =>
    rw [mem_addrs]
    constructor
    · rintro ⟨i, hi, ha⟩
      exact ⟨i, (hshown i hi).1, ha⟩
    · rintro ⟨i, hi, ha⟩
      refine ⟨i, ?_, ha⟩
      by_contra hge
      exact hbad (hi.2.2 n (by omega))

/-- With the flags on all it can reach, the copy finds the string or there is none. -/
theorem StrSpec.result {r : StrCopy} (h : StrSpec v ctx usrc cap r)
    (hplain : ∀ i < cap - 1, v.Plain ctx (usrc + i))
    (hread : ∀ i, Reached v ctx usrc cap i → v.UserByte ctx false (usrc + i)) :
    (∃ n : Nat, StringAt v ctx usrc cap n ∧ r.ret = n ∧ r.dest = bytesFrom v usrc n ++ [0]) ∨
      r.ret = -1 ∧ ¬ ∃ n, StringAt v ctx usrc cap n := by
  have hseen : ∀ {n : Nat}, (∀ j < n, Reached v ctx usrc cap j ∧ v.bytes (usrc + j) ≠ 0) →
      ∀ j < n, v.UserByte ctx false (usrc + j) ∧ v.bytes (usrc + j) ≠ 0 :=
    fun hshown j hj => ⟨hread j (hshown j hj).1, (hshown j hj).2⟩
  cases h with
  | cut hshown => exact .inl ⟨cap - 1, ⟨le_rfl, hseen hshown, .inl rfl⟩, rfl, rfl⟩
  | ended n hshown hlast hzero =>
    exact .inl ⟨n, ⟨hlast.1.le, hseen hshown, .inr ⟨hread n hlast, hzero⟩⟩, rfl, rfl⟩
  | refused n hn hshown hbad =>
    refine .inr ⟨rfl, not_stringAt hn (fun j hj => (hshown j hj).2) fun hbyte => hbad ?_⟩
    obtain ⟨htop, hmap, -⟩ := (userByte_iff (hplain n hn)).mp hbyte
    exact ⟨htop, hmap⟩

theorem stringSound_iff (hring : ctx.fromUser = true) (husrc : usrc ≠ 0) (hcap : cap ≠ 0)
    (hplain : ∀ i < cap - 1, v.Plain ctx (usrc + i)) : StringSound v ctx usrc cap ↔
      ∀ i, Reached v ctx usrc cap i → v.Grants ctx false (usrc + i) := by
  have hloop := strncpyFromUser_spec (v := v) hring husrc hcap
  refine ⟨fun h i hi => ?_, fun h => ?_⟩
  · have hbyte := h.1 _ (hloop.mem_reads.mpr ⟨i, hi, rfl⟩)
    exact ((userByte_iff (hplain i hi.1)).mp hbyte).2.2
  have hread : ∀ i, Reached v ctx usrc cap i → v.UserByte ctx false (usrc + i) := by
    intro i hi
    obtain ⟨htop, hmap⟩ := hi.2.2 i le_rfl
    exact (userByte_iff (hplain i hi.1)).mpr ⟨htop, hmap, h i hi⟩
  have hres := hloop.result hplain hread
  refine ⟨fun a ha => ?_, ?_, fun n hn => ?_⟩
  · obtain ⟨i, hi, rfl⟩ := hloop.mem_reads.mp ha
    exact hread i hi
  · rcases hres with ⟨n, hn, hret, -⟩ | ⟨hret, hnone⟩
    · exact iff_of_true (by omega) ⟨n, hn⟩
    · exact iff_of_false (by omega) hnone
  · rcases hres with ⟨n', hn', hret, hdest⟩ | ⟨-, hnone⟩
    · rw [hn.unique hn']
      exact ⟨hret, hdest⟩
    · exact absurd ⟨n, hn⟩ hnone

/-- Each copy is sound exactly when the flags for ring 3 are set on its own pages,
or its range is not all there and is refused. The string copy looks only at the
bytes up to the end of the string. -/
theorem boundary_copies_sound_iff (v : View) (pml4 : Nat) :
    (∀ usrc len, (∀ a, usrc ≤ a → a < usrc + len → v.Plain ⟨true, pml4⟩ a) →
      (ReadSound v ⟨true, pml4⟩ usrc len ↔ (Backed v ⟨true, pml4⟩ usrc len →
        ∀ a, usrc ≤ a → a < usrc + len → v.Grants ⟨true, pml4⟩ false a))) ∧
    (∀ udst data, (∀ a, udst ≤ a → a < udst + data.length → v.Plain ⟨true, pml4⟩ a) →
      (WriteSound v ⟨true, pml4⟩ udst data ↔ (Backed v ⟨true, pml4⟩ udst data.length →
        ∀ a, udst ≤ a → a < udst + data.length → v.Grants ⟨true, pml4⟩ true a))) ∧
    ∀ usrc cap, usrc ≠ 0 → cap ≠ 0 → (∀ i < cap - 1, v.Plain ⟨true, pml4⟩ (usrc + i)) →
      (StringSound v ⟨true, pml4⟩ usrc cap ↔
        ∀ i, Reached v ⟨true, pml4⟩ usrc cap i → v.Grants ⟨true, pml4⟩ false (usrc + i)) := by
  refine ⟨fun usrc len hplain => ?_, fun udst data hplain => ?_,
    fun usrc cap husrc hcap hplain => stringSound_iff rfl husrc hcap hplain⟩
  · unfold ReadSound
    rw [copyFromUser_eq_zero]
    exact userRangeOk_sound_iff rfl hplain
  · unfold WriteSound
    rw [copyToUser_eq_zero]
    exact userRangeOk_sound_iff rfl hplain

/-- Page 0x400000 of the space at 0x1000 is read-only for the user, the next one
is a page of the kernel. -/
def textView : View where
  tables base i :=
    match base, i with
    | 0x1000, 0 => 0x2007
    | 0x2000, 0 => 0x3007
    | 0x3000, 2 => 0x4007
    | 0x4000, 0 => 0x5005
    | 0x4000, 1 => 0x6003
    | _, _ => 0
  currentPml4 := 0
  bytes _ := 0

/-- A read of the read-only page is sound, as bytes and as a string. -/
theorem boundary_copies_sound_text :
    (copyFromUser textView ⟨true, 0x1000⟩ 0x400FFE 2).1 = 0 ∧
    ReadSound textView ⟨true, 0x1000⟩ 0x400FFE 2 ∧ StringSound textView ⟨true, 0x1000⟩ 0x400FFE 3 := by
  have hplain : ∀ i < 2, textView.Plain ⟨true, 0x1000⟩ (0x400FFE + i) := by decide
  have hgrant : ∀ i < 2, textView.Grants ⟨true, 0x1000⟩ false (0x400FFE + i) := by decide
  have hcopies := boundary_copies_sound_iff textView 0x1000
  refine ⟨by decide, (hcopies.1 _ _ fun a ha hlt => ?_).mpr fun _ a ha hlt => ?_,
    (hcopies.2.2 _ _ (by decide) (by decide) hplain).mpr fun i hi => hgrant i hi.1⟩
  · obtain ⟨i, rfl⟩ := Nat.exists_eq_add_of_le ha
    exact hplain i (by omega)
  · obtain ⟨i, rfl⟩ := Nat.exists_eq_add_of_le ha
    exact hgrant i (by omega)

theorem copies_unsound : ((copyToUser textView ⟨true, 0x1000⟩ 0x400000 [1]).1 = 0 ∧
      ¬ textView.UserByte ⟨true, 0x1000⟩ true 0x400000) ∧
    (copyFromUser textView ⟨true, 0x1000⟩ 0x401000 1).1 = 0 ∧
      ¬ textView.UserByte ⟨true, 0x1000⟩ false 0x401000 := by
  have hwrite : userAccess textView.tables 0x1000 0x400000 true = false := by decide
  have hread : userAccess textView.tables 0x1000 0x401000 false = false := by decide
  refine ⟨⟨by decide, fun h => ?_⟩, by decide, fun h => ?_⟩
  · cases hwrite.symm.trans h.2
  · cases hread.symm.trans h.2

end Kyuzen.Mm
