import Kyuzen.Base.Bytes

/-!
`proc_build_argv`: the arguments of a new program on its stack, the pointers at
the new stack top and the strings behind them.
-/

namespace Kyuzen.Proc

open List

def procMaxArgc : Nat := 16
def procMaxArgLen : Nat := 64
def procArgTotalMax : Nat := 512
def ustackTop : Nat := 0x0C000000
def ustackSz : Nat := 256 * 1024

/-- `while (l < PROC_MAX_ARG_LEN && kargv[i][l]) l++`, with `n` steps to the bound. -/
def argLen (row : Buf) : Nat → Nat → Nat
  | 0, l => l
  | n + 1, l => if row l = 0 then l else argLen row n (l + 1)

/-- The first loop: `lens`, or `none` for a missing NUL or too many bytes. -/
def argLens : List Buf → Nat → Option (List Nat)
  | [], _ => some []
  | row :: rows, total =>
    let l := argLen row procMaxArgLen 0
    if l ≥ procMaxArgLen ∨ total + (l + 1) > procArgTotalMax then none
    else (argLens rows (total + (l + 1))).map fun lens => (l + 1) :: lens

/-- The second loop, over the rows with their lengths. -/
def copyArgs (argv : Nat) : Nat → Nat → List (Buf × Nat) → Buf → Buf
  | _, _, [], mem => mem
  | i, cur, (row, len) :: rest, mem =>
    copyArgs argv (i + 1) (cur + len) rest (memcpy (putLe mem (argv + i * 8) 8 cur) cur row 0 len)

/-- The new stack top and the child's memory; `kargv` are the first `argc` rows. -/
def procBuildArgv (mem : Buf) (oldTop : Nat) (kargv : List Buf) : Option (Nat × Buf) :=
  let argc := kargv.length
  if argc < 1 ∨ argc > procMaxArgc ∨ oldTop = 0 then none
  else
    match argLens kargv 0 with
    | none => none
    | some lens =>
      let need := (argc + 1) * 8 + lens.sum
      let base := ((oldTop + 2 ^ 64 - need) % 2 ^ 64 / 16 * 16 + 2 ^ 64 - 8) % 2 ^ 64
      if need > procArgTotalMax + 136 then none
      else if base ≥ oldTop ∨ base < ustackTop - ustackSz ∨ oldTop > ustackTop then none
      else
        let mem' := copyArgs base 0 (base + (argc + 1) * 8) (kargv.zip lens) mem
        some (base, putLe mem' (base + argc * 8) 8 0)

/-- The arguments as the child finds them, and nothing else has changed. -/
structure ArgvAt (mem mem' : Buf) (base top : Nat) (kargv : List Buf) : Prop where
  aligned : base % 16 = 8
  stack : ustackTop - ustackSz ≤ base ∧ top ≤ ustackTop
  arg : ∀ i row, kargv[i]? = some row → ∃ p l, getLe mem' (base + i * 8) 8 = p ∧
    base + (kargv.length + 1) * 8 ≤ p ∧ p + l + 1 ≤ top ∧
    (∀ k < l, mem' (p + k) = row k ∧ row k ≠ 0) ∧ mem' (p + l) = 0 ∧ row l = 0
  null : getLe mem' (base + kargv.length * 8) 8 = 0
  outside : ∀ a, a < base ∨ top ≤ a → mem' a = mem a

variable {mem mem' row : Buf} {rows kargv : List Buf} {lens : List Nat} {argv base oldTop : Nat}

theorem argLen_spec {n l : Nat} (h : argLen row n l < l + n) :
    row (argLen row n l) = 0 ∧ ∀ k, l ≤ k → k < argLen row n l → row k ≠ 0 := by
  induction n generalizing l with
  | zero => exact absurd h (lt_irrefl l)
  | succ n ih =>
    unfold argLen at h ⊢
    split
    next hrow => exact ⟨hrow, fun k hk hlt => absurd hlt (not_lt.mpr hk)⟩
    next hrow =>
      rw [if_neg hrow] at h
      obtain ⟨hend, hbefore⟩ := ih (l := l + 1) (by omega)
      refine ⟨hend, fun k hk hlt => ?_⟩
      rcases Nat.eq_or_lt_of_le hk with rfl | hk
      · exact hrow
      · exact hbefore k hk hlt

theorem argLens_spec {total : Nat} (h : argLens rows total = some lens) :
    Forall₂ (fun row len => ∃ l, len = l + 1 ∧ row l = 0 ∧ ∀ k < l, row k ≠ 0) rows lens := by
  induction rows generalizing total lens with
  | nil =>
    cases h
    exact .nil
  | cons row rows ih =>
    simp only [argLens] at h
    split at h
    · cases h
    next hok =>
      obtain ⟨rest, hrest, rfl⟩ := Option.map_eq_some_iff.mp h
      have hlt : argLen row procMaxArgLen 0 < 0 + procMaxArgLen := by omega
      obtain ⟨hend, hbefore⟩ := argLen_spec hlt
      exact .cons ⟨_, rfl, hend, fun k => hbefore k (Nat.zero_le k)⟩ (ih hrest)

theorem copyArgs_spec (mem : Buf) (l : List (Buf × Nat)) (i cur : Nat)
    (hcur : argv + (i + l.length) * 8 ≤ cur) (hend : cur + (l.map Prod.snd).sum < 2 ^ 64) :
    (∀ a, a < argv + i * 8 ∨ argv + (i + l.length) * 8 ≤ a ∧ a < cur ∨
      cur + (l.map Prod.snd).sum ≤ a → copyArgs argv i cur l mem a = mem a) ∧
    ∀ j row len, l[j]? = some (row, len) →
      ∃ p, getLe (copyArgs argv i cur l mem) (argv + (i + j) * 8) 8 = p ∧ cur ≤ p ∧
        p + len ≤ cur + (l.map Prod.snd).sum ∧
        ∀ k < len, copyArgs argv i cur l mem (p + k) = row k := by
  induction l generalizing i cur mem with
  | nil => exact ⟨fun _ _ => rfl, nofun⟩
  | cons x l ih =>
    obtain ⟨row, len⟩ := x
    simp only [length_cons, map_cons, sum_cons] at hcur hend ⊢
    rw [copyArgs]
    obtain ⟨hout, harg⟩ := ih (memcpy (putLe mem (argv + i * 8) 8 cur) cur row 0 len) (i + 1)
      (cur + len) (by omega) (by omega)
    refine ⟨fun a ha => ?_, fun j row' len' hj => ?_⟩
    · rw [hout a (by omega), memcpy_outside (by omega), putLe_outside (by omega)]
    cases j with
    | zero =>
      cases hj
      refine ⟨cur, ?_, le_rfl, by omega, fun k hk => ?_⟩
      · rw [getLe_congr (argv + (i + 0) * 8) (argv + i * 8) 8 fun t ht => hout _ (by omega),
          getLe_memcpy_outside (by omega), getLe_putLe_of_lt (by omega)]
      · rw [hout _ (by omega), memcpy_inside (by omega) (by omega)]
        congr 1
        omega
    | succ j =>
      obtain ⟨p, hp, hle, hlt, hbytes⟩ := harg j row' len' hj
      refine ⟨p, ?_, by omega, by omega, hbytes⟩
      rw [← hp]
      congr 1
      omega

theorem laid_out {size : Nat} (hrows : Forall₂
      (fun row len => ∃ l, len = l + 1 ∧ row l = 0 ∧ ∀ k < l, row k ≠ 0) kargv lens)
    (hsize : size = (kargv.length + 1) * 8 + lens.sum) (hend : base + size < 2 ^ 64)
    (hmem : mem' = putLe (copyArgs base 0 (base + (kargv.length + 1) * 8) (kargv.zip lens) mem)
      (base + kargv.length * 8) 8 0) :
    (∀ i row, kargv[i]? = some row → ∃ p l, getLe mem' (base + i * 8) 8 = p ∧
      base + (kargv.length + 1) * 8 ≤ p ∧ p + l + 1 ≤ base + size ∧
      (∀ k < l, mem' (p + k) = row k ∧ row k ≠ 0) ∧ mem' (p + l) = 0 ∧ row l = 0) ∧
    ∀ a, a < base ∨ base + size ≤ a → mem' a = mem a := by
  have hlen : (kargv.zip lens).map Prod.snd = lens := map_snd_zip hrows.length_eq.ge
  have hzip : (kargv.zip lens).length = kargv.length := by
    rw [length_zip, hrows.length_eq, Nat.min_self]
  have hslots : base + (0 + (kargv.zip lens).length) * 8 ≤ base + (kargv.length + 1) * 8 := by
    omega
  obtain ⟨hout, harg⟩ := copyArgs_spec mem _ 0 _ hslots (by rw [hlen]; omega)
  rw [hlen] at hout harg
  refine ⟨fun i row hi => ?_, fun a ha => ?_⟩
  · have hlt : i < kargv.length := (List.getElem?_eq_some_iff.mp hi).1
    obtain ⟨len, hlen⟩ : ∃ len, lens[i]? = some len :=
      ⟨_, getElem?_eq_getElem (hrows.length_eq ▸ hlt)⟩
    have hpair : (kargv.zip lens)[i]? = some (row, len) := getElem?_zip_eq_some.mpr ⟨hi, hlen⟩
    obtain ⟨l, rfl, hnul, hbefore⟩ := (forall₂_iff_zip.mp hrows).2 (mem_of_getElem? hpair)
    obtain ⟨p, hp, hle, hbound, hbytes⟩ := harg i row (l + 1) hpair
    have hbyte : ∀ k ≤ l, mem' (p + k) = row k := by
      intro k hk
      rw [hmem, putLe_outside (by omega), hbytes k (by omega)]
    refine ⟨p, l, ?_, hle, by omega, fun k hk => ⟨hbyte k hk.le, hbefore k hk⟩,
      (hbyte l le_rfl).trans hnul, hnul⟩
    rw [hmem, getLe_putLe_disjoint (by omega), ← hp, zero_add]
  · rw [hmem, putLe_outside (by omega), hout a (by omega)]

/-- Whatever the rows of `kargv` are, the child finds them as its arguments. -/
theorem argv_round_trip (h : procBuildArgv mem oldTop kargv = some (base, mem')) :
    ArgvAt mem mem' base oldTop kargv := by
  simp only [procBuildArgv] at h
  split at h
  · cases h
  split at h
  · cases h
  next lens hlens =>
    split at h
    · cases h
    split at h
    · cases h
    next hneed hplace =>
      generalize hsize : (kargv.length + 1) * 8 + lens.sum = size at h hneed hplace
      generalize hbase : ((oldTop + 2 ^ 64 - size) % 2 ^ 64 / 16 * 16 + 2 ^ 64 - 8) % 2 ^ 64 = b
        at h hplace
      obtain ⟨rfl, hmem⟩ := Prod.mk.inj (Option.some.inj h)
      simp only [ustackTop, ustackSz, procArgTotalMax] at hneed hplace
      -- no subtraction wraps, as the result is below the old top
      obtain ⟨harg, hout⟩ := laid_out (argLens_spec hlens) hsize.symm (by omega) hmem.symm
      refine ⟨by omega, by simp only [ustackTop, ustackSz]; omega, fun i row hi => ?_, ?_,
        fun a ha => hout a (by omega)⟩
      · obtain ⟨p, l, hp, hle, hlt, hbytes⟩ := harg i row hi
        exact ⟨p, l, hp, hle, by omega, hbytes⟩
      · rw [← hmem]
        exact getLe_putLe_of_lt (by omega)

/-- Three letters, nothing, and one letter. -/
def threeArgs : List Buf :=
  [fun k => if k < 3 then 97 else 0, fun _ => 0, fun k => if k = 0 then 98 else 0]

theorem argv_round_trip_three : ∃ base mem', procBuildArgv (fun _ => 0) ustackTop threeArgs =
    some (base, mem') ∧ ArgvAt (fun _ => 0) mem' base ustackTop threeArgs := by
  have hsome : (procBuildArgv (fun _ => 0) ustackTop threeArgs).isSome = true := by decide +kernel
  obtain ⟨⟨base, mem'⟩, h⟩ := Option.isSome_iff_exists.mp hsome
  exact ⟨base, mem', h, argv_round_trip h⟩

end Kyuzen.Proc
