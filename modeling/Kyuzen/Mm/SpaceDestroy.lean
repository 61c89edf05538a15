import Kyuzen.Mm.SpaceTree

/-!
`vmm_destroy_address_space` over the tree of tables. The loops go through the
pages in order, so what a loop has done so far is told by an interval of pages:
the tables that start there and the frames mapped there are free again.
-/

namespace Kyuzen.Mm

open SameBounds

section

variable {K K' a a' b b' c f k n q r t : Nat} {p : Phys}
variable {p₀ : Phys} {root : Nat} {tab : Nat → Nat → Option Nat}

/-- A table of a level below `K` that starts in the interval. -/
def TabIn (tab : Nat → Nat → Option Nat) (a b K t : Nat) : Prop :=
  ∃ k q, k < K ∧ tab k q = some t ∧ a ≤ q * 512 ^ (k + 1) ∧ q * 512 ^ (k + 1) < b

/-- The frame of a page of the interval that the space owns. -/
def DataIn (p₀ : Phys) (tab : Nat → Nat → Option Nat) (a b f : Nat) : Prop :=
  ∃ x e, a ≤ x ∧ x < b ∧ Leaf p₀ tab x e ∧ kzShmVaExcluded (x * 4096) = false ∧ pteFrame e = f

def Freed (p₀ : Phys) (tab : Nat → Nat → Option Nat) (a b K f : Nat) : Prop :=
  TabIn tab a b K f ∨ DataIn p₀ tab a b f

/-- The entries of `f` from `n` on and everything in the interval are still as they
were in `p₀`. -/
structure Ready (p₀ : Phys) (tab : Nat → Nat → Option Nat) (f n a b K : Nat) (p : Phys) : Prop where
  bounds : SameBounds p₀ p
  table : ∀ j, n ≤ j → p.mem f j = p₀.mem f j
  mem : ∀ t, TabIn tab a b K t → p.mem t = p₀.mem t
  used : ∀ g, Freed p₀ tab a b K g → p.bitmap (g / 4096) = true

/-- The interval was torn down, and nothing else changed but the entries of `f`
below `n`. -/
structure Torn (p₀ : Phys) (tab : Nat → Nat → Option Nat) (f n a b K : Nat) (p p' : Phys) : Prop where
  bounds : SameBounds p p'
  bitmap : ∀ c, p'.bitmap c = true ↔ p.bitmap c = true ∧ ¬ Freed p₀ tab a b K (c * 4096)
  mem : ∀ t, t ≠ f → ¬ TabIn tab a b K t → p'.mem t = p.mem t
  rest : ∀ j, n ≤ j → p'.mem f j = p.mem f j

/-! ### Intervals -/

section
variable (ha : a' ≤ a) (hb : b ≤ b')
include ha hb

theorem TabIn.mono (hK : K ≤ K') (h : TabIn tab a b K t) : TabIn tab a' b' K' t := by
  obtain ⟨k, q, hk, hf, hlo, hhi⟩ := h
  exact ⟨k, q, lt_of_lt_of_le hk hK, hf, le_trans ha hlo, lt_of_lt_of_le hhi hb⟩

theorem DataIn.mono (h : DataIn p₀ tab a b f) : DataIn p₀ tab a' b' f := by
  obtain ⟨x, e, hlo, hhi, h⟩ := h
  exact ⟨x, e, le_trans ha hlo, lt_of_lt_of_le hhi hb, h⟩

theorem Freed.mono (hK : K ≤ K') (h : Freed p₀ tab a b K f) : Freed p₀ tab a' b' K' f :=
  h.imp (TabIn.mono ha hb hK) (DataIn.mono ha hb)

end

theorem freed_split (hab : a ≤ b) (hbc : b ≤ c) :
    Freed p₀ tab a c K f ↔ Freed p₀ tab a b K f ∨ Freed p₀ tab b c K f := by
  constructor
  · rintro (⟨k, q, hk, hf, hlo, hhi⟩ | ⟨x, e, hlo, hhi, h⟩)
    · rcases lt_or_ge (q * 512 ^ (k + 1)) b with hlt | hge
      · exact .inl (.inl ⟨k, q, hk, hf, hlo, hlt⟩)
      · exact .inr (.inl ⟨k, q, hk, hf, hge, hhi⟩)
    · rcases lt_or_ge x b with hlt | hge
      · exact .inl (.inr ⟨x, e, hlo, hlt, h⟩)
      · exact .inr (.inr ⟨x, e, hge, hhi, h⟩)
  · rintro (h | h)
    · exact h.mono (le_refl a) hbc (le_refl K)
    · exact h.mono hab (le_refl c) (le_refl K)

section
variable (hT : Tree p₀ root tab)
include hT

theorem Freed.disjoint (hD : Data p₀ tab) (h : Freed p₀ tab a b K f)
    (h' : Freed p₀ tab b c K f) : False := by
  rcases h with ⟨k, q, _, hf, _, hlt⟩ | ⟨x, e, _, hlt, hx, _, rfl⟩
  · rcases h' with ⟨k', q', _, hf', hge, _⟩ | ⟨x', e', _, _, hx', _, rfl⟩
    · obtain ⟨rfl, rfl⟩ := hT.inj _ _ _ _ _ hf hf'
      omega
    · exact hD.apart _ _ _ _ hx' hf
  · rcases h' with ⟨k', q', _, hf', _, _⟩ | ⟨x', e', hge, _, hx', _, heq⟩
    · exact hD.apart _ _ _ _ hx hf'
    · have := hD.inj _ _ _ _ hx hx' heq.symm
      omega

theorem TabIn.disjoint (h : TabIn tab a b K t) (h' : TabIn tab b c K t) : False := by
  obtain ⟨k, q, _, hf, _, hlt⟩ := h
  obtain ⟨k', q', _, hf', hge, _⟩ := h'
  obtain ⟨rfl, rfl⟩ := hT.inj _ _ _ _ _ hf hf'
  omega

theorem Freed.frame (hD : Data p₀ tab) (h : Freed p₀ tab a b K f) : Frame p₀ f := by
  rcases h with ⟨k, q, _, hf, _⟩ | ⟨x, e, _, _, hx, _, rfl⟩
  · exact hT.frame _ _ _ hf
  · exact hD.frame _ _ hx

theorem not_tabIn (hf : tab K q = some f) : ¬ TabIn tab a b K f := by
  rintro ⟨k, q', hk, hf', -⟩
  have := hT.inj _ _ _ _ _ hf hf'
  omega

theorem not_freed (hD : Data p₀ tab) (hf : tab K q = some f) : ¬ Freed p₀ tab a b K f := by
  rintro (h | ⟨x, e, _, _, hx, _, rfl⟩)
  · exact not_tabIn hT hf h
  · exact hD.apart _ _ _ _ hx hf

end

/-! ### Steps compose -/

theorem Torn.refl (p : Phys) : Torn p₀ tab f n a a K p p where
  bounds := SameBounds.refl p
  bitmap c := by
    refine ⟨fun h => ⟨h, ?_⟩, And.left⟩
    rintro (⟨_, _, _, _, hlo, hhi⟩ | ⟨_, _, hlo, hhi, _⟩) <;> omega
  mem _ _ _ := rfl
  rest _ _ := rfl

theorem Torn.trans {m : Nat} {p' p'' : Phys} (hab : a ≤ b) (hbc : b ≤ c) (hnm : n ≤ m)
    (h : Torn p₀ tab f n a b K p p') (h' : Torn p₀ tab f m b c K p' p'') :
    Torn p₀ tab f m a c K p p'' where
  bounds := h.bounds.trans h'.bounds
  bitmap d := by
    rw [h'.bitmap, h.bitmap, freed_split hab hbc]
    tauto
  mem t ht hin := by
    rw [h'.mem t ht fun hin' => hin (hin'.mono hab (le_refl c) (le_refl K)),
      h.mem t ht fun hin' => hin (hin'.mono (le_refl a) hbc (le_refl K))]
  rest j hj := by
    rw [h'.rest j hj, h.rest j (le_trans hnm hj)]

theorem Ready.narrow (ha : a ≤ a') (hb : b' ≤ b) (hK : K' ≤ K) (h : Ready p₀ tab f n a b K p) :
    Ready p₀ tab f n a' b' K' p where
  __ := h
  mem t ht := h.mem t (ht.mono ha hb hK)
  used g hg := h.used g (hg.mono ha hb hK)

section
variable (hT : Tree p₀ root tab) (hD : Data p₀ tab) (hf : tab K q = some f)
include hT hD hf

theorem Ready.next {p' : Phys}
    (hab : a ≤ b) (h : Ready p₀ tab f 0 a c K p) (ht : Torn p₀ tab f n a b K p p') :
    Ready p₀ tab f n b c K p' where
  bounds := h.bounds.trans ht.bounds
  table j hj := (ht.rest j hj).trans (h.table j (Nat.zero_le j))
  mem t hin := by
    have hne : t ≠ f := fun heq => not_tabIn hT hf (heq ▸ hin)
    rw [ht.mem t hne fun hin' => hin'.disjoint hT hin]
    exact h.mem t (hin.mono hab (le_refl c) (le_refl K))
  used g hg := by
    rw [ht.bitmap]
    refine ⟨h.used g (hg.mono hab (le_refl c) (le_refl K)), fun hg' => ?_⟩
    rw [(hg.frame hT hD).div_mul] at hg'
    exact hg'.disjoint hT hD hg

theorem loop_torn {N : Nat} (body : Phys → Nat → Phys) (hbody : ∀ i < N, ∀ p,
      Ready p₀ tab f i ((q * 512 + i) * 512 ^ K) ((q * 512 + (i + 1)) * 512 ^ K) K p →
      Torn p₀ tab f (i + 1) ((q * 512 + i) * 512 ^ K) ((q * 512 + (i + 1)) * 512 ^ K) K p (body p i))
    (n : Nat) (hn : n ≤ N) (p : Phys)
    (h : Ready p₀ tab f 0 ((q * 512 + 0) * 512 ^ K) ((q * 512 + n) * 512 ^ K) K p) :
    Torn p₀ tab f n ((q * 512 + 0) * 512 ^ K) ((q * 512 + n) * 512 ^ K) K p
      ((List.range n).foldl body p) := by
  induction n with
  | zero => exact Torn.refl p
  | succ n ih =>
    have hlo : ∀ i j, i ≤ j → (q * 512 + i) * 512 ^ K ≤ (q * 512 + j) * 512 ^ K := fun i j hij =>
      Nat.mul_le_mul_right _ (Nat.add_le_add_left hij _)
    rw [List.range_succ, List.foldl_append]
    have hpart := ih (by omega) (h.narrow (le_refl _) (hlo n (n + 1) (by omega)) (le_refl K))
    have hready := h.next hT hD hf (hlo 0 n (by omega)) hpart
    exact hpart.trans (hlo 0 n (by omega)) (hlo n (n + 1) (by omega)) (Nat.le_succ n)
      (hbody n (by omega) _ hready)

end

/-! ### The bodies -/

theorem dataIn_page {i pt g : Nat} (hpt : tab 0 q = some pt) (hi : i < 512) :
    DataIn p₀ tab (q * 512 + i) (q * 512 + (i + 1)) g ↔
      present (p₀.mem pt i) = true ∧ kzShmVaExcluded ((q * 512 + i) * 4096) = false ∧
        pteFrame (p₀.mem pt i) = g := by
  have hmod : (q * 512 + i) % 512 = i := by omega
  constructor
  · rintro ⟨x, e, hlo, hhi, ⟨f, hf, he, hpresent⟩, hout, hframe⟩
    have hx : x = q * 512 + i := by omega
    subst hx
    rw [entry_div q hi, hpt] at hf
    cases hf
    rw [hmod] at he
    subst he
    exact ⟨hpresent, hout, hframe⟩
  · rintro ⟨hpresent, hout, hframe⟩
    exact ⟨q * 512 + i, _, le_refl _, by omega,
      ⟨pt, by rw [entry_div q hi]; exact hpt, by rw [hmod], hpresent⟩, hout, hframe⟩

theorem not_tabIn_zero : ¬ TabIn tab a b 0 t := by
  rintro ⟨k, _, hk, -⟩
  exact absurd hk (Nat.not_lt_zero k)

theorem destroyLeaf_torn (hT : Tree p₀ root tab) (hD : Data p₀ tab) {i pt : Nat}
    (hpt : tab 0 q = some pt) (hi : i < 512)
    (h : Ready p₀ tab pt i (q * 512 + i) (q * 512 + (i + 1)) 0 p) :
    Torn p₀ tab pt (i + 1) (q * 512 + i) (q * 512 + (i + 1)) 0 p (destroyLeaf q pt p i) := by
  have hpage : ∀ g, Freed p₀ tab (q * 512 + i) (q * 512 + (i + 1)) 0 g ↔ _ := fun g =>
    (or_iff_right not_tabIn_zero).trans (dataIn_page hpt hi)
  have hset : ∀ p' : Phys, p'.mem = p.mem → SameBounds p p' → (∀ c, p'.bitmap c = true ↔
        p.bitmap c = true ∧ ¬ Freed p₀ tab (q * 512 + i) (q * 512 + (i + 1)) 0 (c * 4096)) →
      Torn p₀ tab pt (i + 1) (q * 512 + i) (q * 512 + (i + 1)) 0 p (p'.setEntry pt i 0) := by
    intro p' hmem hb hbit
    refine ⟨hb.write _, hbit, fun t ht _ => ?_, fun j hj => ?_⟩
    · funext j
      rw [← hmem]
      exact if_neg fun heq => ht heq.1
    · rw [← hmem]
      exact if_neg fun heq => by omega
  rw [destroyLeaf, h.table i (le_refl i)]
  rcases hpresent : present (p₀.mem pt i) with _ | _
  · refine ⟨refl p, fun c => ?_, fun _ _ _ => rfl, fun _ _ => rfl⟩
    rw [hpage, hpresent]
    simp
  rcases hout : kzShmVaExcluded ((q * 512 + i) * 4096) with _ | _
  · have hfreed : Freed p₀ tab (q * 512 + i) (q * 512 + (i + 1)) 0 (pteFrame (p₀.mem pt i)) :=
      (hpage _).mpr ⟨hpresent, hout, rfl⟩
    have hframe : Frame p (pteFrame (p₀.mem pt i)) :=
      (hfreed.frame hT hD).grows h.bounds (h.used _ hfreed)
    obtain ⟨hmem, hb, hbit⟩ := pmmFreePage_frame hframe
    simp only [Bool.not_true, Bool.false_eq_true, if_false]
    rw [freeOwned_frame hframe]
    refine hset _ hmem hb fun c => ?_
    rw [freed_iff hframe.aligned hbit, hpage]
    constructor
    · rintro ⟨hc, hne⟩
      exact ⟨hc, fun hpage => hne hpage.2.2.symm⟩
    · rintro ⟨hc, hno⟩
      exact ⟨hc, fun heq => hno ⟨hpresent, hout, heq.symm⟩⟩
  · simp only [Bool.not_true, Bool.false_eq_true, if_false, if_true]
    refine hset p rfl (refl p) fun c => ?_
    rw [hpage, hout]
    simp

theorem start_div {k' : Nat} (hk : k' ≤ k) (hlo : r * 512 ^ (k + 1) ≤ q * 512 ^ (k' + 1))
    (hhi : q * 512 ^ (k' + 1) < (r + 1) * 512 ^ (k + 1)) : q / 512 ^ (k - k') = r := by
  have hpow : 512 ^ (k + 1) = 512 ^ (k - k') * 512 ^ (k' + 1) := by
    rw [← pow_add]
    congr 1
    omega
  rw [hpow, ← mul_assoc] at hlo hhi
  have hlo' := Nat.le_of_mul_le_mul_right hlo (by positivity)
  have hhi' := Nat.lt_of_mul_lt_mul_right hhi
  exact Nat.div_eq_of_lt_le hlo' hhi'

/-- What an interval of one table holds: the table and what is below it. -/
theorem tabIn_child : TabIn tab (r * 512 ^ (k + 1)) ((r + 1) * 512 ^ (k + 1)) (k + 1) t ↔
      tab k r = some t ∨ TabIn tab (r * 512 ^ (k + 1)) ((r + 1) * 512 ^ (k + 1)) k t := by
  constructor
  · rintro ⟨k', q, hk', hf, hlo, hhi⟩
    rcases Nat.lt_or_ge k' k with hlt | hge
    · exact .inr ⟨k', q, hlt, hf, hlo, hhi⟩
    · have heq : k' = k := by omega
      subst heq
      have hq := start_div (le_refl k') hlo hhi
      rw [Nat.sub_self, pow_zero, Nat.div_one] at hq
      exact .inl (hq ▸ hf)
  · rintro (hf | ⟨k', q, hk', h⟩)
    · exact ⟨k, r, Nat.lt_succ_self k, hf, le_refl _,
        Nat.mul_lt_mul_of_pos_right (Nat.lt_succ_self r) (by positivity)⟩
    · exact ⟨k', q, by omega, h⟩

theorem not_freed_absent (hT : Tree p₀ root tab) {g : Nat} (hk : k < 3) (hnone : tab k r = none) :
    ¬ Freed p₀ tab (r * 512 ^ (k + 1)) ((r + 1) * 512 ^ (k + 1)) (k + 1) g := by
  have hno : ∀ k' q f, k' ≤ k → tab k' q = some f → q / 512 ^ (k - k') ≠ r := by
    intro k' q f hk' hf hq
    obtain ⟨f', hf'⟩ := hT.above hf (k - k') (by omega)
    have hlevel : k' + (k - k') = k := by omega
    rw [hlevel, hq, hnone] at hf'
    cases hf'
  rintro (⟨k', q, hk', hf, hlo, hhi⟩ | ⟨x, e, hlo, hhi, ⟨f, hf, -⟩, -⟩)
  · exact hno k' q g (by omega) hf (start_div (by omega) hlo hhi)
  · refine hno 0 _ f (Nat.zero_le k) hf ?_
    rw [Nat.sub_zero, Nat.div_div_eq_div_mul, ← pow_succ']
    exact Nat.div_eq_of_lt_le hlo hhi

section
variable (hwf : PmmWf p₀) (hT : Tree p₀ root tab) (hD : Data p₀ tab)
include hwf hT hD

theorem destroyTable_torn (K : Nat) :
    ∀ (q f n : Nat) (p : Phys), tab K q = some f → n ≤ userEntries K →
      Ready p₀ tab f 0 ((q * 512 + 0) * 512 ^ K) ((q * 512 + n) * 512 ^ K) K p →
      Torn p₀ tab f n ((q * 512 + 0) * 512 ^ K) ((q * 512 + n) * 512 ^ K) K p
        (destroyTable K q f n p) := by
  induction K with
  | zero =>
    intro q f n p hf hn h
    refine loop_torn hT hD hf _ (fun i hi p hready => ?_) n hn p h
    rw [pow_zero, mul_one, mul_one] at hready ⊢
    exact destroyLeaf_torn hT hD hf (lt_of_lt_of_le hi (userEntries_le 0)) hready
  | succ k ih =>
    intro q f n p hf hn h
    refine loop_torn hT hD hf _ (fun i hi p hready => ?_) n hn p h
    have hk : k < 3 := by
      have := hT.high _ _ _ hf
      omega
    have hi512 := lt_of_lt_of_le hi (userEntries_le (k + 1))
    rw [← add_assoc] at hready ⊢
    dsimp only
    rw [hready.table i (le_refl i)]
    rcases hdown : tab k (q * 512 + i) with _ | g
    · -- an absent entry, and nothing below it
      rw [hT.absent _ _ _ _ hf hi hdown]
      refine ⟨refl p, fun c => ?_, fun _ _ _ => rfl, fun _ _ => rfl⟩
      exact ⟨fun hc => ⟨hc, not_freed_absent hT hk hdown⟩, And.left⟩
    have hg₀ := hT.frame _ _ _ hdown
    rw [hT.entry _ _ _ _ _ hf hi512 hdown, tableEntry_present, tableEntry_huge hg₀.aligned,
      tableEntry_mask hg₀.aligned (hg₀.wide hwf)]
    simp only [Bool.not_true, Bool.false_eq_true, if_false]
    have hgin : TabIn tab ((q * 512 + i) * 512 ^ (k + 1)) ((q * 512 + i + 1) * 512 ^ (k + 1))
        (k + 1) g := tabIn_child.mpr (.inl hdown)
    -- everything below the table first
    have hchild := ih (q * 512 + i) g 512 p hdown (le_of_eq (userEntries_lower hk).symm) (by
      rw [entry_start, entry_end]
      refine ⟨hready.bounds, fun j _ => by rw [hready.mem g hgin], fun t ht => ?_, fun g' hg' => ?_⟩
      · exact hready.mem t (ht.mono (le_refl _) (le_refl _) (Nat.le_succ k))
      · exact hready.used g' (hg'.mono (le_refl _) (le_refl _) (Nat.le_succ k)))
    rw [entry_start, entry_end] at hchild
    generalize destroyTable k (q * 512 + i) g 512 p = p₁ at hchild
    -- then the table itself, and its entry
    have hframe : Frame p₁ g := by
      refine hg₀.grows (hready.bounds.trans hchild.bounds) ?_
      rw [hchild.bitmap, hg₀.div_mul]
      exact ⟨hready.used g (.inl hgin), not_freed hT hD hdown⟩
    obtain ⟨hmem, hb, hbit⟩ := pmmFreePage_frame hframe
    rw [freeOwned_frame hframe]
    have hfg : f ≠ g := fun heq => by
      have := hT.inj _ _ _ _ _ hf (heq ▸ hdown)
      omega
    refine ⟨?_, fun c => ?_, fun t ht hin => ?_, fun j hj => ?_⟩
    · exact (hchild.bounds.trans hb).write _
    · change (pmmFreePage p₁ g).bitmap c = true ↔ _
      rw [freed_iff hframe.aligned hbit, hchild.bitmap, Freed, Freed, tabIn_child, hdown,
        Option.some.injEq, eq_comm]
      tauto
    · rw [tabIn_child] at hin
      have htg : t ≠ g := fun heq => hin (.inl (heq ▸ hdown))
      rw [← hchild.mem t htg fun hin' => hin (.inr hin'), ← hmem]
      funext j
      exact if_neg fun heq => ht heq.1
    · have hnot : ¬ TabIn tab ((q * 512 + i) * 512 ^ (k + 1))
          ((q * 512 + i + 1) * 512 ^ (k + 1)) k f := fun hin =>
        not_tabIn hT hf (hin.mono (le_refl _) (le_refl _) (Nat.le_succ k))
      rw [← hchild.mem f hfg hnot, ← hmem]
      exact if_neg fun heq => by omega

/-- `vmm_destroy_address_space(pml4, 1)`: the frames that are free afterwards, and
what memory keeps. -/
theorem vmmDestroyAddressSpace_spec : SameBounds p₀ (vmmDestroyAddressSpace p₀ root true) ∧
    (∀ c, (vmmDestroyAddressSpace p₀ root true).bitmap c = true ↔
      p₀.bitmap c = true ∧ (¬ ∃ k q, tab k q = some (c * 4096)) ∧
        ¬ ∃ x e, Leaf p₀ tab x e ∧ kzShmVaExcluded (x * 4096) = false ∧ pteFrame e = c * 4096) ∧
    (∀ t, (∀ k q, tab k q ≠ some t) → (vmmDestroyAddressSpace p₀ root true).mem t = p₀.mem t) ∧
    ∀ i, 256 ≤ i → (vmmDestroyAddressSpace p₀ root true).mem root i = p₀.mem root i := by
  have hroot := hT.frame _ _ _ hT.root_frame
  have htorn := destroyTable_torn hwf hT hD 3 0 root 256 p₀ hT.root_frame (le_refl 256)
    ⟨refl p₀, fun _ _ => rfl, fun _ _ => rfl, fun g hg => (hg.frame hT hD).used⟩
  have hlo : (0 * 512 + 0) * 512 ^ 3 = 0 := by decide
  have hhi : (0 * 512 + 256) * 512 ^ 3 = userPages := by decide
  rw [hlo, hhi] at htorn
  rw [vmmDestroyAddressSpace, if_neg hroot.ne_null]
  simp only [if_true]
  generalize destroyTable 3 0 root 256 p₀ = p₁ at htorn
  have hframe : Frame p₁ root := by
    refine hroot.grows htorn.bounds ?_
    rw [htorn.bitmap, hroot.div_mul]
    exact ⟨hroot.used, not_freed hT hD hT.root_frame⟩
  obtain ⟨hmem, hb, hbit⟩ := pmmFreePage_frame hframe
  rw [freeOwned_frame hframe]
  -- the interval of all user pages holds every table but the root
  have htabs : ∀ t, TabIn tab 0 userPages 3 t ∨ t = root ↔ ∃ k q, tab k q = some t := by
    intro t
    constructor
    · rintro (⟨k, q, _, hf, _⟩ | rfl)
      · exact ⟨k, q, hf⟩
      · exact ⟨3, 0, hT.root_frame⟩
    rintro ⟨k, q, hf⟩
    rcases Nat.lt_or_ge k 3 with hlt | hge
    · exact .inl ⟨k, q, hlt, hf, Nat.zero_le _, hT.bounded hf⟩
    · have hk : k = 3 := le_antisymm (hT.high _ _ _ hf) hge
      subst hk
      exact .inr ((hT.root _ _).mp hf).2
  have hdata : ∀ g, DataIn p₀ tab 0 userPages g ↔
      ∃ x e, Leaf p₀ tab x e ∧ kzShmVaExcluded (x * 4096) = false ∧ pteFrame e = g := by
    intro g
    constructor
    · rintro ⟨x, e, _, _, h⟩
      exact ⟨x, e, h⟩
    · rintro ⟨x, e, hx, h⟩
      exact ⟨x, e, Nat.zero_le x, hx.user hT, hx, h⟩
  refine ⟨htorn.bounds.trans hb, fun c => ?_, fun t ht => ?_, fun i hi => ?_⟩
  · rw [freed_iff hframe.aligned hbit, htorn.bitmap, ← htabs, ← hdata, Freed,
      not_or, not_or]
    constructor
    · rintro ⟨⟨hc, htab, hin⟩, hne⟩
      exact ⟨hc, ⟨htab, hne⟩, hin⟩
    · rintro ⟨hc, ⟨htab, hne⟩, hin⟩
      exact ⟨⟨hc, htab, hin⟩, hne⟩
  · rw [hmem]
    refine htorn.mem t (fun heq => ht 3 0 (heq ▸ hT.root_frame)) fun hin => ?_
    obtain ⟨k, q, _, hf, _⟩ := hin
    exact ht k q hf
  · rw [hmem]
    exact htorn.rest i hi

end

end

end Kyuzen.Mm
