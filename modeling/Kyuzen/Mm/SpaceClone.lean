import Kyuzen.Mm.SpaceDestroy

/-!
`vmm_create_address_space` and `vmm_clone_user_as` over the tree of tables. The
copy goes through the parent's pages in order; at any point the child holds a
copy of each page passed so far, in frames that were free at the start.
-/

namespace Kyuzen.Mm

open List

/-! ### A new space -/

def rootTab (root : Nat) : Nat → Nat → Option Nat :=
  fun k q => if k = 3 ∧ q = 0 then some root else none

theorem rootTab_some {root k q f : Nat} : rootTab root k q = some f ↔ k = 3 ∧ q = 0 ∧ f = root := by
  rw [rootTab]
  split
  next h =>
    constructor
    · intro heq
      cases heq
      exact ⟨h.1, h.2, rfl⟩
    · rintro ⟨-, -, rfl⟩
      rfl
  next h =>
    constructor
    · intro heq
      cases heq
    · rintro ⟨hk, hq, -⟩
      exact absurd ⟨hk, hq⟩ h

theorem rootTab_leaf {p : Phys} {root x e : Nat} : ¬ Leaf p (rootTab root) x e := by
  rintro ⟨f, hf, -⟩
  have := (rootTab_some.mp hf).1
  omega

structure Created (p : Phys) (root : Nat) (p' : Phys) : Prop where
  bounds : SameBounds p p'
  free : Free p root
  tree : Tree p' root (rootTab root)
  bitmap : ∀ b, p'.bitmap b = true ↔ p.bitmap b = true ∨ b * 4096 = root
  mem : ∀ t, t ≠ root → p'.mem t = p.mem t
  kernel : ∀ i, 256 ≤ i → i < 512 → p'.mem root i = p.mem p.currentPml4 i

theorem vmmCreateAddressSpace_spec {p : Phys} (hwf : PmmWf p) : vmmCreateAddressSpace p = (0, p) ∨
      ∃ root p', root ≠ 0 ∧ vmmCreateAddressSpace p = (root, p') ∧ Created p root p' := by
  rw [vmmCreateAddressSpace]
  split
  · exact .inl rfl
  rw [allocPageVirt]
  rcases pmmAllocPage_spec hwf with hnone | ⟨root, p', hne, halloc, ht⟩
  · rw [hnone]
    exact .inl rfl
  right
  obtain ⟨root, rfl⟩ := Nat.exists_eq_succ_of_ne_zero hne
  rw [halloc]
  have hcur : p.currentPml4 ≠ root + 1 := fun heq => hwf.kernel (heq ▸ ht.free)
  have hread : ∀ t i, t ≠ root + 1 → (p'.zeroPage (root + 1)).mem t i = p.mem t i := by
    intro t i hne
    rw [← ht.mem]
    exact if_neg hne
  refine ⟨root + 1, _, hne, rfl, ht.bounds.write _, ht.free, ?_, ht.used_iff, ?_, ?_⟩
  · have hframe := ht.frame hwf
    refine ⟨fun q f => ?_, fun k q f hf => ?_, fun k q k' q' f hf hf' => ?_,
      fun k q f hf => ?_, fun k q g hf hk => ?_, fun k q f i g hf hi hg => ?_,
      fun k q f i hf hi _ => ?_⟩
    · rw [rootTab_some]
      simp
    · rw [(rootTab_some.mp hf).1]
    · obtain ⟨rfl, rfl, -⟩ := rootTab_some.mp hf
      obtain ⟨rfl, rfl, -⟩ := rootTab_some.mp hf'
      exact ⟨rfl, rfl⟩
    · obtain ⟨-, -, rfl⟩ := rootTab_some.mp hf
      exact {hframe with}
    · have := (rootTab_some.mp hf).1
      omega
    · have h1 := (rootTab_some.mp hf).1
      have h2 := (rootTab_some.mp hg).1
      omega
    · obtain ⟨hk, -, rfl⟩ := rootTab_some.mp hf
      rw [hk, userEntries, if_pos rfl] at hi
      dsimp only
      rw [if_neg fun h => by omega]
      exact if_pos rfl
  · intro t hne
    funext i
    dsimp only
    rw [if_neg fun h => hne h.1]
    exact hread t i hne
  · intro i hlo hhi
    dsimp only
    rw [if_pos ⟨rfl, hlo, hhi⟩]
    exact hread _ i hcur

/-! ### The copy of one page -/

section

variable {p p' : Phys} {dst src x : Nat} {tab' : Nat → Nat → Option Nat} {r : Bool × Phys}
variable {p₀ : Phys} {parent child : Nat} {tab₀ tab : Nat → Nat → Option Nat}

/-- The child so far: its tables and pages are frames that were free, each page is
a copy of the parent's, and all frames that were in use are as before. -/
structure Cloning (p₀ : Phys) (tab₀ : Nat → Nat → Option Nat) (child : Nat) (p : Phys)
    (tab : Nat → Nat → Option Nat) : Prop where
  bounds : SameBounds p₀ p
  tree : Tree p child tab
  data : Data p tab
  bitmap : ∀ b, p.bitmap b = true ↔ p₀.bitmap b = true ∨ (∃ k q, tab k q = some (b * 4096)) ∨
    ∃ x e, Leaf p tab x e ∧ pteFrame e = b * 4096
  table : ∀ k q f, tab k q = some f → Free p₀ f
  page : ∀ x e, Leaf p tab x e → kzShmVaExcluded (x * 4096) = false ∧ Free p₀ (pteFrame e) ∧
    ∃ e₀, Leaf p₀ tab₀ x e₀ ∧ pteFlags e = pteFlags e₀ ∧ p.mem (pteFrame e) = p₀.mem (pteFrame e₀)
  mem : ∀ t, ¬ Free p₀ t → p.mem t = p₀.mem t
  kernel : ∀ i, 256 ≤ i → i < 512 → p.mem child i = p₀.mem p₀.currentPml4 i

theorem Cloning.grows (h : Cloning p₀ tab₀ child p tab) (b : Nat) (hb : p₀.bitmap b = true) :
    p.bitmap b = true :=
  (h.bitmap b).mpr (.inl hb)

theorem Cloning.wf (hwf : PmmWf p₀) (h : Cloning p₀ tab₀ child p tab) : PmmWf p :=
  hwf.grows h.bounds h.grows

theorem Created.cloning (h : Created p₀ child p) : Cloning p₀ tab₀ child p (rootTab child) where
  __ := h
  data := ⟨fun _ _ hx => absurd hx rootTab_leaf, fun _ _ _ _ hx => absurd hx rootTab_leaf,
    fun _ _ _ _ hx => absurd hx rootTab_leaf⟩
  bitmap b := by
    rw [h.bitmap]
    constructor
    · rintro (hb | rfl)
      · exact .inl hb
      · exact .inr (.inl ⟨3, 0, rootTab_some.mpr ⟨rfl, rfl, rfl⟩⟩)
    · rintro (hb | ⟨k, q, hf⟩ | ⟨x, e, hx, -⟩)
      · exact .inl hb
      · exact .inr (rootTab_some.mp hf).2.2
      · exact absurd hx rootTab_leaf
  table k q f hf := by
    obtain ⟨-, -, rfl⟩ := rootTab_some.mp hf
    exact h.free
  page _ _ hx := absurd hx rootTab_leaf
  mem t ht := h.mem t fun heq => ht (heq ▸ h.free)

theorem Tree.elsewhere {root : Nat} (h : Tree p root tab) (hb : SameBounds p p')
    (hused : ∀ k q f, tab k q = some f → p'.bitmap (f / 4096) = true)
    (hmem : ∀ k q f, tab k q = some f → p'.mem f = p.mem f) : Tree p' root tab where
  __ := h
  frame k q f hf := (h.frame _ _ _ hf).grows hb (hused _ _ _ hf)
  entry k q f i g hf hi hg := by
    rw [hmem _ _ _ hf]
    exact h.entry _ _ _ _ _ hf hi hg
  absent k q f i hf hi hg := by
    rw [hmem _ _ _ hf]
    exact h.absent _ _ _ _ hf hi hg

theorem leaf_elsewhere (hmem : ∀ k q f, tab k q = some f → p'.mem f = p.mem f) (x e : Nat) :
    Leaf p' tab x e ↔ Leaf p tab x e := by
  constructor
  · rintro ⟨f, hf, he, hpresent⟩
    exact ⟨f, hf, by rw [← hmem _ _ _ hf]; exact he, hpresent⟩
  · rintro ⟨f, hf, he, hpresent⟩
    exact ⟨f, hf, by rw [hmem _ _ _ hf]; exact he, hpresent⟩

/-- A frame `dst` was taken and filled from `src`, and the child's tree grew to make
room for a page. -/
structure Attempt (p : Phys) (tab : Nat → Nat → Option Nat) (child dst src : Nat) (p' : Phys)
    (tab' : Nat → Nat → Option Nat) : Prop where
  bounds : SameBounds p p'
  tree : Tree p' child tab'
  free : Free p dst
  frame : Frame p' dst
  sub : ∀ k q f, tab k q = some f → tab' k q = some f
  fresh : ∀ k q f, tab' k q = some f → tab k q = some f ∨ Free p f ∧ f ≠ dst
  bitmap : ∀ b, p'.bitmap b = true ↔
    p.bitmap b = true ∨ b * 4096 = dst ∨ ∃ k q, tab' k q = some (b * 4096)
  mem : ∀ t, t ≠ dst → (∀ k q, tab' k q ≠ some t) → p'.mem t = p.mem t
  copy : p'.mem dst = p.mem src
  kernel : ∀ i, 256 ≤ i → p'.mem child i = p.mem child i

theorem Tree.attempt {p₁ : Phys} (hwf : PmmWf p) (h : Tree p child tab) (hx : x < userPages)
    (ht : Takes p dst p₁) (src fl : Nat) :
    ∃ ok p' tab', vmmMapPageInto (p₁.copyPage dst src) (x * 4096) dst fl child = (ok, p') ∧
      Attempt p tab child dst src p' tab' ∧ ∀ x' e', Leaf p' tab' x' e' ↔ if ok = true ∧ x' = x then
          e' = (dst &&& pageMask) ||| fl ∧ present ((dst &&& pageMask) ||| fl) = true
        else Leaf p tab x' e' := by
  have hread : ∀ t ≠ dst, (p₁.copyPage dst src).mem t = p.mem t := by
    intro t hne
    funext j
    rw [← ht.mem]
    exact if_neg hne
  have htab : ∀ k q f, tab k q = some f → (p₁.copyPage dst src).mem f = p.mem f := fun k q f hf =>
    hread f fun heq => h.fresh_ne ht.free (heq ▸ hf)
  have hb : SameBounds p (p₁.copyPage dst src) := ht.bounds.write _
  have hT := h.elsewhere hb (fun k q f hf => ht.grows _ (h.frame k q f hf).used) htab
  have hwf' : PmmWf (p₁.copyPage dst src) := hwf.grows hb ht.grows
  obtain ⟨ok, p', tab', heq, hT', hE, hL⟩ := hT.vmmMapPageInto_spec hwf' hx dst fl
  have hused : (p₁.copyPage dst src).bitmap (dst / 4096) = true := (ht.frame hwf).used
  have hfree : ∀ f, Free (p₁.copyPage dst src) f → Free p f ∧ f ≠ dst := by
    intro f hf
    refine ⟨hf.shrinks hb ht.grows, ?_⟩
    rintro rfl
    exact nomatch hf.unused.symm.trans hused
  have hdst : ∀ k q, tab' k q ≠ some dst := by
    intro k q hf
    rcases hE.fresh _ _ _ hf with hold | hnew
    · exact h.fresh_ne ht.free hold
    · exact (hfree _ hnew).2 rfl
  refine ⟨ok, p', tab', heq, ⟨hb.trans hE.bounds, hT', ht.free, ?_, hE.sub, ?_, ?_, ?_, ?_, ?_⟩, ?_⟩
  · have hframe := ht.frame hwf
    have hcopied : Frame (p₁.copyPage dst src) dst :=
      {hframe with}
    exact hcopied.grows hE.bounds (hE.grows _ hused)
  · exact fun k q f hf => (hE.fresh _ _ _ hf).imp id (hfree f)
  · intro b
    rw [hE.bitmap]
    change p₁.bitmap b = true ∨ _ ↔ _
    rw [ht.used_iff, or_assoc]
  · exact fun t hne hnot => (hE.mem t hnot).trans (hread t hne)
  · rw [hE.mem dst hdst]
    funext j
    rw [← ht.mem]
    exact if_pos rfl
  · intro i hi
    rw [hE.kernel i hi, hread child fun heq => h.fresh_ne ht.free (heq ▸ h.root_frame)]
  · intro x' e'
    rw [hL, leaf_elsewhere htab]

section
variable (h : Attempt p tab child dst src p' tab')
include h

theorem Attempt.page_ne {e : Nat} (hD : Data p tab) (hx : Leaf p tab x e) :
    pteFrame e ≠ dst ∧ ∀ k q, tab' k q ≠ some (pteFrame e) := by
  have hframe := hD.frame _ _ hx
  refine ⟨fun heq => hframe.not_free (heq ▸ h.free), fun k q hf => ?_⟩
  rcases h.fresh _ _ _ hf with hold | ⟨hfree, -⟩
  · exact hD.apart _ _ _ _ hx hold
  · exact hframe.not_free hfree

theorem Attempt.dst_ne (hT : Tree p child tab) (k q : Nat) : tab' k q ≠ some dst := fun hf => by
  rcases h.fresh _ _ _ hf with hold | ⟨-, hne⟩
  · exact hT.fresh_ne h.free hold
  · exact hne rfl

theorem Attempt.keeps {e : Nat} (hD : Data p tab) (hx : Leaf p tab x e) :
    Frame p' (pteFrame e) ∧ p'.mem (pteFrame e) = p.mem (pteFrame e) := by
  obtain ⟨hne, hnot⟩ := h.page_ne hD hx
  have hframe := hD.frame _ _ hx
  exact ⟨hframe.grows h.bounds ((h.bitmap _).mpr (.inl hframe.used)), h.mem _ hne hnot⟩

end

section
variable {p p' : Phys} {tab' : Nat → Nat → Option Nat} {dst src x : Nat}

section
variable (h : Cloning p₀ tab₀ child p tab)
include h

theorem Cloning.free_grow {f : Nat} (hf : Free p f) : Free p₀ f := hf.shrinks h.bounds h.grows

theorem Cloning.table_attempt
    (ha : Attempt p tab child dst src p' tab') (k q f : Nat) (hf : tab' k q = some f) :
    Free p₀ f := by
  rcases ha.fresh _ _ _ hf with hold | ⟨hfree, -⟩
  · exact h.table _ _ _ hold
  · exact h.free_grow hfree

theorem Cloning.mem_attempt
    (ha : Attempt p tab child dst src p' tab') (t : Nat) (ht : ¬ Free p₀ t) :
    p'.mem t = p₀.mem t := by
  rw [ha.mem t (fun heq => ht (heq ▸ h.free_grow ha.free))
    fun k q hf => ht (h.table_attempt ha k q t hf)]
  exact h.mem t ht

end

theorem Cloning.mapped (hwf : PmmWf p₀) (h : Cloning p₀ tab₀ child p tab) {e₀ : Nat}
    (hx₀ : Leaf p₀ tab₀ x e₀) (hout : kzShmVaExcluded (x * 4096) = false)
    (hnew : ∀ e, ¬ Leaf p tab x e) (hsrc : ¬ Free p₀ (pteFrame e₀))
    (ha : Attempt p tab child dst (pteFrame e₀) p' tab')
    (hL : ∀ x' e', Leaf p' tab' x' e' ↔ if x' = x then
        e' = (dst &&& pageMask) ||| pteFlags e₀ ∧
          present ((dst &&& pageMask) ||| pteFlags e₀) = true
      else Leaf p tab x' e') :
    Cloning p₀ tab₀ child p' tab' ∧ ∃ e, Leaf p' tab' x e := by
  have hwide := ha.frame.wide ((h.wf hwf).grows ha.bounds fun b hb => (ha.bitmap b).mpr (.inl hb))
  have hframe := pteFrame_leafEntry ha.frame.aligned hwide (pteFlags_pteFlags e₀)
  have hflags := pteFlags_leafEntry ha.frame.aligned hwide (pteFlags_pteFlags e₀)
  have hpresent : present ((dst &&& pageMask) ||| pteFlags e₀) = true := by
    rw [present_leafEntry ha.frame.aligned hwide (pteFlags_pteFlags e₀), present_pteFlags]
    exact hx₀.choose_spec.2.2
  have hleaf : Leaf p' tab' x ((dst &&& pageMask) ||| pteFlags e₀) := by
    rw [hL, if_pos rfl]
    exact ⟨rfl, hpresent⟩
  -- a mapping of the child is the new one or an older one
  have hcases : ∀ {x' e'}, Leaf p' tab' x' e' →
      (x' = x ∧ pteFrame e' = dst ∧ pteFlags e' = pteFlags e₀) ∨ (x' ≠ x ∧ Leaf p tab x' e') := by
    intro x' e' hx'
    rw [hL] at hx'
    split at hx'
    next heq =>
      obtain ⟨rfl, -⟩ := hx'
      exact .inl ⟨heq, hframe, hflags⟩
    next hne => exact .inr ⟨hne, hx'⟩
  refine ⟨⟨h.bounds.trans ha.bounds, ha.tree, ⟨?_, ?_, ?_⟩, ?_, h.table_attempt ha, ?_,
    h.mem_attempt ha, ?_⟩, _, hleaf⟩
  · intro x' e' hx'
    rcases hcases hx' with ⟨-, hd, -⟩ | ⟨-, hold⟩
    · rw [hd]
      exact ha.frame
    · exact (ha.keeps h.data hold).1
  · intro x' e' k q hx'
    rcases hcases hx' with ⟨-, hd, -⟩ | ⟨-, hold⟩
    · rw [hd]
      exact ha.dst_ne h.tree k q
    · exact (ha.page_ne h.data hold).2 k q
  · intro x' e' x'' e'' hx' hx'' heq
    rcases hcases hx' with ⟨rfl, hd, -⟩ | ⟨-, hold⟩
    · rcases hcases hx'' with ⟨rfl, -, -⟩ | ⟨-, hold'⟩
      · rfl
      · exact absurd (heq.symm.trans hd) (ha.page_ne h.data hold').1
    · rcases hcases hx'' with ⟨-, hd, -⟩ | ⟨-, hold'⟩
      · exact absurd (heq.trans hd) (ha.page_ne h.data hold).1
      · exact h.data.inj _ _ _ _ hold hold' heq
  · intro b
    rw [ha.bitmap, h.bitmap]
    constructor
    · rintro ((hb | ⟨k, q, hf⟩ | ⟨x', e', hx', hb⟩) | hb | htab)
      · exact .inl hb
      · exact .inr (.inl ⟨k, q, ha.sub _ _ _ hf⟩)
      · refine .inr (.inr ⟨x', e', ?_, hb⟩)
        rw [hL, if_neg fun heq : x' = x => hnew e' (heq ▸ hx')]
        exact hx'
      · exact .inr (.inr ⟨x, _, hleaf, hframe.trans hb.symm⟩)
      · exact .inr (.inl htab)
    · rintro (hb | htab | ⟨x', e', hx', hb⟩)
      · exact .inl (.inl hb)
      · exact .inr (.inr htab)
      · rcases hcases hx' with ⟨-, hd, -⟩ | ⟨-, hold⟩
        · exact .inr (.inl (hb.symm.trans hd))
        · exact .inl (.inr (.inr ⟨x', e', hold, hb⟩))
  · intro x' e' hx'
    rcases hcases hx' with ⟨rfl, hd, hfl⟩ | ⟨-, hold⟩
    · rw [hd]
      refine ⟨hout, h.free_grow ha.free, e₀, hx₀, hfl, ?_⟩
      rw [ha.copy]
      exact h.mem _ hsrc
    · rw [(ha.keeps h.data hold).2]
      exact h.page _ _ hold
  · intro i hlo hhi
    rw [ha.kernel i hlo]
    exact h.kernel i hlo hhi

/-- The page could not be mapped, and its frame was given back. -/
theorem Cloning.failed (h : Cloning p₀ tab₀ child p tab) (ha : Attempt p tab child dst src p' tab')
    (hL : ∀ x' e', Leaf p' tab' x' e' ↔ Leaf p tab x' e') :
    Cloning p₀ tab₀ child (pmmFreePage p' dst) tab' := by
  obtain ⟨hmem, hb, hbit⟩ := pmmFreePage_frame ha.frame
  have hL' : ∀ x' e', Leaf (pmmFreePage p' dst) tab' x' e' ↔ Leaf p tab x' e' := fun x' e' =>
    (leaf_elsewhere (fun _ _ f _ => congrFun hmem f) x' e').trans (hL x' e')
  have hkept : ∀ f, Frame p' f → f ≠ dst → Frame (pmmFreePage p' dst) f := by
    intro f hf hne
    refine hf.grows hb ?_
    rw [freed_iff ha.frame.aligned hbit, hf.div_mul]
    exact ⟨hf.used, hne⟩
  refine ⟨(h.bounds.trans ha.bounds).trans hb, ?_, ⟨?_, ?_, ?_⟩, ?_, h.table_attempt ha, ?_, ?_, ?_⟩
  · have hT := ha.tree
    refine {hT with frame := fun k q f hf => ?_, entry := ?_, absent := ?_}
    · exact hkept f (hT.frame _ _ _ hf) fun heq => ha.dst_ne h.tree k q (heq ▸ hf)
    · rw [hmem]
      exact hT.entry
    · rw [hmem]
      exact hT.absent
  · intro x' e' hx'
    have hold := (hL' x' e').mp hx'
    exact hkept _ (ha.keeps h.data hold).1 (ha.page_ne h.data hold).1
  · exact fun x' e' k q hx' => (ha.page_ne h.data ((hL' x' e').mp hx')).2 k q
  · exact fun x' e' x'' e'' hx' hx'' =>
      h.data.inj _ _ _ _ ((hL' x' e').mp hx') ((hL' x'' e'').mp hx'')
  · intro b
    rw [freed_iff ha.frame.aligned hbit, ha.bitmap, h.bitmap]
    simp only [hL']
    constructor
    · rintro ⟨(hb | ⟨k, q, hf⟩ | hdata) | hb | htab, hne⟩
      · exact .inl hb
      · exact .inr (.inl ⟨k, q, ha.sub _ _ _ hf⟩)
      · exact .inr (.inr hdata)
      · exact absurd hb hne
      · exact .inr (.inl htab)
    · rintro (hb | ⟨k, q, hf⟩ | ⟨x', e', hx', hb⟩)
      · refine ⟨.inl (.inl hb), fun heq => ?_⟩
        have hunused := (h.free_grow ha.free).unused
        rw [← heq, Nat.mul_div_cancel b (by decide), hb] at hunused
        cases hunused
      · exact ⟨.inr (.inr ⟨k, q, hf⟩), fun heq => ha.dst_ne h.tree k q (heq ▸ hf)⟩
      · exact ⟨.inl (.inr (.inr ⟨x', e', hx', hb⟩)), fun heq =>
          (ha.page_ne h.data hx').1 (hb.trans heq)⟩
  · intro x' e' hx'
    have hold := (hL' x' e').mp hx'
    rw [hmem, (ha.keeps h.data hold).2]
    exact h.page _ _ hold
  · intro t ht
    rw [hmem]
    exact h.mem_attempt ha t ht
  · intro i hlo hhi
    rw [hmem, ha.kernel i hlo]
    exact h.kernel i hlo hhi

end

/-! ### The loops -/

/-- All of the parent's pages below `n` are copied, and no other. -/
structure Upto (p₀ : Phys) (tab₀ : Nat → Nat → Option Nat) (n : Nat) (p : Phys)
    (tab : Nat → Nat → Option Nat) : Prop where
  before : ∀ x e, Leaf p tab x e → x < n
  all : ∀ x e₀, x < n → Leaf p₀ tab₀ x e₀ → kzShmVaExcluded (x * 4096) = false →
    ∃ e, Leaf p tab x e

def ClonedTo (p₀ : Phys) (tab₀ : Nat → Nat → Option Nat) (child n : Nat) (r : Bool × Phys) : Prop :=
  ∃ tab, Cloning p₀ tab₀ child r.2 tab ∧ (r.1 = true → Upto p₀ tab₀ n r.2 tab)

theorem ClonedTo.skip {n m : Nat} (hnm : n ≤ m) (hnone : ∀ g, ¬ DataIn p₀ tab₀ n m g)
    (h : ClonedTo p₀ tab₀ child n r) :
    ClonedTo p₀ tab₀ child m r := by
  obtain ⟨tab, hc, hup⟩ := h
  refine ⟨tab, hc, fun hok => ⟨fun x e hx => lt_of_lt_of_le ((hup hok).before x e hx) hnm, ?_⟩⟩
  intro x e₀ hx hx₀ hout
  rcases Nat.lt_or_ge x n with hlt | hge
  · exact (hup hok).all x e₀ hlt hx₀ hout
  · exact absurd ⟨x, e₀, hge, hx, hx₀, hout, rfl⟩ (hnone (pteFrame e₀))

theorem ClonedTo.stopped {n m : Nat} (hstop : r.1 = false) (h : ClonedTo p₀ tab₀ child n r) :
    ClonedTo p₀ tab₀ child m r := by
  obtain ⟨tab, hc, -⟩ := h
  exact ⟨tab, hc, fun hok => by rw [hstop] at hok; cases hok⟩

section
variable (hwf : PmmWf p₀) (hT : Tree p₀ parent tab₀) (hD : Data p₀ tab₀)
include hwf hT hD

theorem cloneLeaf_step {q i pt : Nat} (hpt : tab₀ 0 q = some pt) (hi : i < 512)
    (h : ClonedTo p₀ tab₀ child (q * 512 + i) r) :
    ClonedTo p₀ tab₀ child (q * 512 + (i + 1)) (cloneLeaf child q pt r i) := by
  obtain ⟨ok, p⟩ := r
  cases ok with
  | false => exact h.stopped rfl
  | true =>
    have hskip := h.skip (Nat.le_succ (q * 512 + i))
    obtain ⟨tab, hc, hup⟩ := h
    have hmem : p.mem pt = p₀.mem pt := hc.mem pt (hT.frame _ _ _ hpt).not_free
    have hnone : ∀ g, DataIn p₀ tab₀ (q * 512 + i) (q * 512 + (i + 1)) g ↔ _ := fun g =>
      dataIn_page hpt hi
    rw [cloneLeaf]
    simp only [Bool.not_true, Bool.false_eq_true, if_false, hmem]
    rcases hpresent : present (p₀.mem pt i) with _ | _
    · refine hskip fun g hg => ?_
      have := ((hnone g).mp hg).1
      exact nomatch hpresent.symm.trans this
    rcases hout : kzShmVaExcluded ((q * 512 + i) * 4096) with _ | _
    · simp only [Bool.not_true, Bool.false_eq_true, if_false]
      have hx₀ : Leaf p₀ tab₀ (q * 512 + i) (p₀.mem pt i) := by
        have hmod : (q * 512 + i) % 512 = i := by omega
        exact ⟨pt, by rw [entry_div q hi]; exact hpt, by rw [hmod], hpresent⟩
      have hsrc := (hD.frame _ _ hx₀).not_free
      rcases pmmAllocPage_spec (hc.wf hwf) with hfull | ⟨dst, p₁, hne, halloc, ht⟩
      · rw [hfull]
        exact ⟨tab, hc, nofun⟩
      obtain ⟨dst, rfl⟩ := Nat.exists_eq_succ_of_ne_zero hne
      obtain ⟨ok, p', tab', heq, ha, hL⟩ := hc.tree.attempt (hc.wf hwf) (hx₀.user hT) ht
        (pteFrame (p₀.mem pt i)) (pteFlags (p₀.mem pt i))
      rw [halloc]
      simp only [heq]
      cases ok with
      | false =>
        refine ⟨tab', hc.failed ha fun x' e' => ?_, nofun⟩
        simpa using hL x' e'
      | true =>
        have hnew : ∀ e, ¬ Leaf p tab (q * 512 + i) e := fun e hx =>
          absurd ((hup rfl).before _ _ hx) (lt_irrefl _)
        simp only [true_and] at hL
        obtain ⟨hc', e, he⟩ := hc.mapped hwf hx₀ hout hnew hsrc ha hL
        refine ⟨tab', hc', fun _ => ⟨fun x' e' hx' => ?_, fun x' e' hx' hx₀' hout' => ?_⟩⟩
        · rw [hL] at hx'
          split at hx'
          next heq =>
            rw [heq]
            exact Nat.lt_succ_self _
          · exact Nat.lt_succ_of_lt ((hup rfl).before _ _ hx')
        · by_cases heq : x' = q * 512 + i
          · rw [heq]
            exact ⟨e, he⟩
          · obtain ⟨e'', he''⟩ := (hup rfl).all x' e' (by omega) hx₀' hout'
            refine ⟨e'', ?_⟩
            rw [hL, if_neg heq]
            exact he''
    · simp only [Bool.not_true, Bool.false_eq_true, if_false, if_true]
      refine hskip fun g hg => ?_
      have := ((hnone g).mp hg).2.1
      exact nomatch hout.symm.trans this

theorem cloneTable_spec (K : Nat) :
    ∀ (q f n : Nat) (r : Bool × Phys), tab₀ K q = some f → n ≤ userEntries K →
      ClonedTo p₀ tab₀ child ((q * 512 + 0) * 512 ^ K) r →
      ClonedTo p₀ tab₀ child ((q * 512 + n) * 512 ^ K) (cloneTable child K q f n r) := by
  induction K with
  | zero =>
    intro q f n r hf hn h
    rw [cloneTable]
    induction n with
    | zero => exact h
    | succ n ih =>
      rw [range_succ, foldl_append]
      have hpart := ih (by omega)
      rw [pow_zero, mul_one] at hpart ⊢
      exact cloneLeaf_step hwf hT hD hf (lt_of_lt_of_le hn (userEntries_le 0)) hpart
  | succ k ihK =>
    intro q f n r hf hn h
    rw [cloneTable]
    have hk : k < 3 := by
      have := hT.high _ _ _ hf
      omega
    induction n with
    | zero => exact h
    | succ n ih =>
      rw [range_succ, foldl_append]
      have hpart := ih (by omega)
      generalize List.foldl _ r (List.range n) = r' at hpart
      rw [← add_assoc, foldl_cons, foldl_nil]
      obtain ⟨ok, p⟩ := r'
      cases ok with
      | false => exact hpart.stopped rfl
      | true =>
        have hn512 := lt_of_lt_of_le hn (userEntries_le (k + 1))
        have hmem : p.mem f = p₀.mem f := by
          obtain ⟨tab, hc, -⟩ := hpart
          exact hc.mem f (hT.frame _ _ _ hf).not_free
        simp only [Bool.not_true, Bool.false_eq_true, if_false, hmem]
        rcases hdown : tab₀ k (q * 512 + n) with _ | g
        · rw [hT.absent _ _ _ _ hf hn hdown]
          refine hpart.skip (Nat.mul_le_mul_right _ (Nat.le_succ _)) fun g hg => ?_
          exact not_freed_absent hT hk hdown (.inr hg)
        have hg := hT.frame _ _ _ hdown
        rw [hT.entry _ _ _ _ _ hf hn512 hdown, tableEntry_present,
          tableEntry_huge hg.aligned, tableEntry_mask hg.aligned (hg.wide hwf)]
        simp only [Bool.not_true, Bool.or_self, Bool.false_eq_true, if_false]
        rw [← entry_end]
        refine ihK _ g 512 _ hdown (le_of_eq (userEntries_lower hk).symm) ?_
        rw [entry_start]
        exact hpart

end

end

end Kyuzen.Mm
