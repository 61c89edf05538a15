import Kyuzen.Mm.SpaceClone

/-!
What copying and destroying an address space does to the frames, for every space
that `vmm_create_address_space` and `vmm_map_page_into` can build while the rest of
the kernel keeps allocating, freeing and writing elsewhere.
-/

namespace Kyuzen.Mm

open Finset

/-- A table that the walk of some user page comes to. -/
def TableFrame (p : Phys) (root f : Nat) : Prop :=
  ∃ x, x < userPages ∧ ∃ depth, depth ≤ 3 ∧ tableOf p.mem root x depth = some f

def PageFrame (p : Phys) (root x f : Nat) : Prop :=
  ∃ e, leafOf p.mem root x = some e ∧ pteFrame e = f

def InSpace (p : Phys) (root f : Nat) : Prop :=
  TableFrame p root f ∨ ∃ x, x < userPages ∧ PageFrame p root x f

/-- The frames that go with the space: tables, and pages outside of the shared
surfaces. -/
def Owned (p : Phys) (root f : Nat) : Prop :=
  TableFrame p root f ∨
    ∃ x, x < userPages ∧ kzShmVaExcluded (x * 4096) = false ∧ PageFrame p root x f

inductive Built : Phys → Nat → Prop
  | create {p p' : Phys} {root : Nat} (hwf : PmmWf p) (h : vmmCreateAddressSpace p = (root, p'))
      (hroot : root ≠ physNull) : Built p' root
  /-- A frame in use that the space does not have yet is mapped at a user page. -/
  | map {p : Phys} {root : Nat} (x paddr flags : Nat) (h : Built p root) (hx : x < userPages)
      (hframe : Frame p paddr) (hnew : ¬ InSpace p root paddr) (hflags : pteFlags flags = flags) :
      Built (vmmMapPageInto p (x * 4096) paddr flags root).2 root
  /-- Anything else happens that leaves the tables alone and frees no frame of the
  space: other allocations, other spaces, writes to the pages. -/
  | other {p p' : Phys} {root : Nat} (h : Built p root) (hwf : PmmWf p') (hb : SameBounds p p')
      (htables : ∀ f, TableFrame p root f → p'.mem f = p.mem f)
      (hused : ∀ f, InSpace p root f → p'.bitmap (f / 4096) = true) : Built p' root

/-- What a copy is: each page outside of the shared surfaces in a new frame with the
same content and flags, no other page, and all new frames belong to the child. -/
structure ClonedExactly (p : Phys) (root : Nat) (p' : Phys) (child : Nat) : Prop where
  pages : ∀ x e, x < userPages → kzShmVaExcluded (x * 4096) = false →
    leafOf p.mem root x = some e → ∃ e', leafOf p'.mem child x = some e' ∧
      pteFlags e' = pteFlags e ∧ Free p (pteFrame e') ∧ Frame p' (pteFrame e') ∧
      p'.mem (pteFrame e') = p.mem (pteFrame e)
  only : ∀ x e', x < userPages → leafOf p'.mem child x = some e' →
    kzShmVaExcluded (x * 4096) = false ∧ ∃ e, leafOf p.mem root x = some e
  distinct : ∀ x e x' e', x < userPages → x' < userPages → leafOf p'.mem child x = some e →
    leafOf p'.mem child x' = some e' → pteFrame e = pteFrame e' → x = x'
  taken : ∀ b, p'.bitmap b = true ↔ p.bitmap b = true ∨ InSpace p' child (b * 4096)
  kernelHalf : ∀ i, 256 ≤ i → i < 512 → p'.mem child i = p.mem p.currentPml4 i

/-- What destroying a space is: its own frames are free again, each counted once,
and memory outside of its tables and the kernel half of its PML4 are as before. -/
structure FreedExactly (p : Phys) (root : Nat) (p' : Phys) : Prop where
  inUse : ∀ f, Owned p root f → Frame p f
  freed : ∀ b, p'.bitmap b = true ↔ p.bitmap b = true ∧ ¬ Owned p root (b * 4096)
  once : p'.usedPages + Set.ncard {f | Owned p root f} = p.usedPages
  memory : ∀ f, ¬ TableFrame p root f → p'.mem f = p.mem f
  kernelHalf : ∀ i, 256 ≤ i → p'.mem root i = p.mem root i
  kernel : p'.mem p.currentPml4 = p.mem p.currentPml4

/-- Copy and teardown of a space do what they are for. -/
structure SpaceExact (p : Phys) (root : Nat) : Prop where
  cloned : (vmmCloneUserAs p root).1 ≠ physNull →
    ClonedExactly p root (vmmCloneUserAs p root).2 (vmmCloneUserAs p root).1
  /-- A failed copy gives back all it took. -/
  failed : (vmmCloneUserAs p root).1 = physNull →
    (vmmCloneUserAs p root).2.bitmap = p.bitmap ∧ (vmmCloneUserAs p root).2.usedPages = p.usedPages
  /-- Either way the source and the kernel's PML4 are untouched. -/
  source : ∀ f, InSpace p root f ∨ f = p.currentPml4 → (vmmCloneUserAs p root).2.mem f = p.mem f
  sourceUsed : ∀ f, InSpace p root f → (vmmCloneUserAs p root).2.bitmap (f / 4096) = true
  freed : FreedExactly p root (vmmDestroyAddressSpace p root true)

/-! ### The walk and the tree -/

section

variable {p' : Phys} {p : Phys} {root : Nat} {tab : Nat → Nat → Option Nat}

section
variable (hwf : PmmWf p) (h : Tree p root tab)
include hwf h

theorem Tree.tableFrame_iff (f : Nat) : TableFrame p root f ↔ ∃ k q, tab k q = some f := by
  constructor
  · rintro ⟨x, hx, depth, hd, hf⟩
    rw [h.tableOf_eq hwf hx depth hd] at hf
    exact ⟨_, _, hf⟩
  rintro ⟨k, q, hf⟩
  have hk := h.high _ _ _ hf
  refine ⟨q * 512 ^ (k + 1), h.bounded hf, 3 - k, Nat.sub_le 3 k, ?_⟩
  rw [h.tableOf_eq hwf (h.bounded hf) _ (Nat.sub_le 3 k)]
  have hlevel : 3 - (3 - k) = k := by omega
  have hexp : 4 - (3 - k) = k + 1 := by omega
  rw [hlevel, hexp, Nat.mul_div_cancel q (by positivity)]
  exact hf

theorem Tree.pageFrame_iff {x : Nat} (hx : x < userPages)
    (f : Nat) : PageFrame p root x f ↔ ∃ e, Leaf p tab x e ∧ pteFrame e = f := by
  simp only [PageFrame, h.leafOf_iff hwf hx]

theorem Tree.inSpace_iff (f : Nat) :
    InSpace p root f ↔ (∃ k q, tab k q = some f) ∨ ∃ x e, Leaf p tab x e ∧ pteFrame e = f := by
  rw [InSpace, h.tableFrame_iff hwf]
  refine or_congr_right ⟨?_, ?_⟩
  · rintro ⟨x, hx, hf⟩
    exact ⟨x, (h.pageFrame_iff hwf hx f).mp hf⟩
  · rintro ⟨x, e, he, hf⟩
    exact ⟨x, he.user h, (h.pageFrame_iff hwf (he.user h) f).mpr ⟨e, he, hf⟩⟩

theorem Tree.owned_iff (f : Nat) : Owned p root f ↔ (∃ k q, tab k q = some f) ∨
      ∃ x e, Leaf p tab x e ∧ kzShmVaExcluded (x * 4096) = false ∧ pteFrame e = f := by
  rw [Owned, h.tableFrame_iff hwf]
  refine or_congr_right ⟨?_, ?_⟩
  · rintro ⟨x, hx, hout, hf⟩
    obtain ⟨e, he, hf⟩ := (h.pageFrame_iff hwf hx f).mp hf
    exact ⟨x, e, he, hout, hf⟩
  · rintro ⟨x, e, he, hout, hf⟩
    exact ⟨x, he.user h, hout, (h.pageFrame_iff hwf (he.user h) f).mpr ⟨e, he, hf⟩⟩

end

structure Sound (p : Phys) (root : Nat) (tab : Nat → Nat → Option Nat) : Prop where
  wf : PmmWf p
  tree : Tree p root tab
  data : Data p tab
  kernel : ∀ k q, tab k q ≠ some p.currentPml4

theorem Sound.frame (h : Sound p root tab) {f : Nat} (hf : InSpace p root f) : Frame p f := by
  rcases (h.tree.inSpace_iff h.wf f).mp hf with ⟨k, q, hf⟩ | ⟨x, e, he, rfl⟩
  · exact h.tree.frame _ _ _ hf
  · exact h.data.frame _ _ he

theorem Created.sound (hwf : PmmWf p) (h : Created p root p') : Sound p' root (rootTab root) where
  wf := hwf.grows h.bounds fun b hb => (h.bitmap b).mpr (.inl hb)
  tree := h.tree
  data :=
    have hc : Cloning p (rootTab root) root p' (rootTab root) := h.cloning
    hc.data
  kernel k q hf := by
    rw [h.bounds.currentPml4] at hf
    exact hwf.kernel ((rootTab_some.mp hf).2.2 ▸ h.free)

theorem Sound.map (h : Sound p root tab) {x paddr flags : Nat} (hx : x < userPages)
    (hframe : Frame p paddr) (hnew : ¬ InSpace p root paddr) (hflags : pteFlags flags = flags) :
    ∃ tab', Sound (vmmMapPageInto p (x * 4096) paddr flags root).2 root tab' := by
  obtain ⟨ok, p', tab', heq, hT, hE, hL⟩ := h.tree.vmmMapPageInto_spec h.wf hx paddr flags
  rw [h.tree.inSpace_iff h.wf, not_or] at hnew
  obtain ⟨hnotTable, hnotPage⟩ := hnew
  have hpte := pteFrame_leafEntry hframe.aligned (hframe.wide h.wf) hflags
  have hgrow : ∀ f, Frame p f → Frame p' f := fun f hf => hf.grows hE.bounds (hE.grows _ hf.used)
  have happart : ∀ f, Frame p f → (∀ k q, tab k q ≠ some f) → ∀ k q, tab' k q ≠ some f := by
    intro f hf hno k q hk
    rcases hE.fresh _ _ _ hk with hold | hfree
    · exact hno k q hold
    · exact hf.not_free hfree
  have hcases : ∀ {x' e'}, Leaf p' tab' x' e' →
      (x' = x ∧ pteFrame e' = paddr) ∨ Leaf p tab x' e' := by
    intro x' e' hx'
    rw [hL] at hx'
    split at hx'
    next hsame =>
      obtain ⟨rfl, -⟩ := hx'
      exact .inl ⟨hsame.2, hpte⟩
    · exact .inr hx'
  refine ⟨tab', ?_⟩
  rw [heq]
  refine ⟨h.wf.grows hE.bounds hE.grows, hT, ⟨?_, ?_, ?_⟩, ?_⟩
  · intro x' e' hx'
    rcases hcases hx' with ⟨-, hf⟩ | hold
    · rw [hf]
      exact hgrow _ hframe
    · exact hgrow _ (h.data.frame _ _ hold)
  · intro x' e' k q hx'
    rcases hcases hx' with ⟨-, hf⟩ | hold
    · rw [hf]
      exact happart paddr hframe (fun k q hk => hnotTable ⟨k, q, hk⟩) k q
    · exact happart _ (h.data.frame _ _ hold) (fun k q => h.data.apart _ _ k q hold) k q
  · intro x' e' x'' e'' hx' hx'' hsame
    rcases hcases hx' with ⟨rfl, hf⟩ | hold
    · rcases hcases hx'' with ⟨rfl, -⟩ | hold'
      · rfl
      · exact absurd ⟨x'', e'', hold', hsame.symm.trans hf⟩ hnotPage
    · rcases hcases hx'' with ⟨-, hf⟩ | hold'
      · exact absurd ⟨x', e', hold, hsame.trans hf⟩ hnotPage
      · exact h.data.inj _ _ _ _ hold hold' hsame
  · intro k q hk
    rw [hE.bounds.currentPml4] at hk
    rcases hE.fresh _ _ _ hk with hold | hfree
    · exact h.kernel k q hold
    · exact h.wf.kernel hfree

theorem Sound.other (h : Sound p root tab) (hwf : PmmWf p') (hb : SameBounds p p')
    (htables : ∀ f, TableFrame p root f → p'.mem f = p.mem f)
    (hused : ∀ f, InSpace p root f → p'.bitmap (f / 4096) = true) : Sound p' root tab := by
  have hmem : ∀ k q f, tab k q = some f → p'.mem f = p.mem f := fun k q f hf =>
    htables f ((h.tree.tableFrame_iff h.wf f).mpr ⟨k, q, hf⟩)
  have hin := h.tree.inSpace_iff h.wf
  have hL := leaf_elsewhere hmem
  refine ⟨hwf, ?_, ⟨fun x e hx => ?_, fun x e k q hx => ?_, fun x e x' e' hx hx' => ?_⟩, fun k q hk => ?_⟩
  · exact h.tree.elsewhere hb (fun k q f hf => hused f ((hin f).mpr (.inl ⟨k, q, hf⟩))) hmem
  · have hold := (hL x e).mp hx
    exact (h.data.frame _ _ hold).grows hb (hused _ ((hin _).mpr (.inr ⟨x, e, hold, rfl⟩)))
  · exact h.data.apart _ _ k q ((hL x e).mp hx)
  · exact h.data.inj _ _ _ _ ((hL x e).mp hx) ((hL x' e').mp hx')
  · rw [hb.currentPml4] at hk
    exact h.kernel k q hk

theorem Built.sound (h : Built p root) : ∃ tab, Sound p root tab := by
  induction h with
  | create hwf heq hroot =>
    rcases vmmCreateAddressSpace_spec hwf with hnone | ⟨root', p', -, heq', hc⟩
    · rw [hnone] at heq
      cases heq
      exact absurd rfl hroot
    · rw [heq'] at heq
      cases heq
      exact ⟨_, hc.sound hwf⟩
  | map x paddr flags _ hx hframe hnew hflags ih =>
    obtain ⟨tab, hs⟩ := ih
    exact hs.map hx hframe hnew hflags
  | other _ hwf hb htables hused ih =>
    obtain ⟨tab, hs⟩ := ih
    exact ⟨tab, hs.other hwf hb htables hused⟩

theorem Built.alloc {f : Nat} (h : Built p root) (ht : Takes p f p') :
    Built p' root ∧ Frame p' f ∧ ¬ InSpace p' root f := by
  obtain ⟨tab, hs⟩ := h.sound
  refine ⟨h.other (hs.wf.grows ht.bounds ht.grows) ht.bounds (fun t _ => by rw [ht.mem])
    fun g hg => ht.grows _ (hs.frame hg).used, ht.frame hs.wf, fun hf => ?_⟩
  have hmem : InSpace p root f := by
    simpa only [InSpace, TableFrame, PageFrame, ht.mem] using hf
  exact (hs.frame hmem).not_free ht.free

/-! ### Teardown and copy -/

theorem counted_freed (hc : Counted p) (hc' : Counted p') (htotal : p'.totalPages = p.totalPages)
    {S : Nat → Prop} (hS : ∀ f, S f → Frame p f)
    (hfreed : ∀ b, p'.bitmap b = true ↔ p.bitmap b = true ∧ ¬ S (b * 4096)) :
    p'.usedPages + Set.ncard {f | S f} = p.usedPages := by
  have hsub : (range p'.totalPages).filter (fun i => p'.bitmap i = true) ⊆
      (range p.totalPages).filter (fun i => p.bitmap i = true) := by
    intro b hb
    rw [mem_filter, hfreed, htotal] at hb
    exact mem_filter.mpr ⟨hb.1, hb.2.1⟩
  have himage : {f | S f} = Set.image (fun b => b * 4096)
      (((range p.totalPages).filter (fun i => p.bitmap i = true) \
        (range p'.totalPages).filter (fun i => p'.bitmap i = true) : Finset Nat) : Set Nat) := by
    ext f
    simp only [Set.mem_ofPred_eq, Set.mem_image, mem_coe, mem_sdiff, mem_filter,
      mem_range, htotal, hfreed]
    constructor
    · intro hf
      have hframe := hS f hf
      have hdiv := hframe.div_mul
      refine ⟨f / 4096, ⟨⟨hframe.inside, hframe.used⟩, fun h => h.2.2 ?_⟩, hdiv⟩
      rw [hdiv]
      exact hf
    · rintro ⟨b, ⟨⟨hb, hused⟩, hno⟩, rfl⟩
      by_contra hf
      exact hno ⟨hb, hused, hf⟩
  have hinj : Function.Injective (fun b : Nat => b * 4096) := fun a b hab =>
    Nat.eq_of_mul_eq_mul_right (by decide) hab
  rw [himage, Set.ncard_image_of_injective _ hinj, Set.ncard_coe_finset,
    card_sdiff_of_subset hsub, hc, hc']
  exact Nat.add_sub_cancel' (card_le_card hsub)

theorem Sound.freedExactly (h : Sound p root tab) :
    FreedExactly p root (vmmDestroyAddressSpace p root true) := by
  obtain ⟨hb, hbit, hmem, hkernel⟩ := vmmDestroyAddressSpace_spec h.wf h.tree h.data
  have howned := h.tree.owned_iff h.wf
  have hframe : ∀ f, Owned p root f → Frame p f := by
    intro f hf
    rcases (howned f).mp hf with ⟨k, q, hf⟩ | ⟨x, e, he, -, rfl⟩
    · exact h.tree.frame _ _ _ hf
    · exact h.data.frame _ _ he
  have hfreed : ∀ b, (vmmDestroyAddressSpace p root true).bitmap b = true ↔
      p.bitmap b = true ∧ ¬ Owned p root (b * 4096) := by
    intro b
    rw [hbit, howned, not_or]
  exact
    { inUse := hframe
      freed := hfreed
      once := counted_freed h.wf.counted (hb.counted h.wf.counted) hb.totalPages hframe hfreed
      memory := fun f hf => hmem f fun k q hk => hf ((h.tree.tableFrame_iff h.wf f).mpr ⟨k, q, hk⟩)
      kernelHalf := hkernel
      kernel := hmem _ h.kernel }

variable {tab' : Nat → Nat → Option Nat} {child : Nat}

section
variable (h : Sound p root tab) (hc : Cloning p tab child p' tab')
include h hc

theorem Cloning.clonedExactly (hup : Upto p tab userPages p' tab') :
    ClonedExactly p root p' child := by
  have hwf' := hc.wf h.wf
  refine ⟨?_, ?_, ?_, ?_, hc.kernel⟩
  · intro x e hx hout he
    rw [h.tree.leafOf_iff h.wf hx] at he
    obtain ⟨e', he'⟩ := hup.all x e hx he hout
    obtain ⟨-, hfree, e₀, he₀, hflags, hcopy⟩ := hc.page x e' he'
    have hsame := he₀.unique he
    subst hsame
    exact ⟨e', (hc.tree.leafOf_iff hwf' hx).mpr he', hflags, hfree, hc.data.frame _ _ he', hcopy⟩
  · intro x e' hx he'
    rw [hc.tree.leafOf_iff hwf' hx] at he'
    obtain ⟨hout, -, e₀, he₀, -⟩ := hc.page x e' he'
    exact ⟨hout, e₀, (h.tree.leafOf_iff h.wf hx).mpr he₀⟩
  · intro x e x' e' hx hx' he he'
    rw [hc.tree.leafOf_iff hwf' hx] at he
    rw [hc.tree.leafOf_iff hwf' hx'] at he'
    exact hc.data.inj _ _ _ _ he he'
  · intro b
    rw [hc.bitmap, hc.tree.inSpace_iff hwf']

/-- A partial child is destroyed: what is left is what was there before. -/
theorem Cloning.undone : (vmmDestroyAddressSpace p' child true).bitmap = p.bitmap ∧
      SameBounds p (vmmDestroyAddressSpace p' child true) ∧
      ∀ t, ¬ Free p t → (vmmDestroyAddressSpace p' child true).mem t = p.mem t := by
  obtain ⟨hb, hbit, hmem, -⟩ := vmmDestroyAddressSpace_spec (hc.wf h.wf) hc.tree hc.data
  refine ⟨?_, hc.bounds.trans hb, fun t ht => ?_⟩
  · funext b
    rw [Bool.eq_iff_iff, hbit, hc.bitmap]
    constructor
    · rintro ⟨hused | htab | ⟨x, e, he, hf⟩, hnotTab, hnotPage⟩
      · exact hused
      · exact absurd htab hnotTab
      · exact absurd ⟨x, e, he, (hc.page x e he).1, hf⟩ hnotPage
    intro hused
    have hnotFree : ¬ Free p (b * 4096) := fun hf => by
      have := hf.unused
      rw [Nat.mul_div_cancel b (by decide), hused] at this
      cases this
    refine ⟨.inl hused, ?_, ?_⟩
    · rintro ⟨k, q, hf⟩
      exact hnotFree (hc.table _ _ _ hf)
    · rintro ⟨x, e, he, -, hf⟩
      exact hnotFree (hf ▸ (hc.page x e he).2.1)
  · rw [hmem t fun k q hf => ht (hc.table _ _ _ hf)]
    exact hc.mem t ht

end

theorem Sound.vmmCloneUserAs_spec (h : Sound p root tab) :
    (∃ child p' tab', child ≠ physNull ∧ vmmCloneUserAs p root = (child, p') ∧
      Cloning p tab child p' tab' ∧ Upto p tab userPages p' tab') ∨
    ∃ p', vmmCloneUserAs p root = (physNull, p') ∧ p'.bitmap = p.bitmap ∧ SameBounds p p' ∧
      ∀ t, ¬ Free p t → p'.mem t = p.mem t := by
  have hkept : ∃ p', (physNull, p) = (physNull, p') ∧ p'.bitmap = p.bitmap ∧ SameBounds p p' ∧
      ∀ t, ¬ Free p t → p'.mem t = p.mem t := ⟨p, rfl, rfl, SameBounds.refl p, fun _ _ => rfl⟩
  rw [vmmCloneUserAs]
  split
  · exact .inr hkept
  rcases vmmCreateAddressSpace_spec h.wf with hnone | ⟨child, p₁, hne, heq, hcreated⟩
  · rw [hnone]
    exact .inr hkept
  obtain ⟨child, rfl⟩ := Nat.exists_eq_succ_of_ne_zero hne
  rw [heq]
  have hstart : ClonedTo p tab (child + 1) ((0 * 512 + 0) * 512 ^ 3) (true, p₁) := by
    refine ⟨_, hcreated.cloning, fun _ => ⟨fun x e hx => absurd hx rootTab_leaf, ?_⟩⟩
    intro x e₀ hx
    rw [Nat.zero_mul] at hx
    exact absurd hx (Nat.not_lt_zero x)
  have hend := cloneTable_spec h.wf h.tree h.data 3 0 root 256 _ h.tree.root_frame (le_refl 256) hstart
  have hpages : (0 * 512 + 256) * 512 ^ 3 = userPages := by decide
  rw [hpages] at hend
  obtain ⟨tab', hc, hup⟩ := hend
  simp only [Nat.succ_eq_add_one]
  rcases hr : cloneTable (child + 1) 3 0 root 256 (true, p₁) with ⟨ok, p'⟩
  rw [hr] at hc hup
  cases ok with
  | true => exact .inl ⟨child + 1, p', tab', hne, rfl, hc, hup rfl⟩
  | false =>
    obtain ⟨hbit, hb, hmem⟩ := hc.undone h
    exact .inr ⟨_, rfl, hbit, hb, hmem⟩

/-- For every space that was built, `vmm_clone_user_as` copies it exactly or gives
back all it took, and `vmm_destroy_address_space` frees exactly what it owns. -/
theorem built_space_exact (h : Built p root) : SpaceExact p root := by
  obtain ⟨tab, hs⟩ := h.sound
  have hsource : ∀ f, InSpace p root f ∨ f = p.currentPml4 → ¬ Free p f := by
    rintro f (hf | rfl)
    · exact (hs.frame hf).not_free
    · exact hs.wf.kernel
  rcases hs.vmmCloneUserAs_spec with ⟨child, p', tab', hne, heq, hc, hup⟩ | ⟨p', heq, hbit, hb, hmem⟩
  · refine ⟨fun _ => ?_, fun hnull => ?_, fun f hf => ?_, fun f hf => ?_, hs.freedExactly⟩
    · rw [heq]
      exact hc.clonedExactly hs hup
    · rw [heq] at hnull
      exact absurd hnull hne
    · rw [heq]
      exact hc.mem f (hsource f hf)
    · rw [heq]
      exact hc.grows _ (hs.frame hf).used
  · refine ⟨fun hne => ?_, fun _ => ?_, fun f hf => ?_, fun f hf => ?_, hs.freedExactly⟩
    · rw [heq] at hne
      exact absurd rfl hne
    · rw [heq]
      refine ⟨hbit, ?_⟩
      have hcount := hb.counted hs.wf.counted
      rw [Counted, hbit, hb.totalPages] at hcount
      rw [hcount]
      exact hs.wf.counted.symm
    · rw [heq]
      exact hmem f (hsource f hf)
    · rw [heq, hbit]
      exact (hs.frame hf).used

/-! ### A fork that is given up -/

/-- `q` has the frames in use of `p`, with what they hold. -/
def Restored (p q : Phys) : Prop :=
  q.bitmap = p.bitmap ∧ SameBounds p q ∧ ∀ f, ¬ Free p f → q.mem f = p.mem f

theorem Restored.trans {q r : Phys} (h : Restored p q) (h' : Restored q r) : Restored p r := by
  obtain ⟨hbit, hb, hmem⟩ := h
  refine ⟨h'.1.trans hbit, hb.trans h'.2.1, fun f hf => (h'.2.2 f fun hfree => hf ?_).trans (hmem f hf)⟩
  exact hfree.shrinks hb fun b hu => hbit ▸ hu

/-- `task_fork` gives its child up behind the copy. A copy that failed is NULL, which
`vmm_destroy_address_space` ignores. -/
def forkAbandoned (root : Nat) (p : Phys) : Phys :=
  let (child, p') := vmmCloneUserAs p root
  vmmDestroyAddressSpace p' child true

theorem Built.forkAbandoned (h : Built p root) :
    Built (forkAbandoned root p) root ∧ Restored p (forkAbandoned root p) := by
  obtain ⟨tab, hs⟩ := h.sound
  have hback : Restored p (Mm.forkAbandoned root p) := by
    rw [Mm.forkAbandoned]
    rcases hs.vmmCloneUserAs_spec with ⟨child, p', tab', -, heq, hc, -⟩ | ⟨p', heq, hkept⟩
    · rw [heq]
      exact hc.undone hs
    · rw [heq]
      exact hkept
  obtain ⟨hbit, hb, hmem⟩ := hback
  refine ⟨h.other (hs.wf.grows hb fun b hu => hbit ▸ hu) hb (fun f hf => hmem f ?_) fun f hf => ?_,
    hbit, hb, hmem⟩
  · exact (hs.frame (.inl hf)).not_free
  · rw [hbit]
    exact (hs.frame hf).used

/-- However often a fork is given up, no frame is lost and memory in use stays. -/
theorem abandoned_forks_leak_nothing (h : Built p root) (n : Nat) :
    Built ((forkAbandoned root)^[n] p) root ∧ Restored p ((forkAbandoned root)^[n] p) := by
  have hself : Restored p p := ⟨rfl, .refl p, fun _ _ => rfl⟩
  refine Function.Iterate.rec (fun q => Built q root ∧ Restored p q) ⟨h, hself⟩ ?_ n
  rintro q ⟨hq, hback⟩
  exact ⟨hq.forkAbandoned.1, hback.trans hq.forkAbandoned.2⟩

end

/-! ### A space with one page -/

def smallPhys : Phys where
  mem := fun _ _ => 0
  bitmap := fun i => decide (i < 18432)
  bitmapPages := 18440
  totalPages := 18440
  usedPages := 18432
  nextFreeHint := 18432
  currentPml4 := 4096

theorem smallPhys_wf : PmmWf smallPhys where
  zone i _ hlow := by
    have hzone : pmmKernelZoneEnd = 18432 * 4096 := by decide
    have hlt : i < 18432 := by omega
    exact decide_eq_true hlt
  total := le_refl 18440
  width := by decide
  kernel h := by
    have := h.unused
    cases this
  counted := by
    have hset : (range 18440).filter (fun i => decide (i < 18432) = true) =
        range 18432 := by
      ext i
      simp only [decide_eq_true_eq, mem_filter, mem_range]
      omega
    change 18432 = ((range 18440).filter (fun i => decide (i < 18432) = true)).card
    rw [hset, card_range]

def firstSpace : Nat × Phys := vmmCreateAddressSpace smallPhys

theorem firstSpace_root : firstSpace.1 = 18432 * 4096 := by decide +kernel

theorem firstSpace_built : Built firstSpace.2 firstSpace.1 :=
  Built.create smallPhys_wf rfl (by rw [firstSpace_root]; decide)

theorem firstSpace_takes : Takes firstSpace.2 (18433 * 4096) (firstSpace.2.take 18433).2 :=
  take_takes (by decide +kernel) (by decide +kernel)

def onePage : Phys :=
  (vmmMapPageInto (firstSpace.2.take 18433).2 (1024 * 4096) (18433 * 4096) (pteFlags (pagingNx + 7))
    firstSpace.1).2

theorem onePage_built : Built onePage firstSpace.1 := by
  obtain ⟨hbuilt, hframe, hnew⟩ := firstSpace_built.alloc firstSpace_takes
  exact hbuilt.map 1024 _ _ (by decide) hframe hnew (pteFlags_pteFlags _)

theorem onePage_exact : leafOf onePage.mem firstSpace.1 1024 ≠ none ∧ SpaceExact onePage firstSpace.1 :=
  ⟨by decide +kernel, built_space_exact onePage_built⟩

theorem onePage_forks : ((forkAbandoned firstSpace.1)^[9] onePage).bitmap = onePage.bitmap :=
  (abandoned_forks_leak_nothing onePage_built 9).2.1

end Kyuzen.Mm
