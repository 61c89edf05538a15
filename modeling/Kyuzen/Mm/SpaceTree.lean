import Kyuzen.Mm.Frames

/-!
The tables of an address space as a tree of frames. `tab level q` is the frame of
the table of that level that maps the pages from `q * 512 ^ (level + 1)` on. The
tree owns each of its frames once, and `vmm_map_page_into` only makes it grow.
-/

namespace Kyuzen.Mm

def userEntries (level : Nat) : Nat := if level = 3 then 256 else 512

/-- `tab` is the tree of tables below `root`. -/
structure Tree (p : Phys) (root : Nat) (tab : Nat → Nat → Option Nat) : Prop where
  root : ∀ q f, tab 3 q = some f ↔ q = 0 ∧ f = root
  high : ∀ k q f, tab k q = some f → k ≤ 3
  inj : ∀ k q k' q' f, tab k q = some f → tab k' q' = some f → k = k' ∧ q = q'
  frame : ∀ k q f, tab k q = some f → Frame p f
  parent : ∀ k q g, tab k q = some g → k < 3 →
    q % 512 < userEntries (k + 1) ∧ ∃ f, tab (k + 1) (q / 512) = some f
  entry : ∀ k q f i g, tab (k + 1) q = some f → i < 512 → tab k (q * 512 + i) = some g →
    p.mem f i = g ||| 7
  absent : ∀ k q f i, tab (k + 1) q = some f → i < userEntries (k + 1) →
    tab k (q * 512 + i) = none → p.mem f i = 0

def Leaf (p : Phys) (tab : Nat → Nat → Option Nat) (x e : Nat) : Prop :=
  ∃ f, tab 0 (x / 512) = some f ∧ p.mem f (x % 512) = e ∧ present e = true

structure Data (p : Phys) (tab : Nat → Nat → Option Nat) : Prop where
  frame : ∀ x e, Leaf p tab x e → Frame p (pteFrame e)
  apart : ∀ x e k q, Leaf p tab x e → tab k q ≠ some (pteFrame e)
  inj : ∀ x e x' e', Leaf p tab x e → Leaf p tab x' e' → pteFrame e = pteFrame e' → x = x'

theorem entry_div (q : Nat) {i : Nat} (hi : i < 512) : (q * 512 + i) / 512 = q := by omega

theorem entry_start (r k : Nat) : (r * 512 + 0) * 512 ^ k = r * 512 ^ (k + 1) := by
  rw [pow_succ']
  ring

theorem entry_end (r k : Nat) : (r * 512 + 512) * 512 ^ k = (r + 1) * 512 ^ (k + 1) := by
  rw [pow_succ']
  ring

theorem userEntries_le (k : Nat) : userEntries k ≤ 512 := by
  rw [userEntries]
  split <;> decide

theorem userEntries_lower {k : Nat} (hk : k < 3) : userEntries k = 512 := if_neg (hk.ne)

section

variable {e g k q x : Nat} {p p' : Phys} {root : Nat} {tab tab' : Nat → Nat → Option Nat}

section
variable (h : Tree p root tab)
include h

theorem Tree.root_frame : tab 3 0 = some root := (h.root 0 root).mpr ⟨rfl, rfl⟩

theorem Tree.above (hg : tab k q = some g) (n : Nat) (hn : k + n ≤ 3) :
    ∃ f, tab (k + n) (q / 512 ^ n) = some f := by
  induction n with
  | zero => exact ⟨g, by simpa using hg⟩
  | succ n ih =>
    obtain ⟨f, hf⟩ := ih (by omega)
    obtain ⟨_, f', hf'⟩ := h.parent _ _ _ hf (by omega)
    refine ⟨f', ?_⟩
    rw [Nat.div_div_eq_div_mul, ← pow_succ] at hf'
    exact hf'

theorem Tree.bounded (hg : tab k q = some g) : q * 512 ^ (k + 1) < userPages := by
  have hk := h.high _ _ _ hg
  rcases lt_or_ge k 3 with hlt | hge
  · obtain ⟨f, hf⟩ := h.above hg (2 - k) (by omega)
    have hlevel : k + (2 - k) = 2 := by omega
    rw [hlevel] at hf
    obtain ⟨hlow, r, hr⟩ := h.parent _ _ _ hf (by decide)
    obtain ⟨hzero, -⟩ := (h.root _ _).mp hr
    rw [userEntries, if_pos rfl] at hlow
    have htop : q / 512 ^ (2 - k) < 256 := by omega
    have hmul : q < 256 * 512 ^ (2 - k) := (Nat.div_lt_iff_lt_mul (by positivity)).mp htop
    calc q * 512 ^ (k + 1) < 256 * 512 ^ (2 - k) * 512 ^ (k + 1) :=
          Nat.mul_lt_mul_of_pos_right hmul (by positivity)
      _ = 256 * 512 ^ (2 - k + (k + 1)) := by rw [mul_assoc, ← pow_add]
      _ = userPages := by
          have : 2 - k + (k + 1) = 3 := by omega
          rw [this]
          decide
  · have hk3 : k = 3 := by omega
    subst hk3
    rw [((h.root _ _).mp hg).1]
    decide

theorem Leaf.user (hx : Leaf p tab x e) : x < userPages := by
  obtain ⟨f, hf, -⟩ := hx
  have hb := h.bounded hf
  have hmul : userPages = 2 ^ 26 * 512 := by decide
  rw [pow_one] at hb
  omega

end

theorem Leaf.unique {e' : Nat} (h : Leaf p tab x e) (h' : Leaf p tab x e') : e = e' := by
  obtain ⟨f, hf, he, -⟩ := h
  obtain ⟨f', hf', he', -⟩ := h'
  rw [hf] at hf'
  cases hf'
  rw [← he, he']

/-! ### The walk reads the tree -/

section
variable (hwf : PmmWf p) (h : Tree p root tab) (hx : x < userPages)
include hwf h hx

theorem Tree.tableOf_eq (depth : Nat) (hd : depth ≤ 3) :
    tableOf p.mem root x depth = tab (3 - depth) (x / 512 ^ (4 - depth)) := by
  induction depth with
  | zero =>
    have hzero : x / 512 ^ 4 = 0 := Nat.div_eq_of_lt (lt_trans hx (by decide))
    rw [Nat.sub_zero, Nat.sub_zero, hzero, h.root_frame]
    rfl
  | succ depth ih =>
    rw [tableOf, ih (by omega)]
    have hdiv : x / 512 ^ (4 - depth) = x / 512 ^ (3 - depth) / 512 := by
      rw [Nat.div_div_eq_div_mul, ← pow_succ]
      congr 2
      omega
    have hlevel : 3 - depth = 3 - (depth + 1) + 1 := by omega
    have hexp : 4 - (depth + 1) = 3 - depth := by omega
    rw [hexp]
    rcases hup : tab (3 - depth) (x / 512 ^ (4 - depth)) with _ | f
    · -- without the table above there is none below
      rcases hdown : tab (3 - (depth + 1)) (x / 512 ^ (3 - depth)) with _ | g
      · rfl
      · obtain ⟨_, f, hf⟩ := h.parent _ _ _ hdown (by omega)
        rw [← hlevel, ← hdiv, hup] at hf
        cases hf
    dsimp only
    have hup' := hup
    rw [hlevel] at hup'
    have hsplit : x / 512 ^ (3 - depth) =
        x / 512 ^ (4 - depth) * 512 + x / 512 ^ (3 - depth) % 512 := by
      rw [hdiv]
      omega
    rcases hdown : tab (3 - (depth + 1)) (x / 512 ^ (3 - depth)) with _ | g
    · have hlow : x / 512 ^ (3 - depth) % 512 < userEntries (3 - (depth + 1) + 1) := by
        rw [← hlevel, userEntries]
        split
        · have h0 : depth = 0 := by omega
          subst h0
          have h27 : (512 : Nat) ^ (3 - 0) = 2 ^ 27 := by decide
          have h35 : userPages = 2 ^ 8 * 2 ^ 27 := by decide
          rw [h27]
          omega
        · exact Nat.mod_lt _ (by decide)
      rw [hsplit] at hdown
      rw [h.absent _ _ _ _ hup' hlow hdown]
      rfl
    · have hf := h.frame _ _ _ hdown
      rw [hsplit] at hdown
      rw [h.entry _ _ _ _ _ hup' (Nat.mod_lt _ (by decide)) hdown, tableEntry_present,
        tableEntry_huge hf.aligned, tableEntry_mask hf.aligned (hf.wide hwf)]
      rfl

theorem Tree.leafOf_iff : leafOf p.mem root x = some e ↔ Leaf p tab x e := by
  rw [leafOf, h.tableOf_eq hwf hx 3 (le_refl 3), Leaf]
  rw [pow_one]
  rcases tab 0 (x / 512) with _ | f
  · simp
  simp only [Option.ite_none_right_eq_some, Option.some.injEq, exists_eq_left']
  constructor
  · rintro ⟨hpresent, rfl⟩
    exact ⟨rfl, hpresent⟩
  · rintro ⟨rfl, hpresent⟩
    exact ⟨hpresent, rfl⟩

end

/-! ### Growth -/

/-- The tree grew by free frames, and only its own tables were written, below the
kernel half. -/
structure Ext (p : Phys) (root : Nat) (tab : Nat → Nat → Option Nat) (p' : Phys)
    (tab' : Nat → Nat → Option Nat) : Prop where
  bounds : SameBounds p p'
  sub : ∀ k q f, tab k q = some f → tab' k q = some f
  fresh : ∀ k q f, tab' k q = some f → tab k q = some f ∨ Free p f
  bitmap : ∀ b, p'.bitmap b = true ↔ p.bitmap b = true ∨ ∃ k q, tab' k q = some (b * 4096)
  mem : ∀ t, (∀ k q, tab' k q ≠ some t) → p'.mem t = p.mem t
  kernel : ∀ i, 256 ≤ i → p'.mem root i = p.mem root i

theorem Tree.used (h : Tree p root tab) {b : Nat} (hb : tab k q = some (b * 4096)) :
    p.bitmap b = true := by
  have := (h.frame _ _ _ hb).used
  rwa [Nat.mul_div_cancel b (by decide)] at this

theorem Ext.refl (h : Tree p root tab) : Ext p root tab p tab where
  bounds := SameBounds.refl p
  sub _ _ _ hf := hf
  fresh _ _ _ hf := .inl hf
  bitmap _ := ⟨.inl, fun hb => hb.elim id fun ⟨_, _, hb⟩ => h.used hb⟩
  mem _ _ := rfl
  kernel _ _ := rfl

theorem Ext.grows (h : Ext p root tab p' tab') (b : Nat) (hb : p.bitmap b = true) :
    p'.bitmap b = true :=
  (h.bitmap b).mpr (.inl hb)

theorem Ext.trans {p'' : Phys} {tab'' : Nat → Nat → Option Nat} (h : Ext p root tab p' tab')
    (h' : Ext p' root tab' p'' tab'') : Ext p root tab p'' tab'' where
  bounds := h.bounds.trans h'.bounds
  sub k q f hf := h'.sub k q f (h.sub k q f hf)
  fresh k q f hf := by
    rcases h'.fresh k q f hf with hold | hfree
    · exact h.fresh k q f hold
    · exact .inr (hfree.shrinks h.bounds h.grows)
  bitmap b := by
    rw [h'.bitmap, h.bitmap]
    constructor
    · rintro ((hb | ⟨k, q, hb⟩) | hb)
      · exact .inl hb
      · exact .inr ⟨k, q, h'.sub _ _ _ hb⟩
      · exact .inr hb
    · rintro (hb | hb)
      · exact .inl (.inl hb)
      · exact .inr hb
  mem t ht := by
    rw [h'.mem t ht, h.mem t fun k q hf => ht k q (h'.sub _ _ _ hf)]
  kernel i hi := (h'.kernel i hi).trans (h.kernel i hi)

def addTable (tab : Nat → Nat → Option Nat) (k q g : Nat) : Nat → Nat → Option Nat :=
  fun k' q' => if k' = k ∧ q' = q then some g else tab k' q'

theorem addTable_cases {k' q' f : Nat} (h : addTable tab k q g k' q' = some f) :
    (k' = k ∧ q' = q ∧ f = g) ∨ (¬ (k' = k ∧ q' = q) ∧ tab k' q' = some f) := by
  rw [addTable] at h
  split at h
  next heq =>
    cases h
    exact .inl ⟨heq.1, heq.2, rfl⟩
  next hne => exact .inr ⟨hne, h⟩

theorem addTable_self (k q g : Nat) : addTable tab k q g k q = some g := if_pos ⟨rfl, rfl⟩

theorem addTable_other {k' q' : Nat} (h : ¬ (k' = k ∧ q' = q)) :
    addTable tab k q g k' q' = tab k' q' := if_neg h

end

section

variable {x : Nat} {p p' : Phys} {root : Nat} {tab : Nat → Nat → Option Nat} {k q f i g : Nat}

/-- A zeroed frame is linked at the empty entry `i` of the table `f`. -/
def linkTable (p' : Phys) (f i g : Nat) : Phys := (p'.zeroPage g).setEntry f i (g ||| 7)

theorem linkTable_mem (t j : Nat) : (linkTable p' f i g).mem t j =
      if t = f ∧ j = i then g ||| 7 else if t = g then 0 else p'.mem t j := rfl

section
variable (h : Tree p root tab)
include h

theorem Tree.fresh_ne (hg : Free p g) {k' q' : Nat} : tab k' q' ≠ some g :=
  fun hf => (h.frame _ _ _ hf).not_free hg

theorem Tree.linked (hwf : PmmWf p) (hf : tab (k + 1) q = some f)
    (hi : i < userEntries (k + 1)) (hnone : tab k (q * 512 + i) = none) (ht : Takes p g p') :
    Tree (linkTable p' f i g) root (addTable tab k (q * 512 + i) g) := by
  have hk : k < 3 := by
    have := h.high _ _ _ hf
    omega
  have hi512 : i < 512 := lt_of_lt_of_le hi (userEntries_le _)
  have hgf : f ≠ g := fun heq => h.fresh_ne ht.free (heq ▸ hf)
  have hmod : (q * 512 + i) % 512 = i := by omega
  have hdiv : (q * 512 + i) / 512 = q := by omega
  -- nothing hangs below the new table
  have hbelow : ∀ k' q', k' + 1 = k → q' / 512 = q * 512 + i → tab k' q' = none := by
    intro k' q' hk' hq'
    rcases hnone' : tab k' q' with _ | f'
    · rfl
    · obtain ⟨_, g', hg'⟩ := h.parent _ _ _ hnone' (by omega)
      rw [hk', hq', hnone] at hg'
      cases hg'
  refine ⟨?_, ?_, ?_, ?_, ?_, ?_, ?_⟩
  · intro q' f'
    rw [addTable_other (by omega)]
    exact h.root q' f'
  · intro k' q' f' hf'
    rcases addTable_cases hf' with ⟨rfl, -, -⟩ | ⟨-, hold⟩
    · omega
    · exact h.high _ _ _ hold
  · intro k₁ q₁ k₂ q₂ f' h₁ h₂
    rcases addTable_cases h₁ with ⟨rfl, rfl, rfl⟩ | ⟨-, hold₁⟩
    · rcases addTable_cases h₂ with ⟨rfl, rfl, -⟩ | ⟨-, hold₂⟩
      · exact ⟨rfl, rfl⟩
      · exact absurd hold₂ (h.fresh_ne ht.free)
    · rcases addTable_cases h₂ with ⟨rfl, rfl, rfl⟩ | ⟨-, hold₂⟩
      · exact absurd hold₁ (h.fresh_ne ht.free)
      · exact h.inj _ _ _ _ _ hold₁ hold₂
  · intro k' q' f' hf'
    rcases addTable_cases hf' with ⟨-, -, rfl⟩ | ⟨-, hold⟩
    · have hframe := ht.frame hwf
      exact {hframe with}
    · have hframe := (h.frame _ _ _ hold).grows ht.bounds (ht.grows _ (h.frame _ _ _ hold).used)
      exact {hframe with}
  · intro k' q' f' hf' hlt
    have hlift : ∀ q'', (∃ f'', tab (k' + 1) q'' = some f'') →
        ∃ f'', addTable tab k (q * 512 + i) g (k' + 1) q'' = some f'' := by
      rintro q'' ⟨f'', hf''⟩
      by_cases heq : k' + 1 = k ∧ q'' = q * 512 + i
      · rw [heq.1, heq.2, hnone] at hf''
        cases hf''
      · exact ⟨f'', by rw [addTable_other heq]; exact hf''⟩
    rcases addTable_cases hf' with ⟨rfl, rfl, -⟩ | ⟨-, hold⟩
    · rw [hmod, hdiv]
      exact ⟨hi, hlift q ⟨f, hf⟩⟩
    · obtain ⟨hlow, hup⟩ := h.parent _ _ _ hold hlt
      exact ⟨hlow, hlift _ hup⟩
  · intro k' q' f' j g' hf' hj hg'
    rw [linkTable_mem]
    rcases addTable_cases hg' with ⟨rfl, heq, rfl⟩ | ⟨hne, hold⟩
    · -- the new table's own entry
      have hq' : q' = q := by omega
      have hj' : j = i := by omega
      subst hq' hj'
      rw [addTable_other (by omega), hf] at hf'
      cases hf'
      rw [if_pos ⟨rfl, rfl⟩]
    · rcases addTable_cases hf' with ⟨hk', rfl, rfl⟩ | ⟨-, hold'⟩
      · have hempty : tab k' ((q * 512 + i) * 512 + j) = none := hbelow k' _ hk' (entry_div _ hj)
        cases hempty.symm.trans hold
      · have hfg : f' ≠ g := fun heq => h.fresh_ne ht.free (heq ▸ hold')
        have hnot : ¬ (f' = f ∧ j = i) := by
          rintro ⟨rfl, rfl⟩
          obtain ⟨h1, rfl⟩ := h.inj _ _ _ _ _ hold' hf
          exact hne ⟨by omega, rfl⟩
        rw [if_neg hnot, if_neg hfg, ht.mem]
        exact h.entry _ _ _ _ _ hold' hj hold
  · intro k' q' f' j hf' hj hg'
    rw [linkTable_mem]
    have hold : tab k' (q' * 512 + j) = none := by
      by_cases heq : k' = k ∧ q' * 512 + j = q * 512 + i
      · rw [heq.1, heq.2, addTable_self] at hg'
        cases hg'
      · rwa [addTable_other heq] at hg'
    rcases addTable_cases hf' with ⟨-, -, rfl⟩ | ⟨-, hold'⟩
    · rw [if_neg (fun heq => hgf heq.1.symm), if_pos rfl]
    have hfg : f' ≠ g := fun heq => h.fresh_ne ht.free (heq ▸ hold')
    have hnot : ¬ (f' = f ∧ j = i) := by
      rintro ⟨rfl, rfl⟩
      obtain ⟨h1, rfl⟩ := h.inj _ _ _ _ _ hold' hf
      have hkk : k' = k := by omega
      rw [hkk, addTable_self] at hg'
      cases hg'
    rw [if_neg hnot, if_neg hfg, ht.mem]
    exact h.absent _ _ _ _ hold' hj hold

theorem Tree.ext_linked (hf : tab (k + 1) q = some f)
    (hi : i < userEntries (k + 1)) (hnone : tab k (q * 512 + i) = none) (ht : Takes p g p') :
    Ext p root tab (linkTable p' f i g) (addTable tab k (q * 512 + i) g) where
  bounds := ht.bounds.write _
  sub k' q' f' hf' := by
    by_cases heq : k' = k ∧ q' = q * 512 + i
    · rw [heq.1, heq.2, hnone] at hf'
      cases hf'
    · rw [addTable_other heq]
      exact hf'
  fresh k' q' f' hf' := by
    rcases addTable_cases hf' with ⟨-, -, rfl⟩ | ⟨-, hold⟩
    · exact .inr ht.free
    · exact .inl hold
  bitmap b := by
    change p'.bitmap b = true ↔ _
    rw [ht.used_iff]
    constructor
    · rintro (hb | rfl)
      · exact .inl hb
      · exact .inr ⟨_, _, addTable_self _ _ _⟩
    · rintro (hb | ⟨k', q', hb⟩)
      · exact .inl hb
      · rcases addTable_cases hb with ⟨-, -, heq⟩ | ⟨-, hold⟩
        · exact .inr heq
        · exact .inl (h.used hold)
  mem t htab := by
    have htf : t ≠ f := fun heq => by
      refine htab (k + 1) q ?_
      rw [addTable_other (by omega), heq]
      exact hf
    have htg : t ≠ g := fun heq => htab k (q * 512 + i) (by rw [heq, addTable_self])
    funext j
    rw [linkTable_mem, if_neg (fun heq => htf heq.1), if_neg htg, ht.mem]
  kernel j hj := by
    have hroot : root ≠ g := fun heq => h.fresh_ne ht.free (heq ▸ h.root_frame)
    have hnot : ¬ (root = f ∧ j = i) := by
      rintro ⟨rfl, rfl⟩
      obtain ⟨hlevel, -⟩ := h.inj _ _ _ _ _ hf h.root_frame
      rw [hlevel, userEntries, if_pos rfl] at hi
      omega
    rw [linkTable_mem, if_neg hnot, if_neg hroot, ht.mem]

theorem Tree.leaf_linked (hf : tab (k + 1) q = some f)
    (hnone : tab k (q * 512 + i) = none) (ht : Takes p g p') (x e : Nat) :
    Leaf (linkTable p' f i g) (addTable tab k (q * 512 + i) g) x e ↔ Leaf p tab x e := by
  have hgf : g ≠ f := fun heq => h.fresh_ne ht.free (heq ▸ hf)
  have hread : ∀ pt j, tab 0 (x / 512) = some pt → (linkTable p' f i g).mem pt j = p.mem pt j := by
    intro pt j hpt
    have hptf : pt ≠ f := fun heq => by
      have := h.inj _ _ _ _ _ hpt (heq ▸ hf)
      omega
    have hptg : pt ≠ g := fun heq => h.fresh_ne ht.free (heq ▸ hpt)
    rw [linkTable_mem, if_neg (fun heq => hptf heq.1), if_neg hptg, ht.mem]
  constructor
  · rintro ⟨pt, hpt, he, hpresent⟩
    rcases addTable_cases hpt with ⟨-, -, rfl⟩ | ⟨-, hold⟩
    · -- the new table is empty
      rw [linkTable_mem, if_neg (fun heq => hgf heq.1), if_pos rfl] at he
      subst he
      cases hpresent
    · exact ⟨pt, hold, by rw [← hread pt _ hold]; exact he, hpresent⟩
  · rintro ⟨pt, hpt, he, hpresent⟩
    refine ⟨pt, ?_, by rw [hread pt _ hpt]; exact he, hpresent⟩
    by_cases heq : 0 = k ∧ x / 512 = q * 512 + i
    · rw [heq.2, heq.1, hnone] at hpt
      cases hpt
    · rw [addTable_other heq]
      exact hpt

theorem Tree.tableBelow_spec (hwf : PmmWf p) (hf : tab (k + 1) q = some f)
    (hi : i < userEntries (k + 1)) :
    tableBelow p f i = (none, p) ∨
      ∃ g p' tab', tableBelow p f i = (some g, p') ∧ Tree p' root tab' ∧ Ext p root tab p' tab' ∧
        tab' k (q * 512 + i) = some g ∧ ∀ x e, Leaf p' tab' x e ↔ Leaf p tab x e := by
  have hi512 : i < 512 := lt_of_lt_of_le hi (userEntries_le _)
  rcases hdown : tab k (q * 512 + i) with _ | g
  · have hzero := h.absent _ _ _ _ hf hi hdown
    have habsent : ¬ present (p.mem f i) = true := by
      rw [hzero]
      decide
    rw [tableBelow, if_neg habsent, allocPageVirt]
    rcases pmmAllocPage_spec hwf with hnone | ⟨g, p', hg, halloc, htakes⟩
    · rw [hnone]
      exact .inl rfl
    right
    obtain ⟨g, rfl⟩ := Nat.exists_eq_succ_of_ne_zero hg
    have hframe := htakes.frame hwf
    have hmask := tableEntry_mask hframe.aligned
      (hframe.wide (hwf.grows htakes.bounds htakes.grows))
    rw [halloc]
    refine ⟨g + 1, _, _, ?_, h.linked hwf hf hi hdown htakes, h.ext_linked hf hi hdown htakes,
      addTable_self _ _ _, h.leaf_linked hf hdown htakes⟩
    change (some ((g + 1 ||| 7) &&& pageMask), _) = _
    rw [hmask]
    rfl
  · right
    have hframe := h.frame _ _ _ hdown
    have hentry := h.entry _ _ _ _ _ hf hi512 hdown
    refine ⟨g, p, tab, ?_, h, Ext.refl h, hdown, fun x e => Iff.rfl⟩
    rw [tableBelow, hentry, if_pos (tableEntry_present g),
      tableEntry_mask hframe.aligned (hframe.wide hwf)]

theorem Tree.not_huge (hf : tab (k + 1) q = some f)
    (hi : i < userEntries (k + 1)) : huge (p.mem f i) = false := by
  rcases hdown : tab k (q * 512 + i) with _ | g
  · rw [h.absent _ _ _ _ hf hi hdown]
    rfl
  · rw [h.entry _ _ _ _ _ hf (lt_of_lt_of_le hi (userEntries_le _)) hdown]
    exact tableEntry_huge (h.frame _ _ _ hdown).aligned

end

/-! ### Mapping a page -/

theorem Tree.setLeaf (h : Tree p root tab) {pt e : Nat} (hpt : tab 0 (x / 512) = some pt) :
    Tree (p.setEntry pt (x % 512) e) root tab ∧ Ext p root tab (p.setEntry pt (x % 512) e) tab ∧
      ∀ x' e', Leaf (p.setEntry pt (x % 512) e) tab x' e' ↔
        if x' = x then e' = e ∧ present e = true else Leaf p tab x' e' := by
  have hread : ∀ k q f j, tab (k + 1) q = some f →
      (p.setEntry pt (x % 512) e).mem f j = p.mem f j := by
    intro k q f j hf
    refine if_neg ?_
    rintro ⟨rfl, -⟩
    have := h.inj _ _ _ _ _ hpt hf
    omega
  refine ⟨⟨h.root, h.high, h.inj, ?_, h.parent, ?_, ?_⟩, ⟨(SameBounds.refl p).write _, fun _ _ _ hf => hf,
    fun _ _ _ hf => .inl hf, (Ext.refl h).bitmap, ?_, ?_⟩, ?_⟩
  · intro k q f hf
    have hframe := h.frame _ _ _ hf
    exact {hframe with}
  · intro k q f i g hf hi hg
    rw [hread _ _ _ _ hf]
    exact h.entry _ _ _ _ _ hf hi hg
  · intro k q f i hf hi hg
    rw [hread _ _ _ _ hf]
    exact h.absent _ _ _ _ hf hi hg
  · intro t ht
    funext j
    refine if_neg ?_
    rintro ⟨rfl, -⟩
    exact ht _ _ hpt
  · intro i hi
    exact hread _ _ _ _ h.root_frame
  · intro x' e'
    split
    next heq =>
      subst heq
      constructor
      · rintro ⟨f, hf, he, hpresent⟩
        rw [hpt] at hf
        cases hf
        have : e = e' := by
          rw [← he]
          exact (if_pos ⟨rfl, rfl⟩).symm
        subst this
        exact ⟨rfl, hpresent⟩
      · rintro ⟨rfl, hpresent⟩
        exact ⟨pt, hpt, if_pos ⟨rfl, rfl⟩, hpresent⟩
    next hne =>
      have hsame : ∀ f, tab 0 (x' / 512) = some f →
          (p.setEntry pt (x % 512) e).mem f (x' % 512) = p.mem f (x' % 512) := by
        intro f hf
        refine if_neg ?_
        rintro ⟨rfl, hmod⟩
        have := (h.inj _ _ _ _ _ hpt hf).2
        omega
      constructor
      · rintro ⟨f, hf, he, hpresent⟩
        exact ⟨f, hf, by rw [← hsame f hf]; exact he, hpresent⟩
      · rintro ⟨f, hf, he, hpresent⟩
        exact ⟨f, hf, by rw [hsame f hf]; exact he, hpresent⟩

theorem idx_page (hx : x < userPages) :
    pml4Idx (x * 4096) = x / 512 / 512 / 512 ∧ pdptIdx (x * 4096) = x / 512 / 512 % 512 ∧
      pdIdx (x * 4096) = x / 512 % 512 ∧ ptIdx (x * 4096) = x % 512 := by
  have hpages : userPages = 2 ^ 35 := rfl
  simp only [pml4Idx, pdptIdx, pdIdx, ptIdx, Nat.shiftRight_eq_div_pow]
  omega

theorem Tree.vmmMapPageInto_spec (h : Tree p root tab) (hwf : PmmWf p) (hx : x < userPages)
    (paddr flags : Nat) :
    ∃ ok p' tab', vmmMapPageInto p (x * 4096) paddr flags root = (ok, p') ∧ Tree p' root tab' ∧
      Ext p root tab p' tab' ∧ ∀ x' e', Leaf p' tab' x' e' ↔ if ok = true ∧ x' = x then
          e' = (paddr &&& pageMask) ||| flags ∧ present ((paddr &&& pageMask) ||| flags) = true
        else Leaf p tab x' e' := by
  obtain ⟨i4, i3, i2, i1⟩ := idx_page hx
  have hpages : userPages = 2 ^ 35 := rfl
  have hroot := (h.frame _ _ _ h.root_frame).ne_null
  have hfail : ∀ {p' tab'}, Tree p' root tab' → Ext p root tab p' tab' →
      (∀ x' e', Leaf p' tab' x' e' ↔ Leaf p tab x' e') →
      ∃ ok q' tab'', (false, p') = (ok, q') ∧ Tree q' root tab'' ∧
        Ext p root tab q' tab'' ∧ ∀ x' e', Leaf q' tab'' x' e' ↔ if ok = true ∧ x' = x then
            e' = (paddr &&& pageMask) ||| flags ∧ present ((paddr &&& pageMask) ||| flags) = true
          else Leaf p tab x' e' := fun hT hE hL =>
    ⟨false, _, _, rfl, hT, hE, fun x' e' => by simpa using hL x' e'⟩
  rw [vmmMapPageInto, if_neg hroot, mapPage, i4, i3, i2, i1]
  have hlow4 : x / 512 / 512 / 512 < userEntries (2 + 1) := by
    rw [userEntries, if_pos rfl]
    omega
  rcases h.tableBelow_spec hwf h.root_frame hlow4 with hnone | ⟨pdpt, p₁, tab₁, heq, hT₁, hE₁, hg₁, hL₁⟩
  · rw [hnone]
    exact hfail h (Ext.refl h) fun _ _ => Iff.rfl
  rw [heq]
  dsimp only
  have hwf₁ := hwf.grows hE₁.bounds hE₁.grows
  have hlow3 : x / 512 / 512 % 512 < userEntries (1 + 1) := by
    rw [userEntries_lower (by decide)]
    omega
  rw [zero_mul, zero_add] at hg₁
  rw [if_neg (by rw [hT₁.not_huge hg₁ hlow3]; decide)]
  rcases hT₁.tableBelow_spec hwf₁ hg₁ hlow3 with hnone | ⟨pd, p₂, tab₂, heq, hT₂, hE₂, hg₂, hL₂⟩
  · rw [hnone]
    exact hfail hT₁ hE₁ hL₁
  rw [heq]
  dsimp only
  have hwf₂ := hwf₁.grows hE₂.bounds hE₂.grows
  have hlow2 : x / 512 % 512 < userEntries (0 + 1) := by
    rw [userEntries_lower (by decide)]
    omega
  have hq₂ : x / 512 / 512 / 512 * 512 + x / 512 / 512 % 512 = x / 512 / 512 := Nat.div_add_mod' _ _
  rw [hq₂] at hg₂
  rw [if_neg (by rw [hT₂.not_huge hg₂ hlow2]; decide)]
  have hE₁₂ := hE₁.trans hE₂
  have hL₁₂ : ∀ x' e', Leaf p₂ tab₂ x' e' ↔ Leaf p tab x' e' := fun x' e' =>
    (hL₂ x' e').trans (hL₁ x' e')
  rcases hT₂.tableBelow_spec hwf₂ hg₂ hlow2 with hnone | ⟨pt, p₃, tab₃, heq, hT₃, hE₃, hg₃, hL₃⟩
  · rw [hnone]
    exact hfail hT₂ hE₁₂ hL₁₂
  rw [heq]
  have hq₃ : x / 512 / 512 * 512 + x / 512 % 512 = x / 512 := Nat.div_add_mod' _ _
  rw [hq₃] at hg₃
  obtain ⟨hT₄, hE₄, hL₄⟩ := hT₃.setLeaf (x := x) (e := (paddr &&& pageMask) ||| flags) hg₃
  refine ⟨true, _, _, rfl, hT₄, (hE₁₂.trans hE₃).trans hE₄, fun x' e' => ?_⟩
  rw [hL₄, hL₃, hL₁₂]
  simp

end

end Kyuzen.Mm
