import Kyuzen.Base.Bytes
import Kyuzen.Base.Text

/-!
The text of `textedit.hpp`. All edits go through `apply_replace`, which moves the bytes of the
array in place. An edit that writes behind the array has no result here.
-/

namespace Kyuzen.Gui

open Function List

def maxText : Nat := 8192
def maxOps : Nat := 64

/-- `EditOp`; the lengths are those of the two texts. -/
structure EditOp where
  pos : Nat
  del : Text
  ins : Text

structure TextEdit where
  text : Buf
  len : Nat
  cur : Nat
  ops : List EditOp
  opPos : Nat
  undoOn : Bool
  readonly : Bool

/-- The bytes from `i` on. -/
def slice (b : Buf) (i n : Nat) : Text := (range n).map fun k => b (i + k)

def store (b : Buf) (i : Nat) (c : UInt8) : Option Buf :=
  if i < maxText then some (update b i c) else none

/-- A loop that assigns to the bytes of `l`, each from the array as it is then. -/
def stores (f : Buf → Nat → UInt8) : List Nat → Buf → Option Buf
  | [], b => some b
  | i :: l, b => (store b i (f b i)).bind (stores f l)

namespace TextEdit

def contents (te : TextEdit) : Text := slice te.text 0 te.len

def opRecord (te : TextEdit) (o : EditOp) : TextEdit :=
  if te.undoOn = false then te
  else
    -- the old redo branch goes, and the oldest operation when all places are taken
    let ops := te.ops.take te.opPos
    let ops := ops.drop (if ops.length ≥ maxOps then 1 else 0)
    {te with ops := ops ++ [o], opPos := ops.length + 1}

/-- `apply_replace` behind its clamps. -/
def splice (te : TextEdit) (pos delN : Nat) (ins : Text) (record : Bool) : Option TextEdit :=
  let recorded := if record then te.opRecord ⟨pos, slice te.text pos delN, ins⟩ else te
  let deleted :=
    if delN > 0 then
      stores (fun b i => b (i + delN)) (range' pos (te.len + 1 - delN - pos)) te.text
    else some te.text
  let inserted := deleted.bind fun b =>
    if ins.length > 0 then
      -- from the old length down, then the new bytes
      (stores (fun b i => b (i - ins.length))
        (range' (pos + ins.length) (te.len + 1 - pos)).reverse b).bind
        (stores (fun _ i => ins.getD (i - pos) 0) (range' pos ins.length))
    else some b
  let len := te.len + ins.length - delN
  (inserted.bind fun b => store b len 0).map fun b =>
    {recorded with text := b, len := len, cur := pos + ins.length}

/-- `apply_replace`. The sum that is compared with the capacity has to fit in an `int`. -/
def applyReplace (te : TextEdit) (pos delN : Int) (ins : Buf) (insN : Int) (record : Bool) :
    Option TextEdit :=
  let len : Int := te.len
  let pos := if pos < 0 then 0 else pos
  let pos := if pos > len then len else pos
  let delN := if delN < 0 then 0 else delN
  let delN := if delN > len - pos then len - pos else delN
  let insN := if insN < 0 then 0 else insN
  if len - delN + insN ≥ 2 ^ 31 then none
  else
    let insN := if len - delN + insN > maxText - 1 then maxText - 1 - (len - delN) else insN
    let insN := if insN < 0 then 0 else insN
    te.splice pos.toNat delN.toNat (slice ins 0 insN.toNat) record

end TextEdit

variable {b : Buf} {i : Nat} {f : Buf → Nat → UInt8} {l : List Nat}

theorem stores_eq (hl : ∀ i ∈ l, i < maxText)
    (hapart : l.Pairwise fun i j => ∀ b c, f (update b i c) j = f b j) :
    stores f l b = some fun j => if j ∈ l then f b j else b j := by
  induction l generalizing b with
  | nil => simp [stores]
  | cons i l ih =>
    rw [stores, store, if_pos (hl i mem_cons_self), Option.bind_some,
      ih (fun j hj => hl j (mem_cons_of_mem i hj)) hapart.of_cons]
    refine congrArg some (funext fun j => ?_)
    have hread (hj : j ∈ l) : f (update b i (f b i)) j = f b j := rel_of_pairwise_cons hapart hj _ _
    grind

theorem stores_none (hi : i ∈ l) (h : maxText ≤ i) : stores f l b = none := by
  induction l generalizing b with
  | nil => exact nomatch hi
  | cons j l ih =>
    rw [stores, store]
    split
    · exact ih ((mem_cons.mp hi).resolve_left (by omega))
    · rfl

@[simp] theorem length_slice (b : Buf) (i n : Nat) : (slice b i n).length = n := by
  rw [slice, length_map, length_range]

theorem slice_add (b : Buf) (i m n : Nat) :
    slice b i (m + n) = slice b i m ++ slice b (i + m) n := by
  simp [slice, range_add, add_assoc]

theorem take_slice (b : Buf) (i n k : Nat) : (slice b i n).take k = slice b i (min k n) := by
  rw [slice, ← map_take, take_range, slice]

theorem drop_slice (b : Buf) (i n k : Nat) : (slice b i n).drop k = slice b (i + k) (n - k) :=
  ext_getElem (by simp) fun j hj hj' => by simp [slice, add_assoc]

theorem slice_congr {b' : Buf} {j n : Nat} (h : ∀ k < n, b (i + k) = b' (j + k)) :
    slice b i n = slice b' j n :=
  map_congr_left fun k hk => h k (mem_range.mp hk)

theorem slice_eq (s : Text) : slice (fun i => s.getD i 0) 0 s.length = s :=
  ext_getElem (length_slice ..) fun k hk hk' => by simp [slice, hk']

namespace TextEdit

variable {te : TextEdit} {p d : Nat} {ins : Text} {record : Bool}

/-- The value of an edit in the array `b`. -/
def edited (te : TextEdit) (b : Buf) (p d : Nat) (ins : Text) (record : Bool) : TextEdit :=
  {(if record then te.opRecord ⟨p, slice te.text p d, ins⟩ else te) with
    text := b, len := te.len + ins.length - d, cur := p + ins.length}

theorem splice_eq (record : Bool) (hpd : p + d ≤ te.len) (hroom : te.len + ins.length < maxText) :
    ∃ b, te.splice p d ins record = some (te.edited b p d ins record) ∧
      (te.edited b p d ins record).contents =
        te.contents.take p ++ ins ++ te.contents.drop (p + d) ∧
      b (te.len + ins.length - d) = 0 := by
  obtain ⟨b₁, hdeleted, hb₁⟩ : ∃ b₁, (if d > 0 then
        stores (fun b i => b (i + d)) (range' p (te.len + 1 - d - p)) te.text
      else some te.text) = some b₁ ∧
      ∀ j, b₁ j = if p ≤ j ∧ j ≤ te.len - d then te.text (j + d) else te.text j := by
    split
    · exact ⟨_, stores_eq (by grind) ((pairwise_lt_range').imp fun h b c =>
        update_of_ne (by omega) _ _), by grind⟩
    · exact ⟨_, rfl, fun j => by grind⟩
  obtain ⟨b₂, hinserted, hb₂⟩ : ∃ b₂, (if ins.length > 0 then
        (stores (fun b i => b (i - ins.length))
          (range' (p + ins.length) (te.len + 1 - p)).reverse b₁).bind
          (stores (fun _ i => ins.getD (i - p) 0) (range' p ins.length))
      else some b₁) = some b₂ ∧
      ∀ j ≤ te.len + ins.length - d, b₂ j = if j < p then te.text j
        else if j < p + ins.length then ins.getD (j - p) 0 else te.text (j - ins.length + d) := by
    split
    · have hgap := stores_eq (b := b₁) (f := fun b i => b (i - ins.length))
        (l := (range' (p + ins.length) (te.len + 1 - p)).reverse) (by grind)
        (pairwise_reverse.mpr ((pairwise_lt_range').imp_of_mem fun hi hj h b c =>
          update_of_ne (by grind) _ _))
      rw [hgap, Option.bind_some]
      exact ⟨_, stores_eq (by grind) (pairwise_of_forall fun _ _ _ _ => rfl), by grind⟩
    · exact ⟨_, rfl, fun j hj => by grind⟩
  have hend : te.len + ins.length - d = p + ins.length + (te.len - (p + d)) := by omega
  refine ⟨update b₂ (te.len + ins.length - d) 0, ?_, ?_, update_self ..⟩
  · have hstore : te.len + ins.length - d < maxText := by omega
    simp only [splice, hdeleted, Option.bind_some, hinserted, store, if_pos hstore,
      Option.map_some, edited]
  · have hkeep (j : Nat) (hj : j < te.len + ins.length - d) :
        update b₂ (te.len + ins.length - d) 0 j = b₂ j := update_of_ne (by omega) _ _
    simp only [contents, edited, take_slice, drop_slice]
    rw [hend, slice_add, slice_add, min_eq_left (by omega), ← hend]
    simp only [zero_add]
    refine congrArg₂ _ (congrArg₂ _ (slice_congr fun k hk => ?_) ?_) (slice_congr fun k hk => ?_)
    · rw [hkeep _ (by omega), hb₂ _ (by omega), if_pos (by omega)]
    · refine (slice_congr fun k hk => ?_).trans (slice_eq ins)
      rw [hkeep _ (by omega), hb₂ _ (by omega), if_neg (by omega), if_pos (by omega)]
      simp
    · rw [hkeep _ (by omega), hb₂ _ (by omega), if_neg (by omega), if_neg (by omega)]
      congr 1
      omega

/-- An insertion moves the bytes up to the old length, also those of a deletion before it. -/
theorem splice_none (hp : p ≤ te.len) (hins : ins ≠ []) (hroom : maxText ≤ te.len + ins.length) :
    te.splice p d ins record = none := by
  have hgap (f : Buf → Nat → UInt8) (b : Buf) :
      stores f (range' (p + ins.length) (te.len + 1 - p)).reverse b = none :=
    stores_none (i := te.len + ins.length) (by grind) hroom
  simp [splice, length_pos_iff.mpr hins, hgap]

section
variable {pos delN insN : Int} {ins : Buf} {n : Nat} (hlen : te.len < maxText)
  (hp : p = (min pos te.len).toNat) (hd : d = (min delN (te.len - p)).toNat)
  (hn : n = (min insN (maxText - 1 - (te.len - d))).toNat)
include hlen hp hd hn

theorem applyReplace_eq : te.applyReplace pos delN ins insN record =
    if te.len - d + insN ≥ 2 ^ 31 then none else te.splice p d (slice ins 0 n) record := by
  have hpos : (if (if pos < 0 then 0 else pos) > te.len then (te.len : Int)
      else if pos < 0 then 0 else pos) = p := by split_ifs <;> omega
  have hdel : (if (if delN < 0 then 0 else delN) > te.len - p then (te.len : Int) - p
      else if delN < 0 then 0 else delN) = d := by split_ifs <;> omega
  simp only [applyReplace, hpos, hdel, Int.toNat_natCast]
  unfold maxText at *
  split_ifs <;> first | rfl | omega | (congr 2; omega)

theorem applyReplace_none (h : ¬ (te.len - d + insN < 2 ^ 31 ∧ te.len + n < maxText)) :
    te.applyReplace pos delN ins insN record = none := by
  rw [applyReplace_eq hlen hp hd hn]
  split_ifs with hbig
  · rfl
  · have hlong := length_slice ins 0 n
    exact splice_none (by omega) (by rw [← length_pos_iff]; omega) (by omega)

theorem applyReplace_some (record : Bool) (hsmall : te.len - d + insN < 2 ^ 31)
    (hroom : te.len + n < maxText) :
    ∃ b, te.applyReplace pos delN ins insN record = some (te.edited b p d (slice ins 0 n) record) ∧
      (te.edited b p d (slice ins 0 n) record).contents =
        te.contents.take p ++ slice ins 0 n ++ te.contents.drop (p + d) ∧
      b (te.len + (slice ins 0 n).length - d) = 0 := by
  rw [applyReplace_eq hlen hp hd hn, if_neg (not_le.mpr hsmall)]
  exact splice_eq record (by omega) (by rwa [length_slice])

end

/-- An edit is a splice exactly when the old text has room for what is inserted, also where the
new text would fit because of the deletion. -/
theorem apply_replace_splices_iff (hlen : te.len < maxText) (pos delN insN : Int) (ins : Buf)
    {p d n : Nat} (hp : p = (min pos te.len).toNat) (hd : d = (min delN (te.len - p)).toNat)
    (hn : n = (min insN (maxText - 1 - (te.len - d))).toNat) :
    (∃ te', te.applyReplace pos delN ins insN record = some te' ∧
      te'.contents = te.contents.take p ++ slice ins 0 n ++ te.contents.drop (p + d) ∧
      te'.text te'.len = 0 ∧ te'.cur ≤ te'.len ∧ te'.len < maxText) ↔
    te.len - d + insN < 2 ^ 31 ∧ te.len + n < maxText := by
  constructor
  · rintro ⟨te', hsome, -⟩
    by_contra hfit
    exact nomatch (applyReplace_none hlen hp hd hn hfit).symm.trans hsome
  · rintro ⟨hsmall, hroom⟩
    obtain ⟨b, hsome, htext, hnul⟩ := applyReplace_some hlen hp hd hn record hsmall hroom
    refine ⟨_, hsome, htext, hnul, ?_, ?_⟩
    all_goals
      simp only [edited, length_slice]
      omega

/-- A text of the letter `a` only. -/
def filled (n : Nat) : TextEdit := ⟨fun i => if i < n then 97 else 0, n, 0, [], 0, true, false⟩

theorem apply_replace_splices_three : ∃ te', (filled 3).applyReplace 1 1 (fun _ => 65) 2 true =
    some te' ∧ te'.contents = [97, 65, 65, 97] := by
  obtain ⟨te', hsome, htext, -⟩ := (apply_replace_splices_iff
    (show (filled 3).len < maxText by decide) 1 1 2 (fun _ => 65) rfl rfl rfl).mpr
    ⟨by decide, by decide⟩
  exact ⟨te', hsome, htext⟩

theorem applyReplace_full (ins : Buf) : (filled 8191).applyReplace 0 1 ins 1 record = none :=
  applyReplace_none (p := 0) (d := 1) (n := 1) (by simp [filled, maxText]) (by simp [filled])
    (by simp [filled]) (by simp [filled, maxText]) (by simp [filled, maxText])

/-- The replacement of one byte in a full text writes behind the array. -/
theorem full_text_replaced : (filled 8191).applyReplace 0 1 (fun _ => 98) 1 true = none :=
  applyReplace_full _

end TextEdit

end Kyuzen.Gui
