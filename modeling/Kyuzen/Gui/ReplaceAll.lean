import Kyuzen.Gui.TextEdit

/-! Replace-all of the text widget, which scans the text it is changing. -/

namespace Kyuzen.Gui.TextEdit

open List

/-- The loop of `ui_textedit_replace_all`; `fuel` bounds its turns. -/
def replaceAllFrom (needle new : Text) : Nat → Nat → Nat → TextEdit → Option (TextEdit × Nat)
  | 0, _, _, _ => none
  | fuel + 1, i, count, te =>
    if i + needle.length ≤ te.len then
      if slice te.text i needle.length = needle then
        (te.applyReplace i needle.length (fun k => new.getD k 0) new.length true).bind fun te =>
          if new = [] ∧ i + new.length > te.len then some (te, count + 1)
          else replaceAllFrom needle new fuel (i + new.length) (count + 1) te
      else replaceAllFrom needle new fuel (i + 1) count te
    else some (te, count)

def replaceAll (te : TextEdit) (needle new : Text) : Option (TextEdit × Nat) :=
  if te.readonly ∨ needle = [] then some (te, 0)
  else replaceAllFrom needle new (te.len + 1) 0 0 te

/-- The text with the leftmost occurrences that do not overlap replaced, and their number. -/
def replaceText (needle new s : Text) : Text × Nat :=
  if s.length < needle.length ∨ needle = [] then (s, 0)
  else if needle <+: s then (replaceText needle new (s.drop needle.length)).map (new ++ ·) (· + 1)
  else (replaceText needle new (s.drop 1)).map (s.take 1 ++ ·) id
termination_by s.length
decreasing_by all_goals simp_all [← length_pos_iff]; omega

variable {te : TextEdit} {l d r ins needle new : Text}

theorem len_eq (h : te.contents = l ++ r) : te.len = l.length + r.length := by
  simpa [contents] using congrArg length h

theorem applyReplace_text (record : Bool) (h : te.contents = l ++ (d ++ r))
    (hroom : te.len + ins.length < maxText) :
    ∃ b, te.applyReplace l.length d.length (fun k => ins.getD k 0) ins.length record =
        some (te.edited b l.length d.length ins record) ∧
      (te.edited b l.length d.length ins record).contents = l ++ ins ++ r := by
  have hlen := len_eq h
  rw [length_append] at hlen
  rw [applyReplace_eq (p := l.length) (d := d.length) (n := ins.length), if_neg, slice_eq]
  · obtain ⟨b, hsome, htext, -⟩ := splice_eq record
      (show l.length + d.length ≤ te.len by omega) hroom
    refine ⟨b, hsome, htext.trans ?_⟩
    rw [h, take_left, ← length_append, ← append_assoc, drop_left]
  all_goals
    unfold maxText at *
    omega

theorem replaceText_length (needle new s : Text) :
    (replaceText needle new s).1.length + (replaceText needle new s).2 * needle.length =
      s.length + (replaceText needle new s).2 * new.length := by
  fun_induction replaceText needle new s with
  | case1 => simp
  | case2 s _ hhit ih =>
    obtain ⟨t, rfl⟩ := hhit
    simp only [drop_left, Prod.map_fst, Prod.map_snd, length_append, add_mul] at ih ⊢
    omega
  | case3 s hlong _ ih =>
    have hpos := length_pos_iff.mpr (not_or.mp hlong).2
    simp only [Prod.map_fst, Prod.map_snd, length_append, length_take, length_drop, id] at ih ⊢
    omega

/-- No replacement of the scan passes the array: not the first one, which needs room for the
text before it and the replacement, and not the last one. -/
def Room (needle new : Text) (len : Nat) (l r : Text) : Prop :=
  (replaceText needle new r).2 = 0 ∨ len + new.length < maxText ∧
    (replaceText needle new r).1.length + needle.length + l.length < maxText

theorem room_hit {t : Text} (hneedle : needle ≠ []) {len len' : Nat}
    (hlen : len = l.length + (needle ++ t).length) (hlen' : len' = (l ++ new).length + t.length) :
    Room needle new len l (needle ++ t) ↔
      len + new.length < maxText ∧ Room needle new len' (l ++ new) t := by
  have hhit : replaceText needle new (needle ++ t) =
      (replaceText needle new t).map (new ++ ·) (· + 1) := by
    rw [replaceText, if_neg (by simp [hneedle]), if_pos (prefix_append ..), drop_left]
  have hcount := replaceText_length needle new t
  rw [length_append] at hlen hlen'
  simp only [Room, hhit, Prod.map_fst, Prod.map_snd, length_append, Nat.add_eq_zero_iff,
    one_ne_zero, and_false, false_or]
  refine and_congr_right fun hroom => ⟨fun hlast => or_iff_not_imp_left.mpr fun hmore => ?_, ?_⟩
  · obtain ⟨k, hk⟩ := Nat.exists_eq_succ_of_ne_zero hmore
    rw [hk, Nat.succ_mul, Nat.succ_mul] at hcount
    rcases le_total new.length needle.length with hle | hle
    · omega
    · have hmul := Nat.mul_le_mul_left k hle
      omega
  · rintro (hnone | ⟨-, hlast⟩)
    · rw [hnone, zero_mul, zero_mul] at hcount
      omega
    · omega

/-- The scan keeps what it has passed and replaces in the rest, or it leaves the array. -/
theorem replaceAllFrom_eq (hneedle : needle ≠ []) {fuel : Nat} (count : Nat)
    (htext : te.contents = l ++ r) (hfuel : r.length < fuel) (hlen : te.len < maxText)
    (hfit : l.length + (replaceText needle new r).1.length < maxText) :
    (Room needle new te.len l r → ∃ te', replaceAllFrom needle new fuel l.length count te =
        some (te', count + (replaceText needle new r).2) ∧
      te'.contents = l ++ (replaceText needle new r).1) ∧
    (¬ Room needle new te.len l r → replaceAllFrom needle new fuel l.length count te = none) := by
  induction fuel generalizing te count l r with
  | zero => omega
  | succ fuel ih =>
    have hsum := len_eq htext
    rw [replaceAllFrom]
    by_cases hend : r.length < needle.length
    · have hstop : replaceText needle new r = (r, 0) := by rw [replaceText, if_pos (.inl hend)]
      rw [if_neg (by omega), hstop]
      exact ⟨fun _ => ⟨te, rfl, htext⟩, fun h => absurd (.inl (by rw [hstop])) h⟩
    have hpos := length_pos_iff.mpr hneedle
    have hslice : slice te.text l.length needle.length = r.take needle.length := by
      have hr : r = te.contents.drop l.length := by rw [htext, drop_left]
      rw [hr, contents, drop_slice, take_slice, zero_add, min_eq_left (by omega)]
    rw [if_pos (by omega), hslice]
    by_cases hhit : needle <+: r
    · obtain ⟨t, rfl⟩ := hhit
      rw [if_pos (take_left ..)]
      have hmap : replaceText needle new (needle ++ t) =
          (replaceText needle new t).map (new ++ ·) (· + 1) := by
        rw [replaceText, if_neg (not_or.mpr ⟨hend, hneedle⟩), if_pos (prefix_append ..), drop_left]
      have hcount := replaceText_length needle new t
      rw [hmap] at hfit ⊢
      simp only [length_append, Prod.map_fst, Prod.map_snd] at hsum hfit hfuel ⊢
      -- what the first replacement leaves is no longer than the old text or the new one
      have hcut : te.len - needle.length + new.length < maxText := by
        rcases le_total new.length needle.length with hle | hle
        · omega
        · have hmul := Nat.mul_le_mul_left (replaceText needle new t).2 hle
          omega
      by_cases hroom : te.len + new.length < maxText
      · obtain ⟨b, hsome, htext'⟩ := applyReplace_text true htext hroom
        have hsum' := len_eq htext'
        rw [length_append] at hsum'
        rw [room_hit hneedle (by rw [hsum, length_append]) (len_eq htext'), hsome, Option.bind_some,
          if_neg (by omega), ← length_append]
        have hrest := ih (count + 1) htext' (by omega) (by omega) (by rw [length_append]; omega)
        refine ⟨fun h => ?_, fun h => hrest.2 fun hmore => h ⟨hroom, hmore⟩⟩
        obtain ⟨te', hrun, htext''⟩ := hrest.1 h.2
        exact ⟨te', by rw [hrun, Nat.add_assoc, Nat.add_comm 1], by simpa using htext''⟩
      · rw [applyReplace_none (p := l.length) (d := needle.length) (n := new.length) hlen]
        · exact ⟨fun h => absurd ((room_hit hneedle (by rw [hsum, length_append]) rfl).mp h).1 hroom,
            fun _ => rfl⟩
        all_goals
          unfold maxText at *
          omega
    · have hskip : replaceText needle new r =
          (replaceText needle new (r.drop 1)).map (r.take 1 ++ ·) id := by
        rw [replaceText, if_neg (not_or.mpr ⟨hend, hneedle⟩), if_neg hhit]
      rw [if_neg fun h : r.take needle.length = needle => hhit (h ▸ take_prefix ..)]
      obtain _ | ⟨c, t⟩ := r
      · exact absurd hpos hend
      rw [append_cons] at htext
      rw [hskip] at hfit ⊢
      have hrest := ih count htext (by simpa using hfuel) hlen
        (by simpa [add_assoc, add_comm, add_left_comm] using hfit)
      have hsame : Room needle new te.len l (c :: t) ↔ Room needle new te.len (l ++ [c]) t := by
        simp [Room, hskip, add_assoc, add_comm, add_left_comm]
      rw [hsame]
      simpa using hrest

theorem replace_all_exact (hlen : te.len < maxText) (hedit : te.readonly = false)
    (hneedle : needle ≠ []) (hfit : (replaceText needle new te.contents).1.length < maxText) :
    (∃ te', te.replaceAll needle new = some (te', (replaceText needle new te.contents).2) ∧
      te'.contents = (replaceText needle new te.contents).1) ↔
    (replaceText needle new te.contents).2 = 0 ∨ te.len + new.length < maxText ∧
      (replaceText needle new te.contents).1.length + needle.length < maxText := by
  have hfuel : te.contents.length < te.len + 1 := by simp [contents]
  have hrun := replaceAllFrom_eq hneedle 0 (nil_append te.contents).symm hfuel hlen
    (by simpa using hfit)
  rw [replaceAll, if_neg (by simp [hedit, hneedle])]
  simp only [zero_add, nil_append] at hrun
  refine ⟨?_, hrun.1⟩
  rintro ⟨te', hsome, -⟩
  by_contra hroom
  cases (hrun.2 hroom).symm.trans hsome

theorem replace_all_exact_three : ∃ te', (filled 3).replaceAll [97] [98] = some (te', 3) ∧
    te'.contents = [98, 98, 98] := by
  have hreplace : replaceText [97] [98] (filled 3).contents = ([98, 98, 98], 3) := by
    simp [replaceText, show (filled 3).contents = [97, 97, 97] from rfl]
  have hiff := replace_all_exact (show (filled 3).len < maxText by decide) rfl (cons_ne_nil 97 [])
    (by rw [hreplace]; decide)
  rw [hreplace] at hiff
  exact hiff.mpr (.inr ⟨by decide, by decide⟩)

/-- A full text keeps its length, but the first replacement writes behind the array. -/
theorem full_text_replace_all :
    (replaceText [97] [98] (filled 8191).contents).1.length = (filled 8191).len ∧
      ∀ fuel, replaceAllFrom [97] [98] fuel 0 0 (filled 8191) = none := by
  constructor
  · have hlength := replaceText_length [97] [98] (filled 8191).contents
    rw [length_singleton, length_singleton, add_left_inj] at hlength
    rw [hlength, contents, length_slice]
  · rintro (_ | fuel)
    · rfl
    · rw [replaceAllFrom, if_pos (by simp [filled]), if_pos (by simp [filled, slice])]
      exact Option.bind_eq_none_iff.mpr fun te h => by cases (applyReplace_full _).symm.trans h

end Kyuzen.Gui.TextEdit
