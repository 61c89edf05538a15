import Kyuzen.Browser.Url

/-! Relative references, compared with the resolution of RFC 3986. -/

namespace Kyuzen.Browser

open List

def joined (segs : List Text) : Text := segs.flatMap (47 :: ·)

def rfcStep (out : List Text) (s : Text) : List Text :=
  if s = lit ".." then out.dropLast else if s = lit "." then out else out ++ [s]

/-- The RFC's `remove_dot_segments` on the segments of a path.
A last `.` or `..` leaves its slash. -/
def rfcRemoveDots (segs : List Text) : Text :=
  joined (segs.foldl rfcStep [] ++
    if segs.getLast? = some (lit ".") ∨ segs.getLast? = some (lit "..") then [[]] else [])

/-- The path that is normalised for a reference with the path `rpath`. -/
def merged (base rpath : Text) : Text :=
  if rpath.head? = some 47 then rpath
  else (if 47 ∈ base then (base.reverse.dropWhile (· ≠ 47)).reverse else lit "/") ++ rpath

def IsSegment (s : Text) : Prop := s ≠ [] ∧ 47 ∉ s

variable {ss out : List Text} {z : Text}

theorem intercalate_cons (s : Text) (l : List Text) :
    [47].intercalate (s :: l) = s ++ joined l := by
  induction l generalizing s with
  | nil => simp [joined]
  | cons t l ih => simp [intercalate_cons_cons, ih, joined]

theorem foldl_dotStep (h : ∀ s ∈ ss, IsSegment s) :
    ss.foldl dotStep ([] :: out) = [] :: ss.foldl rfcStep out := by
  induction ss generalizing out with
  | nil => rfl
  | cons s ss ih =>
    have hs := (h s mem_cons_self).1
    have hstep : dotStep ([] :: out) s = [] :: rfcStep out s := by
      unfold dotStep rfcStep
      cases out <;> split_ifs <;> simp_all
    rw [foldl_cons, foldl_cons, hstep, ih fun t ht => h t (mem_cons_of_mem s ht)]

theorem isSegment_foldl (h : ∀ s ∈ ss, IsSegment s) : ∀ s ∈ ss.foldl rfcStep [], IsSegment s := by
  refine foldlRecOn (motive := fun out => ∀ s ∈ out, IsSegment s) ss rfcStep nofun
    fun out ih t ht => ?_
  unfold rfcStep
  split_ifs
  · exact fun s hs => ih s (mem_of_mem_dropLast hs)
  · exact ih
  · simpa [or_imp, forall_and] using ⟨ih, h t ht⟩

theorem getLast?_joined (hz : 47 ∉ z) (l : List Text) :
    (joined (l ++ [z])).getLast? = some 47 ↔ z = [] := by
  rw [joined, flatMap_append, flatMap_singleton, getLast?_append_cons]
  rcases eq_nil_or_concat' z with rfl | ⟨z, c, rfl⟩
  · simp
  · have hc : c ≠ 47 := fun h => hz (by simp [h])
    rw [← cons_append, getLast?_concat]
    simp [hc]

theorem splitOn_joined (hss : ∀ s ∈ ss, IsSegment s) (hz : 47 ∉ z) :
    (joined (ss ++ [z])).splitOn 47 = [] :: (ss ++ [z]) := by
  rw [← nil_append (joined _), ← intercalate_cons]
  exact splitOn_intercalate 47 (by simp_all [IsSegment, or_imp]) (cons_ne_nil _ _)

theorem removeDotSegments_joined (hss : ∀ s ∈ ss, IsSegment s) (hz : 47 ∉ z) :
    removeDotSegments (joined (ss ++ [z])) = rfcRemoveDots (ss ++ [z]) ↔
      (z = lit "." ∨ z = lit ".." → (ss ++ [z]).foldl rfcStep [] = []) := by
  have hfold : ([] :: (ss ++ [z])).foldl dotStep [] = dotStep ([] :: ss.foldl rfcStep []) z := by
    rw [foldl_cons, show dotStep [] [] = [[]] from rfl, foldl_append, foldl_dotStep hss]
    rfl
  have hseg := isSegment_foldl hss
  rw [removeDotSegments, splitOn_joined hss hz, hfold, rfcRemoveDots, foldl_append, foldl_cons, foldl_nil,
    getLast?_concat]
  simp only [Option.some_inj]
  generalize ss.foldl rfcStep [] = out at *
  by_cases hdot : z = lit "." ∨ z = lit ".."
  · -- neither the segments nor the path end in a slash, so that none is added
    have hne : z ≠ [] := by rcases hdot with rfl | rfl <;> decide
    have hstep : dotStep ([] :: out) z = [] :: rfcStep out z := by
      unfold dotStep rfcStep
      cases out <;> split_ifs <;> simp_all
    rw [hstep, if_pos hdot, if_neg (cons_ne_nil _ _), imp_iff_right hdot]
    simp only [intercalate_cons, nil_append, (getLast?_joined hz ss).not.mpr hne, and_false, if_false]
    cases rfcStep out z with
    | nil => exact iff_of_true rfl rfl
    | cons y l => simp [joined]
  rw [if_neg hdot, append_nil]
  rw [not_or] at hdot
  refine iff_of_true ?_ fun h => absurd h (not_or.mpr hdot)
  rw [show rfcStep out z = out ++ [z] by simp [rfcStep, hdot]]
  by_cases hnil : z = []
  · subst hnil
    rw [show dotStep ([] :: out) [] = [] :: out by simp [dotStep, hdot]]
    simp only [intercalate_cons, nil_append, (getLast?_joined hz ss).mpr rfl]
    rcases eq_nil_or_concat' out with rfl | ⟨l, y, rfl⟩
    · rfl
    · have hy := hseg y (by simp)
      have hlast := (getLast?_joined hy.2 l).not.mpr hy.1
      have hne : joined (l ++ [y]) ≠ [] := by simp [joined]
      simp only [hlast, hne, ne_eq, not_false_eq_true, and_self, if_true]
      simp [joined]
  · rw [show dotStep ([] :: out) z = [] :: (out ++ [z]) by simp [dotStep, hdot, hnil]]
    simp [intercalate_cons, joined]

/-- A `:` comes only behind a `/`, `?` or `#`. -/
def NoScheme (ref : Text) : Prop := 58 ∉ ref.takeWhile fun c => c ≠ 47 ∧ c ≠ 63 ∧ c ≠ 35

instance (ref : Text) : Decidable (NoScheme ref) := inferInstanceAs (Decidable (¬ _))

/-- A `://` behind one of `/`, `?` and `#` makes no URL of the reference. -/
theorem parseUrl_noScheme {ref : Text} (h : NoScheme ref) (u : Url) : parseUrl ref ≠ .ok u := by
  rw [parseUrl]
  split
  · exact fun h => (by cases h)
  split
  · exact fun h => (by cases h)
  split
  · exact fun h => (by cases h)
  · exact fun h => (by cases h)
  next e _ hfind =>
    obtain ⟨t, ht⟩ := findText_prefix hfind
    have hlow : ∃ c ∈ lowerText (ref.take e), c = 47 ∨ c = 63 ∨ c = 35 := by
      by_contra hnone
      have hpass : ∀ c ∈ ref.take e, decide (c ≠ 47 ∧ c ≠ 63 ∧ c ≠ 35) = true := by
        intro c hc
        rw [decide_eq_true_eq]
        by_contra hend
        refine hnone ⟨c, mem_map.mpr ⟨c, hc, ?_⟩, by tauto⟩
        rw [if_neg]
        rintro ⟨hle, -⟩
        have : c = 47 ∨ c = 63 ∨ c = 35 := by tauto
        rcases this with rfl | rfl | rfl <;> exact absurd hle (by decide)
      apply h
      rw [← take_append_drop e ref, takeWhile_append_of_pos hpass, ← ht]
      rw [show lit "://" = [58, 47, 47] from rfl]
      simp
    obtain ⟨c, hc, hend⟩ := hlow
    rw [if_pos]
    · exact fun h => (by cases h)
    constructor
    all_goals
      intro heq
      rw [heq] at hc
      rcases hend with rfl | rfl | rfl <;> exact absurd hc (by decide)

/-- The result has what section 5.2 of the RFC says, for merged paths without empty segments. -/
structure RfcResult (base : Url) (ref : Text) (u : Url) : Prop where
  scheme : u.scheme = base.scheme
  host : u.host = base.host
  port : u.port = base.port
  fragment : u.fragment = (ref.dropWhile (· ≠ 35)).drop 1
  query : u.query = if ref.takeWhile (· ≠ 35) = [] then base.query
    else ((ref.takeWhile (· ≠ 35)).dropWhile (· ≠ 63)).drop 1
  same : (ref.takeWhile (· ≠ 35)).takeWhile (· ≠ 63) = [] → u.path = base.path
  path : ∀ ss z, (ref.takeWhile (· ≠ 35)).takeWhile (· ≠ 63) ≠ [] →
    merged base.path ((ref.takeWhile (· ≠ 35)).takeWhile (· ≠ 63)) = joined (ss ++ [z]) →
    (∀ s ∈ ss, IsSegment s) → 47 ∉ z → u.path = rfcRemoveDots (ss ++ [z])

/-- A last segment `.` or `..` of the merged path leaves nothing before it. -/
def DotsCancel (base : Url) (ref : Text) : Prop :=
  ∀ ss z, (ref.takeWhile (· ≠ 35)).takeWhile (· ≠ 63) ≠ [] →
    merged base.path ((ref.takeWhile (· ≠ 35)).takeWhile (· ≠ 63)) = joined (ss ++ [z]) →
    (∀ s ∈ ss, IsSegment s) → z = lit "." ∨ z = lit ".." → (ss ++ [z]).foldl rfcStep [] = []

/-- A reference without a scheme that does not start with `//` is resolved as in the RFC exactly
when it is not too long, is not empty for a base with a fragment, has no `://` or is only a
fragment, and a last `.` or `..` of its merged path leaves nothing before it. -/
theorem resolve_relative_rfc {base : Url} {ref : Text} (hchars : badChar ref = false)
    (hscheme : NoScheme ref) (hnet : ¬ (lit "//").isPrefixOf ref) :
    (∃ u, resolveUrl base ref = .ok u ∧ RfcResult base ref u) ↔
      ref.length ≤ maxUrlLen ∧ (ref = [] → base.fragment = []) ∧
      (ref.head? = some 35 ∨ findText (lit "://") ref = none) ∧ DotsCancel base ref := by
  by_cases hlen : ref.length ≤ maxUrlLen
  swap
  · refine iff_of_false ?_ fun h => hlen h.1
    rintro ⟨u, hu, -⟩
    rw [resolveUrl, if_pos (not_le.mp hlen)] at hu
    cases hu
  rw [resolveUrl, if_neg (not_lt.mpr hlen), if_neg (by simp [hchars])]
  cases ref with
  | nil =>
    refine ⟨?_, fun h => ⟨base, rfl, rfl, rfl, rfl, h.2.1 rfl, rfl, fun _ => rfl,
      fun ss z hne => absurd rfl hne⟩⟩
    rintro ⟨u, hu, hr⟩
    cases hu
    exact ⟨hlen, fun _ => hr.fragment, .inr rfl, fun ss z hne => absurd rfl hne⟩
  | cons c ref =>
    rw [if_neg (cons_ne_nil c ref)]
    by_cases hc : c = 35
    · subst hc
      refine iff_of_true ⟨_, rfl, rfl, rfl, rfl, by simp, by simp, fun _ => rfl, by simp⟩ ?_
      exact ⟨hlen, by simp, .inl rfl, by simp [DotsCancel]⟩
    rw [if_neg (by simpa using hc)]
    by_cases habs : findText (lit "://") (c :: ref) = none
    swap
    · rw [if_pos (by rwa [Option.isSome_iff_ne_none])]
      refine iff_of_false ?_ (by simp [hc, habs])
      rintro ⟨u, hu, -⟩
      exact parseUrl_noScheme hscheme u hu
    rw [if_neg (by simp [habs]), if_neg hnet]
    dsimp only
    have hmerge (rpath : Text) : mergePath base.path rpath =
        removeDotSegments (merged base.path rpath) := by
      rw [mergePath, merged]
      split <;> rfl
    constructor
    · rintro ⟨u, hu, hr⟩
      cases hu
      refine ⟨hlen, by simp, .inr habs, fun ss z hne hm hss hdot => ?_⟩
      have hz : 47 ∉ z := by rcases hdot with rfl | rfl <;> decide
      have hpath := hr.path ss z hne hm hss hz
      rw [if_neg hne, hmerge, hm] at hpath
      exact (removeDotSegments_joined hss hz).mp hpath hdot
    · rintro ⟨-, -, -, hdots⟩
      refine ⟨_, rfl, rfl, rfl, rfl, rfl, ?_, fun hnil => if_pos hnil, fun ss z hne hm hss hz => ?_⟩
      · simp [hc]
      · rw [if_neg hne, hmerge, hm]
        exact (removeDotSegments_joined hss hz).mpr (hdots ss z hne hm hss)

def sampleUrl : Url := ⟨lit "http", lit "h", 80, lit "/a/b", [], []⟩

/-- The `..` of the reference leaves nothing of the path. -/
theorem resolve_relative_rfc_sample :
    ∃ u, resolveUrl sampleUrl (lit "..#f") = .ok u ∧ RfcResult sampleUrl (lit "..#f") u := by
  refine (resolve_relative_rfc (by decide) (by decide) (by decide)).mpr
    ⟨by decide, by decide, by decide, fun ss z _ hm hss hdot => ?_⟩
  have hz : 47 ∉ z := by rcases hdot with rfl | rfl <;> decide
  have hsplit := splitOn_joined hss hz
  rw [← hm] at hsplit
  have hsegs : [lit "a", lit ".."] = ss ++ [z] := tail_eq_of_cons_eq hsplit
  rw [← hsegs]
  decide

/-- A last segment `.` does not leave its slash. -/
theorem last_dot_without_slash : parseUrl (lit "http://h/a/b") = .ok sampleUrl ∧
    merged sampleUrl.path (lit ".") = joined [lit "a", lit "."] ∧
    rfcRemoveDots [lit "a", lit "."] = lit "/a/" ∧
    resolveUrl sampleUrl (lit ".") = .ok {sampleUrl with path := lit "/a"} := by
  decide

end Kyuzen.Browser
