import Mathlib.Data.List.Basic

/-!
The ring of the Gen12 copy engine. `gen12_submit_commit` copies its batch and
moves the tail before the two steps that can still fail, and a failure takes
neither of them back.
-/

namespace Kyuzen.Drivers.Gen12

open List

/-- A write of the ELSP port: the word, and the ring up to the tail in the context. -/
structure Elsp where
  desc : Nat
  handed : List UInt32
  deriving DecidableEq

/-- The globals, the words of the ring up to `g_ring_tail` and the port's writes. -/
structure Submit where
  ringOk : Bool := false
  ring : List UInt32 := []
  swCounter : Nat := 0
  elsp : List Elsp := []

/-- A call with what it finds: the context's address, and whether
`intel_gen12_ctx_set_ring` and `fw_hold` succeed. A null `dw` is the empty one. -/
structure Call where
  dw : List UInt32
  lrca : Nat
  setRing : Bool
  fwHold : Bool

def ringSize : Nat := 16384
def descLoFlags : Nat := 1 ||| 1 <<< 8 ||| 1 <<< 3 ||| 1 <<< 2
def descClassCopy : Nat := 3

/-- The call passes every check before its copy into a ring that holds `used` words. -/
def Call.Fits (c : Call) (used : Nat) : Prop :=
  c.dw ≠ [] ∧ c.lrca ≠ 0 ∧ c.dw.length ≤ 1024 ∧ used * 4 + c.dw.length * 4 ≤ ringSize - 64 ∧
    used + c.dw.length ≤ 1024

instance (c : Call) (used : Nat) : Decidable (c.Fits used) :=
  inferInstanceAs (Decidable (_ ∧ _ ∧ _ ∧ _ ∧ _))

/-- Every call that gets as far as its copy also gets through the two steps behind it. -/
def Clean : Nat → List Call → Prop
  | _, [] => True
  | used, c :: calls =>
    if c.Fits used then (c.setRing ∧ c.fwHold) ∧ Clean (used + c.dw.length) calls
    else Clean used calls

namespace Submit

/-- `g_ring_tail`, in bytes. -/
def tail (s : Submit) : Nat := s.ring.length * 4

/-- `gen12_submit_init`; `ready` says that its checks, pages and mapping succeed. -/
def init (s : Submit) (ready : Bool) : Submit × Int :=
  if s.ringOk then (s, 0)
  else if !ready then (s, -1)
  else ({s with ring := [], ringOk := true}, 0)

/-- `gen12_submit_commit`. -/
def commit (s : Submit) (c : Call) : Submit × Int :=
  let ndw := c.dw.length
  if !s.ringOk ∨ ndw = 0 then (s, -1)
  else if c.lrca = 0 then (s, -1)
  else if ndw > 1024 then (s, -1)
  else if s.tail + ndw * 4 > ringSize - 64 then (s, -1)
  else if s.tail / 4 + ndw > 1024 then (s, -1)
  else
    let s := {s with ring := s.ring ++ c.dw}
    if !c.setRing then (s, -1)
    else if !c.fwHold then (s, -1)
    else
      let lo := c.lrca &&& 0xFFFFF000 ||| descLoFlags
      let hi := 1 <<< 5 ||| s.swCounter <<< 23 ||| descClassCopy <<< 29
      let s := {s with swCounter := (s.swCounter + 1) &&& 0x3F}
      ({s with elsp := s.elsp ++ [⟨hi, s.ring⟩, ⟨lo, s.ring⟩]}, 0)

def run (s : Submit) (calls : List Call) : Submit := calls.foldl (fun s c => (s.commit c).1) s

/-- The words of the calls that returned 0, in the order of the calls. -/
def accepted (s : Submit) : List Call → List UInt32
  | [] => []
  | c :: calls => (if (s.commit c).2 = 0 then c.dw else []) ++ (s.commit c).1.accepted calls

variable {s : Submit} {c : Call}

theorem commit_refused (h : ¬ c.Fits s.ring.length) : s.commit c = (s, -1) := by
  unfold Call.Fits at h
  simp only [commit, tail, length_eq_zero_iff]
  split_ifs <;> first | rfl | exact absurd ⟨by tauto, by assumption, by omega, by omega, by omega⟩ h

theorem commit_copied (hok : s.ringOk) (h : c.Fits s.ring.length) :
    (s.commit c).1.ring = s.ring ++ c.dw ∧ (s.commit c).1.ringOk ∧
      ((s.commit c).2 = 0 ↔ c.setRing ∧ c.fwHold) ∧
      ∀ e ∈ (s.commit c).1.elsp.drop s.elsp.length, e.handed = s.ring ++ c.dw := by
  obtain ⟨hdw, hlrca, hlong, hroom, hpage⟩ := h
  have hguards : s.commit c = if !c.setRing then ({s with ring := s.ring ++ c.dw}, -1)
      else if !c.fwHold then ({s with ring := s.ring ++ c.dw}, -1)
      else ({s with
        ring := s.ring ++ c.dw
        swCounter := (s.swCounter + 1) &&& 0x3F
        elsp := s.elsp ++
          [⟨1 <<< 5 ||| s.swCounter <<< 23 ||| descClassCopy <<< 29, s.ring ++ c.dw⟩,
            ⟨c.lrca &&& 0xFFFFF000 ||| descLoFlags, s.ring ++ c.dw⟩]}, 0) := by
    simp only [commit, tail, length_eq_zero_iff]
    split_ifs <;> first | rfl | omega | simp_all
  rw [hguards]
  cases c.setRing <;> cases c.fwHold <;> simp [hok]

/-- The ring holds what was accepted, or it is longer. -/
theorem ring_run (hok : s.ringOk) (calls : List Call) :
    (Clean s.ring.length calls → (s.run calls).ring = s.ring ++ s.accepted calls) ∧
      (¬ Clean s.ring.length calls →
        s.ring.length + (s.accepted calls).length < (s.run calls).ring.length) := by
  induction calls generalizing s with
  | nil => simp [Clean, run, accepted]
  | cons c calls ih =>
    have hnext : s.run (c :: calls) = (s.commit c).1.run calls := rfl
    rw [hnext, accepted, Clean]
    by_cases hfits : c.Fits s.ring.length
    · obtain ⟨hring, hok', hcode, -⟩ := commit_copied hok hfits
      obtain ⟨hclean, hlong⟩ := ih hok'
      rw [hring, length_append] at hclean hlong
      rw [if_pos hfits]
      have hpos := length_pos_iff.mpr hfits.1
      by_cases hzero : (s.commit c).2 = 0
      · simp only [if_pos hzero, hcode.mp hzero, true_and, length_append, ← append_assoc]
        exact ⟨hclean, fun h => by have := hlong h; omega⟩
      · rw [if_neg hzero, nil_append]
        refine ⟨fun h => absurd (hcode.mpr h.1) hzero, fun _ => ?_⟩
        by_cases h : Clean (s.ring.length + c.dw.length) calls
        · rw [hclean h, length_append, length_append]
          omega
        · have := hlong h
          omega
    · rw [if_neg hfits, commit_refused hfits,
        if_neg (show ¬ (-1 : Int) = 0 by decide), nil_append]
      exact ih hok

/-- At each write of the port by a call, the ring up to the tail is what the calls before it
that returned 0 submitted, followed by its own words, exactly when each call before it that
got as far as its copy also got through the two steps behind it. -/
theorem elsp_handed_iff (hinit : ({} : Submit).init true = (s, 0)) (before : List Call) (c : Call)
    (e : Elsp) (he : e ∈ ((s.run before).commit c).1.elsp.drop (s.run before).elsp.length) :
    e.handed = s.accepted before ++ c.dw ↔ Clean 0 before := by
  cases hinit
  have hok : (run {ringOk := true} before).ringOk :=
    foldlRecOn (motive := fun s : Submit => s.ringOk) before _ rfl fun s hs c _ => by
      by_cases h : c.Fits s.ring.length
      · exact (commit_copied hs h).2.1
      · rwa [commit_refused h]
  have hfits : c.Fits (run {ringOk := true} before).ring.length := by
    by_contra h
    simp [commit_refused h] at he
  obtain ⟨hclean, hlong⟩ := ring_run (s := {ringOk := true}) rfl before
  rw [(commit_copied hok hfits).2.2.2 e he, append_cancel_right_eq]
  refine ⟨fun heq => ?_, hclean⟩
  by_contra h
  have := hlong h
  rw [heq] at this
  simp at this

theorem elsp_handed_two :
    let before : List Call := [⟨[7], 1, true, true⟩, ⟨[5], 0, true, false⟩]
    let s := run {ringOk := true} before
    ∃ e ∈ (s.commit ⟨[9, 2], 1, true, true⟩).1.elsp.drop s.elsp.length, e.handed = [7, 9, 2] :=
  ⟨⟨1619001376, [7, 9, 2]⟩, by decide, (elsp_handed_iff rfl
    [⟨[7], 1, true, true⟩, ⟨[5], 0, true, false⟩] ⟨[9, 2], 1, true, true⟩ ⟨1619001376, [7, 9, 2]⟩
    (by decide)).mpr (by simp [Clean, Call.Fits, ringSize])⟩

/-- A batch whose `fw_hold` failed runs with the next one that is accepted. -/
theorem rejected_batch_handed :
    let calls : List Call := [⟨[7], 1, true, false⟩, ⟨[9], 1, true, true⟩]
    (run {ringOk := true} calls).elsp.map Elsp.handed = [[7, 9], [7, 9]] ∧
      accepted {ringOk := true} calls = [9] := by
  decide

end Submit

end Kyuzen.Drivers.Gen12
