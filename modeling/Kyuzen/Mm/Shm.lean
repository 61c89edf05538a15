import Kyuzen.Base.Bag

/-!
The shared surfaces of `kz_shm.c`. A slot is kept by its owner until it is
destroyed, and by the tasks that map or reference it; the last of them frees it.
Each function is one section of `g_shm_lock`. The frames and the page tables of
the callers are not followed.
-/

namespace Kyuzen.Mm

open Function List

variable {l : List Nat} {t : Nat}

/-- `kz_shm_slot_t`. -/
structure ShmSlot where
  used : Bool
  published : Bool
  destroyed : Bool
  creating : Bool
  generation : Nat
  owner : Nat
  width : Nat
  height : Nat
  maps : List Nat
  refs : List Nat

structure Shm where
  slots : Nat → ShmSlot
  gen : Nat

def kzShmMaxRes : Nat := 16
def kzShmMaxMaps : Nat := 32
def kzShmMaxRefs : Nat := 32

def kzOk : Int := 0
def kzEinval : Int := -1
def kzEbusy : Int := -4
def kzEstale : Int := -6
def kzEacces : Int := -8

/-- `kz_shm_handle`. -/
structure ShmHandle where
  gen : Nat
  idx : Nat

/-- `del_map` and `del_ref`: the first entry of the task goes. -/
def delEntry (task : Nat) (l : List Nat) : List Nat := swapRemove l (l.idxOf task)

namespace ShmSlot

def delMap (x : ShmSlot) (task : Nat) : ShmSlot :=
  if task ∈ x.maps then {x with maps := delEntry task x.maps} else x

def delRef (x : ShmSlot) (task : Nat) : ShmSlot :=
  if task ∈ x.refs then {x with refs := delEntry task x.refs} else x

/-- `while (has_ref(..)) del_ref(..)`, in as many rounds as there are entries. -/
def delRefs (x : ShmSlot) (task : Nat) : Nat → ShmSlot
  | 0 => x
  | rounds + 1 => (x.delRef task).delRefs task rounds

def nextGen (g : Nat) : Nat := if (g + 1) % 2 ^ 32 = 0 then 1 else (g + 1) % 2 ^ 32

def maybeFree (x : ShmSlot) : ShmSlot :=
  if x.destroyed ∧ x.maps = [] ∧ x.refs = [] ∧ x.creating = false then
    {x with used := false, published := false, destroyed := false, generation := nextGen x.generation}
  else x

/-- The task owns the live resource of the slot, maps it or references it. -/
def Holds (x : ShmSlot) (t : Nat) : Prop :=
  x.used = true ∧ (x.owner = t ∧ x.destroyed = false ∨ t ∈ x.maps ∨ t ∈ x.refs)

/-- The body of the loop of `kz_shm_task_exit`. -/
def taskExit (x : ShmSlot) (task : Nat) : ShmSlot :=
  if x.used = false then x
  else
    let y := (x.delMap task).delRefs task x.refs.length
    maybeFree (if y.owner = task ∧ y.destroyed = false then {y with destroyed := true} else y)

end ShmSlot

namespace Shm

def set (s : Shm) (i : Nat) (x : ShmSlot) : Shm := {s with slots := update s.slots i x}

def lookupUnmap (s : Shm) (h : ShmHandle) : Except Int Nat :=
  if h.gen = 0 ∨ h.idx ≥ kzShmMaxRes then .error kzEinval
  else if (s.slots h.idx).used = false ∨ (s.slots h.idx).generation ≠ h.gen then .error kzEstale
  else .ok h.idx

def lookup (s : Shm) (h : ShmHandle) : Except Int Nat :=
  match s.lookupUnmap h with
  | .error e => .error e
  | .ok i => if (s.slots i).destroyed then .error kzEstale else .ok i

/-- The first section of `kz_shm_create` for arguments that are `valid`. -/
def createBegin (s : Shm) (task : Nat) (valid : Bool) : Option Nat × Shm :=
  if valid = false then (none, s)
  else
    match (range kzShmMaxRes).find? fun i => (s.slots i).used = false with
    | none => (none, s)
    | some i =>
      let gen := if s.gen = 0 then 1 else s.gen
      (some i, {s.set i {s.slots i with
          used := true, creating := true, published := false, destroyed := false,
          generation := gen, owner := task, maps := [], refs := []} with
        gen := ShmSlot.nextGen gen})

/-- The last section of `kz_shm_create`; `ok` tells whether the frames were
allocated and mapped. -/
def createEnd (s : Shm) (task i width height : Nat) (ok : Bool) : Shm :=
  if ok then
    s.set i {s.slots i with width := width, height := height, creating := false, maps := [task]}
  else s.set i {s.slots i with used := false, creating := false}

/-- `kz_shm_map` up to the unlock; `write` is the request for write access. -/
def map (s : Shm) (task : Nat) (h : ShmHandle) (write : Bool) : Option Nat × Shm :=
  match s.lookup h with
  | .error _ => (none, s)
  | .ok i =>
    let x := s.slots i
    if x.creating then (none, s)
    else if task ∈ x.maps then (some i, s)
    else if task ≠ x.owner ∧ (x.published = false ∨ write = true) then (none, s)
    else if x.maps.length ≥ kzShmMaxMaps then (none, s)
    else (some i, s.set i {x with maps := x.maps ++ [task]})

/-- `kz_shm_map` when a page could not be mapped. -/
def mapFail (s : Shm) (task i : Nat) : Shm := s.set i ((s.slots i).delMap task).maybeFree

def unmap (s : Shm) (task i : Nat) : Int × Shm :=
  match s.lookupUnmap ⟨(s.slots i).generation, i⟩ with
  | .error _ => (kzEinval, s)
  | .ok i =>
    if task ∉ (s.slots i).maps then (kzEinval, s)
    else (kzOk, s.set i ((s.slots i).delMap task).maybeFree)

def publish (s : Shm) (task : Nat) (h : ShmHandle) (x y w hh : Int) : Int × Shm :=
  match s.lookup h with
  | .error e => (e, s)
  | .ok i =>
    if task ≠ (s.slots i).owner then (kzEacces, s)
    else if w < 0 ∨ hh < 0 ∨ x < 0 ∨ y < 0 then (kzEinval, s)
    else if x + w > (s.slots i).width ∨ y + hh > (s.slots i).height then (kzEinval, s)
    else (kzOk, s.set i {s.slots i with published := true})

def destroy (s : Shm) (task : Nat) (h : ShmHandle) : Int × Shm :=
  match s.lookup h with
  | .error e => (e, s)
  | .ok i =>
    if task ≠ (s.slots i).owner then (kzEacces, s)
    else (kzOk, s.set i {s.slots i with destroyed := true}.maybeFree)

/-- `kz_shm_acquire`; `kz_shm_consume` takes its reference the same way. -/
def acquire (s : Shm) (task : Nat) (h : ShmHandle) : Int × Shm :=
  match s.lookup h with
  | .error e => (e, s)
  | .ok i =>
    if task ≠ (s.slots i).owner ∧ (s.slots i).published = false then (kzEacces, s)
    else if (s.slots i).refs.length ≥ kzShmMaxRefs then (kzEbusy, s)
    else (kzOk, s.set i {s.slots i with refs := (s.slots i).refs ++ [task]})

def release (s : Shm) (task : Nat) (h : ShmHandle) : Int × Shm :=
  match s.lookupUnmap h with
  | .error e => (e, s)
  | .ok i =>
    if task ∉ (s.slots i).refs then (kzEinval, s)
    else (kzOk, s.set i ((s.slots i).delRef task).maybeFree)

/-- `kz_shm_task_exit`. -/
def taskExit (s : Shm) (task : Nat) : Shm :=
  {s with slots := fun i => if i < kzShmMaxRes then (s.slots i).taskExit task else s.slots i}

def Traces (s : Shm) (t : Nat) : Prop := ∃ i < kzShmMaxRes, (s.slots i).Holds t

end Shm

/-! ### Entries of a slot -/

theorem getElem?_idxOf (h : t ∈ l) : l[l.idxOf t]? = some t := by
  have hlt := idxOf_lt_length_iff.mpr h
  rw [getElem?_eq_getElem hlt, getElem_idxOf]

theorem count_delEntry (h : t ∈ l) (u : Nat) :
    (delEntry t l).count u + (if t = u then 1 else 0) = l.count u :=
  count_swapRemove (getElem?_idxOf h) u

theorem mem_of_mem_delEntry {u : Nat} (h : t ∈ l) (hu : u ∈ delEntry t l) : u ∈ l := by
  have hcount := count_delEntry h u
  have hpos := count_pos_iff.mpr hu
  exact count_pos_iff.mp (by omega)

namespace ShmSlot

variable {x y : ShmSlot} {t u : Nat}

/-- A slot in which nobody appears who did not before. -/
structure Fewer (x y : ShmSlot) : Prop where
  holds : ∀ u, y.Holds u → x.Holds u
  maps : ∀ u, y.maps.count u ≤ x.maps.count u

theorem Fewer.refl (x : ShmSlot) : Fewer x x := ⟨fun _ h => h, fun _ => le_rfl⟩

theorem Fewer.trans {z : ShmSlot} (h : Fewer x y) (h' : Fewer y z) : Fewer x z :=
  ⟨fun u hu => h.holds u (h'.holds u hu), fun u => (h'.maps u).trans (h.maps u)⟩

theorem delMap_fewer (x : ShmSlot) (t : Nat) : Fewer x (x.delMap t) := by
  unfold delMap
  split
  next hmem =>
    refine ⟨fun u hu => ⟨hu.1, hu.2.imp_right (.imp_left (mem_of_mem_delEntry hmem))⟩,
      fun u => ?_⟩
    have := count_delEntry hmem u
    dsimp only
    omega
  · exact .refl x

theorem delRef_fewer (x : ShmSlot) (t : Nat) : Fewer x (x.delRef t) := by
  unfold delRef
  split
  next hmem =>
    exact ⟨fun u hu => ⟨hu.1, hu.2.imp_right (.imp_right (mem_of_mem_delEntry hmem))⟩,
      fun _ => le_rfl⟩
  · exact .refl x

theorem delRefs_fewer (t rounds : Nat) (x : ShmSlot) : Fewer x (x.delRefs t rounds) := by
  induction rounds generalizing x with
  | zero => exact .refl x
  | succ rounds ih => exact (delRef_fewer x t).trans (ih _)

theorem maybeFree_fewer (x : ShmSlot) : Fewer x x.maybeFree := by
  unfold maybeFree
  split
  · exact ⟨fun u hu => absurd hu.1 (by simp), fun _ => le_rfl⟩
  · exact .refl x

theorem destroy_fewer (x : ShmSlot) : Fewer x {x with destroyed := true} :=
  ⟨fun _ hu => ⟨hu.1, hu.2.imp_left fun h => absurd h.2 (by simp)⟩, fun _ => le_rfl⟩

theorem delRefs_count (t rounds : Nat) (x : ShmSlot) (h : x.refs.count t ≤ rounds) :
    t ∉ (x.delRefs t rounds).refs := by
  induction rounds generalizing x with
  | zero => exact count_eq_zero.mp (Nat.le_zero.mp h)
  | succ rounds ih =>
    refine ih _ ?_
    unfold delRef
    split
    next hmem =>
      have hcount := count_delEntry hmem t
      rw [if_pos rfl] at hcount
      dsimp only
      omega
    next hmem =>
      rw [count_eq_zero.mpr hmem]
      omega

theorem delRefs_maps (t rounds : Nat) (x : ShmSlot) : (x.delRefs t rounds).maps = x.maps := by
  induction rounds generalizing x with
  | zero => rfl
  | succ rounds ih =>
    rw [delRefs, ih, delRef]
    split <;> rfl

theorem notMem_delMap (h : x.maps.count t ≤ 1) : t ∉ (x.delMap t).maps := by
  unfold delMap
  split
  next hmem =>
    have hcount := count_delEntry hmem t
    rw [if_pos rfl] at hcount
    exact count_eq_zero.mp (by dsimp only; omega)
  · assumption

theorem taskExit_fewer (x : ShmSlot) (t : Nat) : Fewer x (x.taskExit t) := by
  unfold taskExit
  split
  · exact .refl x
  · have hdel := (delMap_fewer x t).trans (delRefs_fewer t x.refs.length _)
    dsimp only
    split
    · exact (hdel.trans (destroy_fewer _)).trans (maybeFree_fewer _)
    · exact hdel.trans (maybeFree_fewer _)

/-- After its exit a task is in no slot that mapped it once. -/
theorem not_holds_taskExit (h : x.maps.count t ≤ 1) : ¬ (x.taskExit t).Holds t := by
  unfold taskExit
  split
  next hfree => exact fun hold => nomatch hfree.symm.trans hold.1
  intro hold
  have hrefs : (x.delMap t).refs.count t ≤ x.refs.length := by
    rw [show (x.delMap t).refs = x.refs by unfold delMap; split <;> rfl]
    exact count_le_length
  have hnomap : t ∉ ((x.delMap t).delRefs t x.refs.length).maps := by
    rw [delRefs_maps]
    exact notMem_delMap h
  have hnoref := delRefs_count t _ _ hrefs
  obtain ⟨-, hcase⟩ := (maybeFree_fewer _).holds t hold
  generalize (x.delMap t).delRefs t x.refs.length = y at hcase hnomap hnoref
  split at hcase
  · rcases hcase with ⟨-, hlive⟩ | hmap | href
    · cases hlive
    · exact hnomap hmap
    · exact hnoref href
  next hother =>
    rcases hcase with hown | hmap | href
    · exact hother hown
    · exact hnomap hmap
    · exact hnoref href

end ShmSlot

namespace Shm

variable {s s' : Shm} {t : Nat}

def MapsOnce (s : Shm) : Prop := ∀ i t, (s.slots i).maps.count t ≤ 1

/-- A call of task `t`: nobody else is in a slot who was not there before. -/
structure By (t : Nat) (s s' : Shm) : Prop where
  traces : ∀ u, u ≠ t → s'.Traces u → s.Traces u
  maps : s.MapsOnce → s'.MapsOnce

theorem By.refl (t : Nat) (s : Shm) : By t s s := ⟨fun _ _ h => h, fun h => h⟩

theorem By.set {i : Nat} {x : ShmSlot} (hx : ∀ u ≠ t, x.Holds u → (s.slots i).Holds u)
    (hmaps : s.MapsOnce → ∀ u, x.maps.count u ≤ 1) : By t s (s.set i x) := by
  refine ⟨fun u hne hu => ?_, fun hs j u => ?_⟩
  · obtain ⟨j, hlt, hj⟩ := hu
    by_cases hij : j = i
    · subst hij
      simp only [Shm.set, update_self] at hj
      exact ⟨j, hlt, hx u hne hj⟩
    · simp only [Shm.set, update_of_ne hij] at hj
      exact ⟨j, hlt, hj⟩
  · by_cases hij : j = i
    · subst hij
      simp only [Shm.set, update_self]
      exact hmaps hs u
    · simp only [Shm.set, update_of_ne hij]
      exact hs j u

theorem By.fewer {i : Nat} {x : ShmSlot} (h : (s.slots i).Fewer x) : By t s (s.set i x) :=
  .set (fun u _ => h.holds u) fun hs u => (h.maps u).trans (hs i u)

section
variable (s)

theorem createBegin_by (t : Nat) (valid : Bool) : By t s (s.createBegin t valid).2 := by
  fun_cases createBegin
  all_goals try exact .refl t s
  rename_i i _ _
  have hset : By t s (s.set i {s.slots i with
      used := true, creating := true, published := false, destroyed := false,
      generation := if s.gen = 0 then 1 else s.gen, owner := t, maps := [], refs := []}) := by
    refine .set (fun u hne hu => ?_) fun _ u => by simp
    rcases hu.2 with ⟨howner, -⟩ | hmap | href
    · exact absurd howner.symm hne
    · cases hmap
    · cases href
  exact {hset with}

theorem createEnd_by (t i width height : Nat) (ok : Bool) :
    By t s (s.createEnd t i width height ok) := by
  unfold createEnd
  split
  · refine .set (fun u hne hu => ⟨hu.1, ?_⟩) fun _ u => ?_
    · rcases hu.2 with howner | hmap | href
      · exact .inl howner
      · exact absurd (mem_singleton.mp hmap) hne
      · exact .inr (.inr href)
    · rw [count_singleton]
      split <;> omega
  · refine .set (fun u hne hu => absurd hu.1 (by simp)) fun hs u => hs i u

theorem map_by (t : Nat) (h : ShmHandle) (write : Bool) : By t s (s.map t h write).2 := by
  fun_cases map
  all_goals try exact .refl t s
  rename_i i _ _ _ hmem _ _
  refine .set (fun u hne hu => ⟨hu.1, ?_⟩) fun hs u => ?_
  · rcases hu.2 with howner | hmap | href
    · exact .inl howner
    · rcases mem_append.mp hmap with hmap | hself
      · exact .inr (.inl hmap)
      · exact absurd (mem_singleton.mp hself) hne
    · exact .inr (.inr href)
  · have hone := hs i u
    rw [count_append, count_singleton]
    by_cases heq : t = u
    · subst heq
      rw [count_eq_zero.mpr hmem]
      simp
    · simp only [beq_iff_eq, heq, if_false]
      omega

theorem mapFail_by (t i : Nat) : By t s (s.mapFail t i) :=
  .fewer ((ShmSlot.delMap_fewer _ t).trans (ShmSlot.maybeFree_fewer _))

theorem unmap_by (t i : Nat) : By t s (s.unmap t i).2 := by
  fun_cases unmap
  all_goals try exact .refl t s
  exact .fewer ((ShmSlot.delMap_fewer _ t).trans (ShmSlot.maybeFree_fewer _))

theorem publish_by (t : Nat) (h : ShmHandle) (x y w hh : Int) :
    By t s (s.publish t h x y w hh).2 := by
  fun_cases publish
  all_goals try exact .refl t s
  exact .fewer ⟨fun _ hu => hu, fun _ => le_rfl⟩

theorem destroy_by (t : Nat) (h : ShmHandle) : By t s (s.destroy t h).2 := by
  fun_cases destroy
  all_goals try exact .refl t s
  exact .fewer ((ShmSlot.destroy_fewer _).trans (ShmSlot.maybeFree_fewer _))

theorem acquire_by (t : Nat) (h : ShmHandle) : By t s (s.acquire t h).2 := by
  fun_cases acquire
  all_goals try exact .refl t s
  refine .set (fun u hne hu => ⟨hu.1, ?_⟩) fun hs u => hs _ u
  rcases hu.2 with howner | hmap | href
  · exact .inl howner
  · exact .inr (.inl hmap)
  · rcases mem_append.mp href with href | hself
    · exact .inr (.inr href)
    · exact absurd (mem_singleton.mp hself) hne

theorem release_by (t : Nat) (h : ShmHandle) : By t s (s.release t h).2 := by
  fun_cases release
  all_goals try exact .refl t s
  exact .fewer ((ShmSlot.delRef_fewer _ t).trans (ShmSlot.maybeFree_fewer _))

theorem taskExit_slot (t i : Nat) : (s.slots i).Fewer ((s.taskExit t).slots i) := by
  simp only [taskExit]
  split
  · exact ShmSlot.taskExit_fewer _ t
  · exact .refl _

end

theorem traces_taskExit {u : Nat} (h : (s.taskExit t).Traces u) : s.Traces u := by
  obtain ⟨i, hlt, hi⟩ := h
  exact ⟨i, hlt, (taskExit_slot s t i).holds u hi⟩

theorem not_traces_taskExit (hs : s.MapsOnce) (t : Nat) : ¬ (s.taskExit t).Traces t := by
  rintro ⟨i, hlt, hi⟩
  simp only [taskExit, hlt, if_true] at hi
  exact ShmSlot.not_holds_taskExit (hs i t) hi

theorem MapsOnce.taskExit (hs : s.MapsOnce) (t : Nat) : (s.taskExit t).MapsOnce :=
  fun i u => ((taskExit_slot s t i).maps u).trans (hs i u)

end Shm

end Kyuzen.Mm
