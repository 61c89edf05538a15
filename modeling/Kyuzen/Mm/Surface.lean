import Kyuzen.Base.Run
import Kyuzen.Mm.Shm

/-!
The calls of `kz_shm.c` with the frames and the page tables they work on. Each
section of `g_shm_lock`, each call of the frame allocator and each page table
update between the sections is one step; what a task still has to do is kept in
`calls`. A task that is inside a call does nothing else. The part of its address
space at the surface slots is kept by task, slot and page.
-/

namespace Kyuzen.Mm

/-- A call of a task between two of its steps. -/
inductive SurfCall where
  /-- `kz_shm_create` with the pages it has so far, of `n`. -/
  | alloc (i gen n width height : Nat) (pages : List Nat)
  /-- `kz_shm_create` with `k` of its pages mapped. -/
  | enter (i gen width height : Nat) (pages : List Nat) (k : Nat)
  /-- The failed `kz_shm_create` with `j` of the `k` mapped pages unmapped. -/
  | undo (i : Nat) (pages : List Nat) (k j : Nat)
  /-- The failed `kz_shm_create` before its last section. -/
  | fail (i : Nat)
  /-- `kz_shm_map` with `k` pages mapped. -/
  | map (i gen : Nat) (write : Bool) (k : Nat)
  /-- The failed `kz_shm_map` with `j` of the `k` mapped pages unmapped. -/
  | unmapAll (i gen k j : Nat)
  /-- `kz_shm_unmap` behind its section, with `k` of the `n` pages unmapped. -/
  | unmap (i n k : Nat)
  /-- The task ran `kz_shm_task_exit` with records in these slots, and its address
  space is still there. -/
  | exited (slots : List Nat)
  deriving DecidableEq, Repr

/-- The state. `pages i` are the frames of slot `i`, none without an array, and
`taken` the frames that the allocator has handed out. The code keeps none of the
rest: `creates` counts the sections that took a slot, `installed` are the
generations that got their pages, `returned` counts by generation how often
`free_pages` gave them back, and `destroyed` are the handles of destroyed
resources. -/
structure Surf where
  shm : Shm
  pages : Nat → List Nat
  taken : Nat → Bool
  pte : Nat → Nat → Nat → Option (Nat × Bool)
  calls : Nat → Option SurfCall
  creates : Nat
  installed : List Nat
  returned : Nat → Nat
  destroyed : List ShmHandle

def kzShmMaxPages : Nat := 2048

namespace Shm

/-- The checks of `kz_shm_stat`; on success the metadata of the slot is copied. -/
def stat (s : Shm) (task : Nat) (h : ShmHandle) : Except Int Nat :=
  match s.lookup h with
  | .error e => .error e
  | .ok i =>
    if task ≠ (s.slots i).owner ∧ (s.slots i).published = false then .error kzEacces else .ok i

end Shm

namespace Surf

/-- `maybe_free` has given the slot up in a section that ends with `s`. -/
def gaveUp (σ : Surf) (s : Shm) (i : Nat) : Bool := (σ.shm.slots i).used && !(s.slots i).used

/-- A frame goes back by `free_pages` of a slot that was given up. -/
def freed (σ : Surf) (s : Shm) (f : Nat) : Bool :=
  (List.range kzShmMaxRes).any fun i => σ.gaveUp s i && decide (f ∈ σ.pages i)

/-- A section that ends with `s`: the slots that `maybe_free` gave up lose their
pages, and destroyed resources are noted. -/
def sect (σ : Surf) (s : Shm) : Surf :=
  {σ with
    shm := s
    pages := fun i => if σ.gaveUp s i then [] else σ.pages i
    taken := fun f => σ.taken f && !σ.freed s f
    returned := fun g => σ.returned g + (List.range kzShmMaxRes).countP fun i =>
      σ.gaveUp s i && decide ((σ.shm.slots i).generation = g)
    destroyed := ((List.range kzShmMaxRes).filter fun i =>
        (σ.shm.slots i).used && !(σ.shm.slots i).destroyed &&
          (!(s.slots i).used || (s.slots i).destroyed)).map
      (fun i => ⟨(σ.shm.slots i).generation, i⟩) ++ σ.destroyed}

def setCall (σ : Surf) (t : Nat) (c : Option SurfCall) : Surf :=
  {σ with calls := Function.update σ.calls t c}

def setPte (σ : Surf) (t i k : Nat) (e : Option (Nat × Bool)) : Surf :=
  {σ with pte := fun t' i' k' => if t' = t ∧ i' = i ∧ k' = k then e else σ.pte t' i' k'}

/-- `pmm_free_page` of each page. -/
def giveBack (σ : Surf) (pages : List Nat) : Surf :=
  {σ with taken := fun f => σ.taken f && !decide (f ∈ pages)}

/-! ### `kz_shm_create` -/

/-- The first section, for `n` pages. `valid` are the checks before the page count. -/
def createBegin (σ : Surf) (t : Nat) (valid : Bool) (n width height : Nat) : Surf :=
  match σ.shm.createBegin t (valid && decide (0 < n ∧ n ≤ kzShmMaxPages)) with
  | (none, _) => σ
  | (some i, s) =>
    {σ with shm := s, creates := σ.creates + 1}.setCall t
      (some (.alloc i (s.slots i).generation n width height []))

/-- `kmalloc` of the array failed. -/
def createOom (σ : Surf) (t : Nat) : Surf :=
  match σ.calls t with
  | some (.alloc i _ _ _ _ []) => σ.setCall t (some (.fail i))
  | _ => σ

/-- One `pmm_alloc_page`; after a failure the pages so far go back. -/
def createPage (σ : Surf) (t : Nat) (page : Option Nat) : Surf :=
  match σ.calls t with
  | some (.alloc i gen n width height pages) =>
    if pages.length < n then
      match page with
      | none => (σ.giveBack pages).setCall t (some (.fail i))
      | some f =>
        if σ.taken f then σ
        else
          {σ with taken := Function.update σ.taken f true}.setCall t
            (some (.alloc i gen n width height (pages ++ [f])))
    else σ.setCall t (some (.enter i gen width height pages 0))
  | _ => σ

/-- One `vmm_map_page_into` of a new page. -/
def createPte (σ : Surf) (t : Nat) (ok : Bool) : Surf :=
  match σ.calls t with
  | some (.enter i gen width height pages k) =>
    match pages[k]? with
    | none => σ
    | some f =>
      if ok then
        (σ.setPte t i k (some (f, true))).setCall t (some (.enter i gen width height pages (k + 1)))
      else σ.setCall t (some (.undo i pages k 0))
  | _ => σ

/-- One page is unmapped, or all pages go back. -/
def createUndo (σ : Surf) (t : Nat) : Surf :=
  match σ.calls t with
  | some (.undo i pages k j) =>
    if j < k then (σ.setPte t i j none).setCall t (some (.undo i pages k (j + 1)))
    else (σ.giveBack pages).setCall t (some (.fail i))
  | _ => σ

/-- The last section of either outcome. -/
def createEnd (σ : Surf) (t : Nat) : Surf :=
  match σ.calls t with
  | some (.enter i gen width height pages k) =>
    if k < pages.length then σ
    else
      {σ with
        shm := σ.shm.createEnd t i width height true
        pages := Function.update σ.pages i pages
        installed := gen :: σ.installed}.setCall t none
  | some (.fail i) => {σ with shm := σ.shm.createEnd t i 0 0 false}.setCall t none
  | _ => σ

/-! ### `kz_shm_map` and `kz_shm_unmap` -/

/-- The first section. With a record already there the call returns. -/
def mapBegin (σ : Surf) (t : Nat) (h : ShmHandle) (write : Bool) : Surf :=
  match σ.shm.map t h write with
  | (none, _) => σ
  | (some i, s) =>
    if t ∈ (σ.shm.slots i).maps then σ
    else (σ.sect s).setCall t (some (.map i h.gen write 0))

/-- One `vmm_map_page_into`, writable for the owner only; past the last page the
call returns. -/
def mapPte (σ : Surf) (t : Nat) (ok : Bool) : Surf :=
  match σ.calls t with
  | some (.map i gen write k) =>
    match (σ.pages i)[k]? with
    | none => σ.setCall t none
    | some f =>
      if ok then
        (σ.setPte t i k (some (f, decide (t = (σ.shm.slots i).owner) && write))).setCall t
          (some (.map i gen write (k + 1)))
      else σ.setCall t (some (.unmapAll i gen k 0))
  | _ => σ

/-- The failed map: one page is unmapped, or the record goes. -/
def mapUndo (σ : Surf) (t : Nat) : Surf :=
  match σ.calls t with
  | some (.unmapAll i gen k j) =>
    if j < k then (σ.setPte t i j none).setCall t (some (.unmapAll i gen k (j + 1)))
    else (σ.sect (σ.shm.mapFail t i)).setCall t none
  | _ => σ

/-- The section of `kz_shm_unmap` for slot `i`. -/
def unmapBegin (σ : Surf) (t i : Nat) : Surf :=
  match σ.shm.unmap t i with
  | (rc, s) =>
    if rc = kzOk then (σ.sect s).setCall t (some (.unmap i (σ.pages i).length 0)) else σ

def unmapPte (σ : Surf) (t : Nat) : Surf :=
  match σ.calls t with
  | some (.unmap i n k) =>
    if k < n then (σ.setPte t i k none).setCall t (some (.unmap i n (k + 1)))
    else σ.setCall t none
  | _ => σ

/-- `kz_shm_task_exit`, behind which the task only waits for its end. -/
def taskExit (σ : Surf) (t : Nat) : Surf :=
  (σ.sect (σ.shm.taskExit t)).setCall t
    (some (.exited ((List.range kzShmMaxRes).filter fun i => t ∈ (σ.shm.slots i).maps)))

/-- The address space of a task that has ended is destroyed and the task number goes to
a new task. The old one ran `kz_shm_task_exit`, or it was `TASK_READY` outside of a call and
`proc_kill` ended it without that. `task_fork` leaves the surface slots out of the copy, and a
spawned task starts without them. -/
def newTask (σ : Surf) (t : Nat) : Surf :=
  match σ.calls t with
  | none | some (.exited _) =>
    {σ with pte := fun t' => if t' = t then fun _ _ => none else σ.pte t'}.setCall t none
  | _ => σ

/-- `sys_load_elf`, `sys_exec` and `sys_execve` put another address space in the
place of the task's own; `window` is what the image put at the surface slots. -/
def replaceSpace (σ : Surf) (t : Nat) (window : Nat → Nat → Option (Nat × Bool)) : Surf :=
  {σ with pte := fun t' => if t' = t then window else σ.pte t'}

end Surf

inductive SurfOp where
  | createBegin (valid : Bool) (n width height : Nat)
  | createOom
  | createPage (page : Option Nat)
  | createPte (ok : Bool)
  | createUndo
  | createEnd
  | mapBegin (h : ShmHandle) (write : Bool)
  | mapPte (ok : Bool)
  | mapUndo
  | unmapBegin (i : Nat)
  | unmapPte
  | publish (h : ShmHandle) (x y w hh : Int)
  | destroy (h : ShmHandle)
  | acquire (h : ShmHandle)
  | release (h : ShmHandle)
  | stat (h : ShmHandle)
  | taskExit
  | newTask
  | replaceSpace (window : Nat → Nat → Option (Nat × Bool))

/-- The step continues what the task is in; the others begin something. -/
def SurfOp.continues : SurfOp → Bool
  | .createOom | .createPage _ | .createPte _ | .createUndo | .createEnd | .mapPte _ | .mapUndo
  | .unmapPte | .newTask => true
  | _ => false

namespace Surf

/-- A step of task `t`. `kz_shm_consume` takes its reference like `kz_shm_acquire`. -/
def exec (σ : Surf) (t : Nat) (op : SurfOp) : Surf :=
  if op.continues = false ∧ σ.calls t ≠ none then σ
  else
    match op with
    | .createBegin valid n width height => σ.createBegin t valid n width height
    | .createOom => σ.createOom t
    | .createPage page => σ.createPage t page
    | .createPte ok => σ.createPte t ok
    | .createUndo => σ.createUndo t
    | .createEnd => σ.createEnd t
    | .mapBegin h write => σ.mapBegin t h write
    | .mapPte ok => σ.mapPte t ok
    | .mapUndo => σ.mapUndo t
    | .unmapBegin i => σ.unmapBegin t i
    | .unmapPte => σ.unmapPte t
    | .publish h x y w hh => σ.sect (σ.shm.publish t h x y w hh).2
    | .destroy h => σ.sect (σ.shm.destroy t h).2
    | .acquire h => σ.sect (σ.shm.acquire t h).2
    | .release h => σ.sect (σ.shm.release t h).2
    | .stat _ => σ
    | .taskExit => σ.taskExit t
    | .newTask => σ.newTask t
    | .replaceSpace window => σ.replaceSpace t window

end Surf

def emptySlot : ShmSlot :=
  ⟨false, false, false, false, 0, 0, 0, 0, [], []⟩

def Surf.init : Surf where
  shm := ⟨fun _ => emptySlot, 1⟩
  pages _ := []
  taken _ := false
  pte _ _ _ := none
  calls _ := none
  creates := 0
  installed := []
  returned _ := 0
  destroyed := []

end Kyuzen.Mm
