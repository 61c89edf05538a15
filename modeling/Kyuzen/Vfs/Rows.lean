import Kyuzen.Vfs.Refcount

/-!
The descriptors of a task are one row of the table, and a call works in the row
of its task.
-/

namespace Kyuzen.Vfs

open List Table

def RowOf (task : Nat) (t t' : Table) : Prop := ∀ i, i / 16 ≠ task → t'.fds i = t.fds i

namespace RowOf

variable {fd : Nat} {t t' t'' : Table} {task : Nat}

theorem of_fds (h : t'.fds = t.fds) : RowOf task t t' := fun i _ => by rw [h]

theorem trans (h : RowOf task t t') (h' : RowOf task t' t'') : RowOf task t t'' :=
  fun i hi => (h' i hi).trans (h i hi)

theorem setFd (t : Table) (hfd : fd < 16) (e : FdEntry) :
    RowOf task t (t.setFd (task * 16 + fd) e) := by
  intro i hi
  exact setFd_of_ne t _ (by omega) e

theorem openGet (t : Table) (d : Nat) : RowOf task t (t.openGet d) := by
  unfold Table.openGet
  split <;> exact of_fds rfl

theorem openPut (t : Table) (d : Nat) : RowOf task t (t.openPut d) := of_fds (openPut_frame t d).1

theorem clearFd (t : Table) (hfd : fd < 16) :
    RowOf task t (t.clearFd (task * 16 + fd)) := setFd t hfd _

theorem slot {i : Nat} (h : slotOf task fd = some i) : ∃ fd < 16, i = task * 16 + fd := by
  obtain ⟨rfl, -, hfd⟩ := slotOf_eq_some h
  exact ⟨fd, hfd, rfl⟩

theorem of_resolve {t : Table} {i : Nat} (h : t.resolve task fd = some i) :
    ∃ fd < 16, i = task * 16 + fd := by
  revert h
  fun_cases resolve t task fd <;> rintro ⟨⟩
  next hslot _ => exact slot hslot

section
variable (t)

theorem installTty (task fd flags : Nat) (kmalloc : Bool) :
    RowOf task t (t.installTty task fd flags kmalloc) := by
  unfold Table.installTty
  split
  · exact of_fds rfl
  rename_i i hslot
  obtain ⟨fd, hfd, rfl⟩ := slot hslot
  have halloc : RowOf task t (t.openAlloc .tty flags none).2 := of_fds rfl
  split
  · exact of_fds rfl
  · split
    · exact of_fds rfl
    · exact halloc.trans (setFd _ hfd _)

theorem vfsTaskInit (task : Nat) (kmalloc : Nat → Bool) :
    RowOf task t (t.vfsTaskInit task kmalloc) := by
  unfold Table.vfsTaskInit
  split
  · exact of_fds rfl
  · exact ((installTty t _ _ _ _).trans (installTty _ _ _ _ _)).trans (installTty _ _ _ _ _)

theorem vfsOpen (task : Nat) (kind : Kind) (flags : Nat) (kmalloc : Bool) :
    RowOf task t (t.vfsOpen task kind flags kmalloc) := by
  unfold Table.vfsOpen
  split
  · exact of_fds rfl
  split
  · exact of_fds rfl
  dsimp only
  have halloc : RowOf task t (t.openAlloc kind flags none).2 := of_fds rfl
  split
  · exact of_fds rfl
  next fd hfd => exact halloc.trans (setFd _ (allocFd_eq_some hfd).1 _)

theorem vfsPipe (task : Nat) (kmalloc : Bool) : RowOf task t (t.vfsPipe task kmalloc) := by
  unfold Table.vfsPipe
  split
  · exact of_fds rfl
  split
  · exact of_fds rfl
  split
  next rfd wfd rest hfree =>
    have hmem : ∀ fd ∈ rfd :: wfd :: rest, fd < 16 := by
      intro fd hfd
      rw [← hfree] at hfd
      exact mem_range.mp (mem_filter.mp hfd).1
    have hr := hmem rfd (.head _)
    have hw := hmem wfd (.tail _ (.head _))
    refine RowOf.trans (RowOf.trans ?_ (setFd _ hr _)) (setFd _ hw _)
    exact of_fds rfl
  · exact of_fds rfl

theorem vfsDup (task old : Nat) : RowOf task t (t.vfsDup task old).2 := by
  unfold Table.vfsDup
  split
  · exact of_fds rfl
  · split
    · exact of_fds rfl
    next nfd hnfd => exact (openGet t _).trans (setFd _ (allocFd_eq_some hnfd).1 _)

theorem vfsDup2 (task old new : Nat) : RowOf task t (t.vfsDup2 task old new).2 := by
  unfold Table.vfsDup2
  split
  next ns os hns _ =>
    obtain ⟨fd, hfd, rfl⟩ := slot hns
    split
    · exact of_fds rfl
    · dsimp only
      have hget : RowOf task t (t.openGet (t.fds os).open_) := openGet t _
      split
      · exact ((hget.trans (clearFd _ hfd)).trans (openPut _ _)).trans (setFd _ hfd _)
      · exact hget.trans (setFd _ hfd _)
  · exact of_fds rfl

theorem vfsClose (task fd : Nat) : RowOf task t (t.vfsClose task fd).2 := by
  unfold Table.vfsClose
  split
  · exact of_fds rfl
  rename_i i hres
  obtain ⟨fd, hfd, rfl⟩ := of_resolve hres
  exact (clearFd t hfd).trans (openPut _ _)

end

theorem inheritLoop (child parent : Nat) (spec : Nat → Option Nat) (l : List Nat) (t : Table) :
    RowOf child t (Table.inheritLoop child parent spec l t).2 := by
  induction l generalizing t with
  | nil => exact of_fds rfl
  | cons i l ih =>
    rw [Table.inheritLoop]
    split
    · exact ih t
    split
    next ps cs _ hcs =>
      obtain ⟨fd, hfd, rfl⟩ := of_resolve hcs
      exact (((openGet t _).trans (setFd _ hfd _)).trans (openPut _ _)).trans (ih _)
    · exact of_fds rfl

theorem vfsInheritStdio (t : Table) (child parent : Nat) (spec : Nat → Option Nat) :
    RowOf child t (t.vfsInheritStdio child parent spec).2 := by
  unfold Table.vfsInheritStdio
  split
  · exact of_fds rfl
  · exact inheritLoop child parent spec _ t

theorem forkLoop (child parent : Nat) {l : List Nat} (hl : ∀ fd ∈ l, fd < 16) (t : Table) :
    RowOf child t (Table.forkLoop child parent l t) := by
  induction l generalizing t with
  | nil => exact of_fds rfl
  | cons fd l ih =>
    have hfd := hl fd (.head _)
    have hrest := fun fd' h' => hl fd' (.tail _ h')
    rw [Table.forkLoop]
    split
    · exact ((openGet t _).trans (setFd _ hfd _)).trans (ih hrest _)
    · exact ih hrest t

theorem vfsForkInherit (t : Table) (child parent : Nat) :
    RowOf child t (t.vfsForkInherit child parent).2 := by
  unfold Table.vfsForkInherit
  repeat' split
  all_goals try exact of_fds rfl
  exact forkLoop child parent (fun fd hfd => mem_range.mp hfd) t

end RowOf

theorem clearFd_used (t : Table) (i j : Nat) (h : ((t.clearFd i).fds j).used = true) :
    (t.fds j).used = true ∧ j ≠ i := by
  by_cases hne : j = i
  · subst hne
    rw [clearFd, setFd_self] at h
    cases h
  · rw [clearFd, setFd_of_ne t _ hne] at h
    exact ⟨h, hne⟩

/-- The loop of `vfs_close_all` installs nothing and leaves nothing in its list. -/
theorem closeLoop_used (task : Nat) (l : List Nat) (t : Table) (i : Nat)
    (h : ((closeLoop task l t).fds i).used = true) :
    (t.fds i).used = true ∧ ∀ fd ∈ l, i ≠ task * 16 + fd := by
  induction l generalizing t with
  | nil => exact ⟨h, fun fd hfd => absurd hfd not_mem_nil⟩
  | cons fd l ih =>
    rw [closeLoop] at h
    split at h
    · obtain ⟨hused, hrest⟩ := ih _ h
      rw [(openPut_frame _ _).1] at hused
      obtain ⟨hused, hne⟩ := clearFd_used t _ i hused
      exact ⟨hused, forall_mem_cons.mpr ⟨hne, hrest⟩⟩
    next hfree =>
      obtain ⟨hused, hrest⟩ := ih t h
      refine ⟨hused, forall_mem_cons.mpr ⟨fun heq => hfree ?_, hrest⟩⟩
      rw [← heq]
      exact hused

theorem vfsCloseAll_used (t : Table) (task i : Nat) (hi : i < 256)
    (h : ((t.vfsCloseAll task).fds i).used = true) : (t.fds i).used = true ∧ i / 16 ≠ task := by
  unfold vfsCloseAll at h
  split at h
  · exact ⟨h, by omega⟩
  · obtain ⟨hused, hne⟩ := closeLoop_used task _ t i h
    refine ⟨hused, fun heq => hne (i % 16) (mem_range.mpr (by omega)) (by omega)⟩

end Kyuzen.Vfs
