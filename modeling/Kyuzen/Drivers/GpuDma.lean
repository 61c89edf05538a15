import Kyuzen.Drivers.VirtioGpu

/-!
Who owns the memory of a chain: from `virtq_submit` until the device returns the chain its
command and response bytes belong to the device.
-/

namespace Kyuzen.Drivers

open List

variable {cmdLen : Nat}

/-- The memory of the synchronous path, of a pair, and of the cursor path. -/
inductive Zone where
  | sync
  | pair (p : Nat)
  | cursor
  deriving DecidableEq, Repr

def Zone.Has : Zone → Span → Prop
  | .sync, s => (∃ i, s.page = .cmd i) ∨ s.page = .resp ∧ s.off + s.len ≤ respOff 0
  | .pair p, s => (∃ second, s.page = .async p second) ∨
      s.page = .resp ∧ respOff (p * 2 + 1) ≤ s.off ∧ s.off + s.len ≤ respOff (p * 2 + 3)
  | .cursor, s => s.page = .cursor

theorem Zone.not_overlaps {z z' : Zone} {a b : Span} (hne : z ≠ z') (ha : z.Has a) (hb : z'.Has b) :
    ¬ a.Overlaps b := by
  rintro ⟨hpage, hab, hba⟩
  have hoff : ∀ n, respOff n = 512 + n * 64 := fun _ => rfl
  cases z <;> cases z' <;> simp only [Zone.Has, hoff] at ha hb <;> grind

theorem zone_commandBufs {outLen : Nat} : ∀ s ∈ commandBufs cmdLen outLen, Zone.sync.Has s := by
  intro s hs
  rcases mem_append.mp hs with hs | hs
  · obtain ⟨i, _, rfl⟩ := mem_map.mp hs
    exact .inl ⟨i, rfl⟩
  split at hs
  · exact nomatch hs
  · rw [mem_singleton.mp hs]
    refine .inr ⟨rfl, ?_⟩
    change 0 + (if outLen > respSyncMax then respSyncMax else outLen) ≤ respSyncMax + 0 * respSlot
    split <;> omega

theorem zone_batchBufs {pair : Nat} {second : Bool} :
    ∀ s ∈ batchBufs pair cmdLen second, (Zone.pair pair).Has s := by
  have hoff : ∀ n, respOff n = 512 + n * 64 := fun _ => rfl
  rw [batchBufs, forall_mem_cons, forall_mem_singleton]
  refine ⟨.inl ⟨second, rfl⟩, .inr ⟨rfl, ?_⟩⟩
  rw [hoff, hoff, hoff]
  cases second <;> simp [respSlot] <;> omega

theorem zone_batchWrites {pair cmd1Len cmd2Len : Nat} :
    ∀ s ∈ batchWrites pair cmd1Len cmd2Len, (Zone.pair pair).Has s := by
  have hoff : ∀ n, respOff n = 512 + n * 64 := fun _ => rfl
  rw [batchWrites, forall_mem_cons, forall_mem_cons, forall_mem_singleton]
  refine ⟨.inl ⟨false, rfl⟩, .inl ⟨true, rfl⟩, .inr ⟨rfl, le_rfl, ?_⟩⟩
  rw [hoff, hoff, respSlot]
  dsimp only
  omega

theorem zone_cursorBufs : ∀ s ∈ cursorBufs cmdLen, Zone.cursor.Has s := by
  rw [cursorBufs, forall_mem_cons, forall_mem_singleton]
  exact ⟨rfl, rfl⟩

theorem commandBufs_overlap {outLen cmdLen' outLen' : Nat} (h : cmdLen ≠ 0) (h' : cmdLen' ≠ 0) :
    ∃ a ∈ commandBufs cmdLen outLen, ∃ b ∈ commandBufs cmdLen' outLen', a.Overlaps b := by
  have hfirst : ∀ len out, len ≠ 0 → ∃ s ∈ commandBufs len out, s.page = .cmd 0 ∧ s.off = 0 ∧ 0 < s.len := by
    intro len out hlen
    have hpages : 0 < cmdPages len := by
      rw [cmdPages]
      omega
    refine ⟨_, mem_append_left _ (mem_map_of_mem (mem_range.mpr hpages)), rfl, rfl, ?_⟩
    dsimp only
    split <;> omega
  obtain ⟨a, ha, hpa, hoa, hla⟩ := hfirst cmdLen outLen h
  obtain ⟨b, hb, hpb, hob, hlb⟩ := hfirst cmdLen' outLen' h'
  exact ⟨a, ha, b, hb, hpa.trans hpb.symm, by omega, by omega⟩

/-! ## Where the chains lie -/

def Flight.Placed (c : Flight) : Prop :=
  (c.pair = 0 → ∃ cmdLen outLen, cmdLen ≠ 0 ∧ c.bufs = commandBufs cmdLen outLen) ∧
    ∀ p, c.pair = p + 1 → ∃ cmdLen second, c.bufs = batchBufs p cmdLen second

theorem placed_batch (head fence pair cmdLen : Nat) (second : Bool) :
    Flight.Placed ⟨head, fence, pair + 1, batchBufs pair cmdLen second⟩ := by
  refine ⟨nofun, fun p hp => ⟨cmdLen, second, ?_⟩⟩
  rw [Nat.succ.inj hp]

def Flight.zone (c : Flight) : Zone := if c.pair = 0 then .sync else .pair (c.pair - 1)

theorem Flight.Placed.has {c : Flight} (h : c.Placed) : ∀ b ∈ c.bufs, c.zone.Has b := by
  rw [Flight.zone]
  split
  next hpair =>
    obtain ⟨cmdLen, outLen, _, hbufs⟩ := h.1 hpair
    rw [hbufs]
    exact zone_commandBufs
  next hpair =>
    obtain ⟨cmdLen, second, hbufs⟩ := h.2 (c.pair - 1) (Nat.succ_pred hpair).symm
    rw [hbufs]
    exact zone_batchBufs

namespace Gpu

variable {g : Gpu}

structure DmaInv (g : Gpu) : Prop where
  device : ∀ c ∈ g.device, c.Placed
  cursor : ∀ c ∈ g.cursorDevice, ∃ cmdLen, cmdLen ≠ 0 ∧ c.bufs = cursorBufs cmdLen

theorem onReap_device (g : Gpu) (head : Nat) :
    (g.onReap head).device = g.device ∧ (g.onReap head).cursorDevice = g.cursorDevice := by
  rw [onReap]
  split
  · exact ⟨rfl, rfl⟩
  split
  · exact ⟨rfl, rfl⟩
  · exact ⟨rfl, rfl⟩

theorem reap_device {head : Nat} {g' : Gpu} (h : g.reap = some (head, g')) :
    g'.device = g.device ∧ g'.cursorDevice = g.cursorDevice := by
  rw [reap] at h
  split at h
  · have heq : _ = g' := congrArg Prod.snd (Option.some.inj h)
    rw [← heq]
    exact onReap_device _ _
  · cases h

section
variable (h : g.DmaInv)
include h

theorem DmaInv.command (cmdLen outLen : Nat) : (g.command cmdLen outLen).DmaInv := by
  rw [Gpu.command]
  split
  · exact h
  rename_i hlen
  split
  · exact h
  · constructor
    · have hplaced : ∀ head, Flight.Placed ⟨head, 0, 0, commandBufs cmdLen outLen⟩ :=
        fun _ => ⟨fun _ => ⟨cmdLen, outLen, (not_or.mp hlen).1, rfl⟩, fun _ h => by cases h⟩
      exact forall_mem_cons.mpr ⟨hplaced _, h.device⟩
    · exact h.cursor

theorem DmaInv.submit2 (cmd1Len cmd2Len : Nat) : (g.submit2 cmd1Len cmd2Len).2.DmaInv := by
  rw [Gpu.submit2]
  split
  · exact h
  dsimp only
  split
  · exact {h with}
  split
  · exact ⟨forall_mem_cons.mpr ⟨placed_batch _ _ _ _ _, h.device⟩, h.cursor⟩
  · exact ⟨forall_mem_cons.mpr ⟨placed_batch _ _ _ _ _,
      forall_mem_cons.mpr ⟨placed_batch _ _ _ _ _, h.device⟩⟩, h.cursor⟩

theorem DmaInv.cursorCommand (cmdLen : Nat) : (g.cursorCommand cmdLen).DmaInv := by
  rw [Gpu.cursorCommand]
  split
  · exact h
  rename_i hlen
  split
  · exact h
  · exact ⟨h.device, forall_mem_cons.mpr ⟨⟨cmdLen, (not_or.mp hlen).1, rfl⟩, h.cursor⟩⟩

theorem DmaInv.cursorEnd (timeout : Bool) : (g.cursorEnd timeout).DmaInv := by
  rw [Gpu.cursorEnd]
  split
  · exact {h with}
  · exact {h with}

theorem DmaInv.step {a : Act} {g' : Gpu} (hs : g.step a = some g') : g'.DmaInv := by
  have hreaped : ∀ {head : Nat} {g' : Gpu}, g.reap = some (head, g') → g'.DmaInv := by
    intro head g' hreap
    obtain ⟨hdev, hcur⟩ := reap_device hreap
    exact ⟨fun c hc => h.device c (hdev ▸ hc), fun c hc => h.cursor c (hcur ▸ hc)⟩
  revert hs
  fun_cases Gpu.step g a <;> rintro ⟨⟩
  next => exact ⟨fun d hd => h.device d (mem_of_mem_erase hd), h.cursor⟩
  next cmdLen outLen _ => exact h.command cmdLen outLen
  next hreap _ =>
    have hdma := hreaped hreap
    split
    · exact {hdma with}
    · exact hdma
  next => exact {h with}
  next => exact {h with}
  next hreap => exact hreaped hreap
  next cmd1Len cmd2Len _ _ =>
    have hsub := h.submit2 cmd1Len cmd2Len
    exact {hsub with}
  next => exact {h with}
  next => exact ⟨h.device, fun d hd => h.cursor d (mem_of_mem_erase hd)⟩
  next cmdLen _ => exact h.cursorCommand cmdLen
  next polled =>
    have hpolled : polled.DmaInv := {h with}
    split
    · exact hpolled.cursorEnd false
    · exact hpolled
  next => exact h.cursorEnd true

end

/-! ## One owner -/

def writes (g : Gpu) : Act → List Span
  | .command cmdLen outLen =>
    if g.control ≠ .idle ∨ cmdLen = 0 ∨ cmdPages cmdLen > g.cmdPagesN then []
    else commandBufs cmdLen outLen
  | .drainEnd =>
    match g.control, g.returned, g.freePair with
    | .drain (.submit2 cmd1Len cmd2Len), [], some pair => batchWrites pair cmd1Len cmd2Len
    | _, _, _ => []
  | .cursorCommand cmdLen =>
    if g.cursorWait ≠ none ∨ cmdLen = 0 ∨ cmdLen > 512 ∨ g.cursorDead then []
    else cursorBufs cmdLen
  | _ => []

/-- No byte that is written belongs to a chain that the device has not returned. -/
def OneOwner (g : Gpu) (a : Act) : Prop :=
  ∀ w ∈ g.writes a, ∀ c ∈ g.device ++ g.cursorDevice, ∀ b ∈ c.bufs, ¬ w.Overlaps b

/-- A command that writes finds no chain of its own path still with the device. -/
def PathReturned (g : Gpu) : Act → Prop
  | .command cmdLen outLen => g.writes (.command cmdLen outLen) ≠ [] → ∀ c ∈ g.device, c.pair ≠ 0
  | .cursorCommand cmdLen => g.writes (.cursorCommand cmdLen) ≠ [] → g.cursorDevice = []
  | _ => True

theorem DmaInv.oneOwner (h : g.DmaInv) {a : Act} {z : Zone} (hw : ∀ w ∈ g.writes a, z.Has w)
    (hdev : ∀ c ∈ g.device, z ≠ c.zone) (hcur : z = .cursor → g.cursorDevice = []) :
    g.OneOwner a := by
  intro w hwm c hc b hb
  rcases mem_append.mp hc with hc | hc
  · exact Zone.not_overlaps (hdev c hc) (hw w hwm) ((h.device c hc).has b hb)
  obtain ⟨cmdLen, _, hbufs⟩ := h.cursor c hc
  rw [hbufs] at hb
  apply Zone.not_overlaps _ (hw w hwm) (zone_cursorBufs b hb)
  intro heq
  rw [hcur heq] at hc
  exact nomatch hc

theorem DmaInv.command_iff (h : g.DmaInv) (cmdLen outLen : Nat) :
    g.OneOwner (.command cmdLen outLen) ↔ g.PathReturned (.command cmdLen outLen) := by
  constructor
  · intro hone hne c hc hpair
    obtain ⟨cmdLen', outLen', hlen', hbufs⟩ := (h.device c hc).1 hpair
    rw [writes] at hne
    split at hne
    · exact hne rfl
    rename_i hok
    obtain ⟨w, hw, b, hb, hover⟩ := commandBufs_overlap (not_or.mp (not_or.mp hok).2).1 hlen'
    apply hone w _ c (mem_append_left _ hc) b _ hover
    · rw [writes, if_neg hok]
      exact hw
    · rw [hbufs]
      exact hb
  · intro hret
    by_cases hne : g.writes (.command cmdLen outLen) = []
    · intro w hw
      rw [hne] at hw
      exact nomatch hw
    apply h.oneOwner (z := .sync) _ _ nofun
    · rw [writes]
      split
      · exact nofun
      · exact zone_commandBufs
    · intro c hc
      rw [Flight.zone, if_neg (hret hne c hc)]
      exact nofun

theorem DmaInv.cursor_iff (h : g.DmaInv) (cmdLen : Nat) :
    g.OneOwner (.cursorCommand cmdLen) ↔ g.PathReturned (.cursorCommand cmdLen) := by
  constructor
  · intro hone hne
    by_contra hcur
    obtain ⟨c, rest, hcons⟩ := exists_cons_of_ne_nil hcur
    have hc : c ∈ g.cursorDevice := by
      rw [hcons]
      exact .head _
    obtain ⟨cmdLen', hlen', hbufs⟩ := h.cursor c hc
    rw [writes] at hne
    split at hne
    · exact hne rfl
    rename_i hok
    apply hone ⟨.cursor, 0, cmdLen⟩ _ c (mem_append_right _ hc) ⟨.cursor, 0, cmdLen'⟩
    · rw [hbufs]
      exact .head _
    · refine ⟨rfl, ?_, ?_⟩
      · change 0 < 0 + cmdLen'
        omega
      · change 0 < 0 + cmdLen
        omega
    · rw [writes, if_neg hok]
      exact .head _
  · intro hret
    by_cases hne : g.writes (.cursorCommand cmdLen) = []
    · intro w hw
      rw [hne] at hw
      exact nomatch hw
    apply h.oneOwner (z := .cursor) _ _ fun _ => hret hne
    · rw [writes]
      split
      · exact nofun
      · exact zone_cursorBufs
    · intro c _
      rw [Flight.zone]
      split
      · exact nofun
      · exact nofun

/-- A batch writes into a pair that no chain uses. -/
theorem Inv.drainEnd_oneOwner (hinv : g.Inv) (h : g.DmaInv) : g.OneOwner .drainEnd := by
  cases hpair : g.freePair with
  | none =>
    intro w hw
    rw [writes, hpair] at hw
    split at hw
    next heq => exact nomatch heq
    · exact nomatch hw
  | some pair =>
    apply h.oneOwner (z := .pair pair) _ _ nofun
    · intro w hw
      rw [writes, hpair] at hw
      split at hw
      next heq =>
        rw [← Option.some.inj heq] at hw
        exact zone_batchWrites w hw
      · exact nomatch hw
    · intro c hc heq
      have hfree := hinv.pair_free hpair c (mem_append_left _ hc)
      rw [Flight.zone] at heq
      split at heq
      · exact nomatch heq
      · have hp := Zone.pair.inj heq
        omega

theorem dmaInv_run {cmdPagesN : Nat} {controlSize : QueueSize} {cursorSize : Nat} {acts : List Act}
    (h : GpuRun (probe cmdPagesN controlSize cursorSize) acts g) : g.DmaInv :=
  h.invariant (fun _ _ _ hinv hs => hinv.step hs) ⟨nofun, nofun⟩

/-- In every state that is reached, a step of the driver leaves the memory of the device alone
exactly when a synchronous or cursor command finds the chains of its path returned. -/
theorem dma_one_owner_iff (cmdPagesN : Nat) (controlSize : QueueSize) (cursorSize : Nat)
    (acts : List Act) (g : Gpu) (h : GpuRun (probe cmdPagesN controlSize cursorSize) acts g)
    (a : Act) : g.OneOwner a ↔ g.PathReturned a := by
  have hdma := dmaInv_run h
  cases a with
  | command cmdLen outLen => exact hdma.command_iff cmdLen outLen
  | cursorCommand cmdLen => exact hdma.cursor_iff cmdLen
  | drainEnd => exact iff_of_true ((inv_run h).drainEnd_oneOwner hdma) trivial
  | complete | waitPoll | waitTimeout | begin | drainPoll | cursorComplete | cursorPoll
  | cursorTimeout => exact iff_of_true nofun trivial

/-- A command that completed in time leaves the next one nothing to disturb. -/
theorem dma_one_owner_in_time : ∃ g,
    GpuRun (probe 16 ⟨32, by decide⟩ 16)
      [.command 24 24, .complete ⟨0, 0, 0, commandBufs 24 24⟩, .waitPoll] g ∧
    g.OneOwner (.command 24 24) := by
  obtain ⟨g, hg, hdev⟩ : ∃ g, GpuRun (probe 16 ⟨32, by decide⟩ 16)
      [.command 24 24, .complete ⟨0, 0, 0, commandBufs 24 24⟩, .waitPoll] g ∧ g.device = [] :=
    ⟨_, .cons rfl (.cons rfl (.cons rfl (.nil _))), rfl⟩
  refine ⟨g, hg, (dma_one_owner_iff 16 ⟨32, by decide⟩ 16 _ g hg _).mpr ?_⟩
  intro _ c hc
  rw [hdev] at hc
  exact nomatch hc

/-- After a timeout the next command overwrites the command that the device still has. -/
theorem command_overwritten_after_timeout : ∃ g,
    GpuRun (probe 16 ⟨32, by decide⟩ 16) [.command 24 24, .waitTimeout] g ∧
      ¬ g.OneOwner (.command 24 24) := by
  refine ⟨_, .cons rfl (.cons rfl (.nil _)), ?_⟩
  intro h
  apply h ⟨.cmd 0, 0, 24⟩ (by decide) ⟨0, 0, 0, commandBufs 24 24⟩ (by decide) ⟨.cmd 0, 0, 24⟩
    (by decide)
  decide

end Gpu

end Kyuzen.Drivers
