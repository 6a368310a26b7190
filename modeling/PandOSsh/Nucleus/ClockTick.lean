import PandOSsh.Nucleus.Scheduling
import PandOSsh.Nucleus.Waiting

/-!
# The pseudo-clock

What a tick of the Interval Timer has done when it calls `dispatch`: the loop of
`itInterruptHandler` has emptied the queue of the pseudo-clock semaphore into the
ready queue, and the interrupted process stands behind all others.
-/

namespace PandOSsh.Nucleus
open Library

section Tick
variable {Q : Type} [QueueApi Q] [Layout]

/-- `itInterruptHandler` up to its call of `dispatch`. -/
def untilDispatch (k : Kernel Q) : Option (Kernel Q) :=
  (wakeAll pseudoClockSem (maxProc + 1) k).bind fun k =>
    let k := k.setMem pseudoClockSem 0
    k.currProc.elim (some k) fun p => preempt p k

theorem itInterruptHandler_eq (k : Kernel Q) :
    itInterruptHandler k = (untilDispatch k).bind dispatch := by
  rw [itInterruptHandler, untilDispatch, Option.bind_assoc]
  apply congrArg
  funext k₁
  change Option.bind _ dispatch = Option.bind (Option.elim (k₁.setMem pseudoClockSem 0).currProc _ _) _
  cases h : (k₁.setMem pseudoClockSem 0).currProc with
  | none =>
      have h' : (k₁.setMem (deviceSemaphore nSuppSem) 0).currProc = none := h
      simp only [h']
      rfl
  | some p =>
      have h' : (k₁.setMem (deviceSemaphore nSuppSem) 0).currProc = some p := h
      simp only [h']
      rfl

end Tick

section Lists
variable {k k₁ k' : Kernel Lists} {key a : Word} {q : Pcb}

theorem WokenAll.pcb (h : WokenAll key k k') : k'.pcb = k.pcb := by
  induction h with
  | done => rfl
  | wake h _ _ ih =>
      rw [ih]
      funext q
      rw [h.pcb]
      split
      · next hq => rw [hq]
      · rfl

theorem WokenAll.waiters (h : WokenAll key k k') :
    k'.lists.waiters a = if a = key then [] else k.lists.waiters a := by
  induction h with
  | done h =>
      split
      · next ha => rw [ha, h]
      · rfl
  | wake h _ _ ih =>
      rw [ih]
      split
      · rfl
      · next ha => rw [h.waiters, if_neg ha]

theorem WokenAll.data (h : WokenAll key k k') : k'.toKernelData = { k.toKernelData with
    softBlockCount := k.softBlockCount - (k.lists.waiters key).length } := by
  induction h with
  | done h => rw [h, List.length_nil, Nat.cast_zero, sub_zero]
  | wake h hd _ ih =>
      rw [ih, hd, h.waiters_eq, List.length_cons, Nat.cast_add_one, add_comm, ← sub_sub]

/-- The process has gone to the ready queue, but is still the current one. -/
theorem preempt_eq {p : Pcb} (hw : WF k) (hc : k.currProc = some p) :
    preempt p k = some ((k.saveState p).setLists
      { k.lists with ready := insertBy k.prio p k.lists.ready }) := by
  have hprio : (k.saveState p).prio = k.prio := by
    funext q
    unfold Kernel.prio Kernel.saveState
    rw [Kernel.setPcb_pcb]
    split
    · next hq => rw [hq]
    · rfl
  rw [preempt, ← hprio]
  exact congrArg (Option.map _) (insertProcQ_spec (s := (k.saveState p).store) (hw.not_queued hc))

/-- The state at the call of `dispatch`, on lists. -/
structure TickedLists [Layout] (k k₁ : Kernel Lists) : Prop where
  ready : k₁.lists.ready = insertAllBy k₁.prio
    (k.lists.waiters pseudoClockSem ++ k.currProc.toList) k.lists.ready
  prio : k₁.prio = k.prio
  softBlockCount : k₁.softBlockCount =
    k.softBlockCount - (k.lists.waiters pseudoClockSem).length
  semaphore : k₁.mem pseudoClockSem = 0
  active : k₁.lists.Active
  waiters : ∀ a, k₁.lists.waiters a = if a = pseudoClockSem then [] else k.lists.waiters a
  free : k₁.lists.free = k.lists.free
  pcb : ∀ q, k₁.pcb q = if k.currProc = some q then { k.pcb q with pS := k.exc } else k.pcb q

theorem untilDispatch_spec [Layout] (hw : WF k) :
    ∃ k₁, untilDispatch k = some k₁ ∧ TickedLists k k₁ := by
  have hlen : (k.lists.waiters pseudoClockSem).length < maxProc + 1 := waiters_length hw
  obtain ⟨k₁, hrun, hall⟩ := wakeAll_spec hw hlen
  let k₂ := k₁.setMem pseudoClockSem 0
  have hw₂ : WF k₂ := (hall.wf hw).congr rfl rfl fun _ => ⟨rfl, rfl⟩
  have hmem : k₂.mem pseudoClockSem = 0 := Function.update_self ..
  have hcurr : k₂.currProc = k.currProc := hall.curr
  have hsoft := congrArg KernelData.softBlockCount hall.data
  have hexc : k₂.exc = k.exc := (congrArg KernelData.exc hall.data :)
  have hpcb : k₂.pcb = k.pcb := hall.pcb
  rw [untilDispatch, hrun, Option.bind_some]
  change ∃ k₃, Option.elim k₂.currProc (some k₂) (fun p => preempt p k₂) = some k₃ ∧ _
  rw [hcurr]
  cases hp : k.currProc with
  | none =>
      refine ⟨k₂, rfl, ?_⟩
      constructor
      · rw [hp, Option.toList_none, List.append_nil]
        exact hall.ready
      · exact hall.prio
      · exact hsoft
      · exact hmem
      · exact hw₂.active
      · exact fun a => hall.waiters
      · exact hall.free
      · intro q
        rw [hp, if_neg (by simp), hpcb]
  | some p =>
      refine ⟨_, preempt_eq hw₂ (hcurr.trans hp), ?_⟩
      have hprio : ((k₂.saveState p).setLists
          { k₂.lists with ready := insertBy k₂.prio p k₂.lists.ready }).prio = k₁.prio := by
        funext q
        change (((k₂.saveState p).pcb q).pPrio : ℤ) = (k₁.pcb q).pPrio
        rw [Kernel.saveState, Kernel.setPcb_pcb]
        split
        · next hq => rw [hq]; rfl
        · rfl
      constructor
      · rw [hp, Option.toList_some, insertAllBy, List.foldl_append, hprio]
        exact congrArg (insertBy k₁.prio p) hall.ready
      · exact hprio.trans hall.prio
      · exact hsoft
      · exact hmem
      · exact hw₂.active.congr rfl rfl
      · exact fun a => hall.waiters
      · exact hall.free
      · intro q
        change (k₂.saveState p).pcb q = _
        rw [Kernel.saveState, Kernel.setPcb_pcb, hpcb, hexc, hp]
        by_cases hqp : q = p
        · rw [if_pos hqp, hqp, if_pos rfl]
        · rw [if_neg hqp, if_neg fun he => hqp (Option.some.inj he).symm]

end Lists

section Pointers
variable {k k₁ : Kernel Pointers} {l l₁ : Kernel Lists}

theorem untilDispatch_refines [Layout] (h : KernelRel k l) :
    Simulates KernelRel (untilDispatch k) (untilDispatch l) := by
  apply Simulates.bind (wakeAll_refines _ _ h)
  intro k l h
  have h1 := h.setMem pseudoClockSem 0
  have hc : (k.setMem pseudoClockSem 0).currProc = (l.setMem pseudoClockSem 0).currProc :=
    congrArg KernelData.currProc h1.data
  dsimp only
  rw [hc]
  cases (l.setMem pseudoClockSem 0).currProc with
  | none => exact .pure h1
  | some p => exact preempt_refines p h1

/-- From the entry `k` to the call of `dispatch` in `k₁`, with the queues that a walk over
the pointers finds before and after. -/
structure Ticked [Layout] (k k₁ : Kernel Pointers) (qs qs' : Queues) : Prop where
  /-- The old ready queue, then the waiters, then the interrupted process: the new ready
  queue is the stable order of these. -/
  order : Stable k₁.prio
    (qs.ready ++ (qs.waiters pseudoClockSem ++ k.currProc.toList)) qs'.ready
  once : qs'.ready.Nodup ∧
    qs'.ready.Perm (qs.ready ++ (qs.waiters pseudoClockSem ++ k.currProc.toList))
  softBlockCount : k₁.softBlockCount =
    k.softBlockCount - (qs.waiters pseudoClockSem).length
  semaphore : k₁.mem pseudoClockSem = 0
  freed : pseudoClockSem ∉ qs'.asl.map Prod.fst ∧
    ∃ active free, Pointer.members .semdH Link.ofSLink k₁.store = some active ∧
      Pointer.members .semdFreeH Link.ofSLink k₁.store = some free ∧
      (active ++ free).Perm (List.finRange maxProc) ∧
      active.map k₁.store.lists.sKey = qs'.asl.map Prod.fst
  elsewhere : qs'.free = qs.free ∧ ∀ a, a ≠ pseudoClockSem → qs'.waiters a = qs.waiters a
  pcb : ∀ q, k₁.pcb q = if k.currProc = some q then { k.pcb q with pS := k.exc } else k.pcb q

theorem insertAllBy_perm {α β : Type*} [LinearOrder β] (f : α → β) (xs l : List α) :
    (insertAllBy f xs l).Perm (l ++ xs) := by
  induction xs generalizing l with
  | nil => rw [List.append_nil]; rfl
  | cons x xs ih =>
      have hx : (insertBy f x l ++ xs).Perm (x :: l ++ xs) := insertBy_perm.append_right xs
      exact (ih (insertBy f x l)).trans (hx.trans List.perm_middle.symm)

theorem TickedLists.pointers [Layout] (h : TickedLists l l₁) (hw : WF l) (hr : KernelRel k l)
    (hr₁ : KernelRel k₁ l₁) (hs : l.lists.ready.Pairwise fun p q => l.prio q ≤ l.prio p) :
    Ticked k k₁ l.lists.queues l₁.lists.queues := by
  have hc : k.currProc = l.currProc := congrArg KernelData.currProc hr.data
  have hq := l.lists.queues_waiters
  have hready := h.ready
  have hkeys : (l₁.lists.asl.map Desc.semd).map k₁.store.lists.sKey =
      l₁.lists.queues.asl.map Prod.fst := by
    rw [Lists.queues, List.map_map, List.map_map]
    exact List.map_congr_left fun d hd => hr₁.store.lists.keys d hd
  have hperm : l₁.lists.ready.Perm
      (l.lists.ready ++ (l.lists.waiters pseudoClockSem ++ l.currProc.toList)) := by
    rw [hready]
    exact insertAllBy_perm _ _ _
  constructor
  · rw [hr₁.prio_eq, hc, hq]
    change Stable l₁.prio _ l₁.lists.ready
    rw [hready, h.prio]
    exact Stable.insertAllBy ⟨hs, fun _ => rfl⟩ _
  · rw [hc, hq]
    refine ⟨?_, hperm⟩
    change l₁.lists.ready.Nodup
    rw [hperm.nodup_iff, List.nodup_iff_count_le_one]
    intro q
    have hp := hw.places q
    have hle : (l.lists.waiters pseudoClockSem).count q ≤ l.lists.blocked.count q :=
      count_waiters_le hw q
    rw [List.count_append, List.count_append]
    simp only [Kernel.places] at hp
    omega
  · rw [hq, congrArg KernelData.softBlockCount hr₁.data, h.softBlockCount,
      congrArg KernelData.softBlockCount hr.data]
  · exact (congrArg (fun d => d.mem pseudoClockSem) hr₁.data).trans h.semaphore
  · constructor
    · rw [Lists.queues, List.map_map]
      intro hm
      obtain ⟨d, hd, he⟩ := List.mem_map.mp hm
      have he' : d.key = pseudoClockSem := he
      have hnone := h.waiters pseudoClockSem
      rw [if_pos rfl, ← he', h.active.waiters_mem hd] at hnone
      exact h.active.nonempty d hd hnone
    · exact ⟨_, _, hr₁.store.semds, hr₁.store.members_nodup (a := .semdFreeH) rfl (fun _ => rfl),
        h.active.semds_perm, hkeys⟩
  · refine ⟨h.free, fun a ha => ?_⟩
    rw [hq, Lists.queues_waiters, h.waiters, if_neg ha]
  · intro q
    rw [hr₁.pcb_eq, hr.pcb_eq, hc, congrArg KernelData.exc hr.data]
    exact h.pcb q

end Pointers

section Ticks
variable [Layout] {k : Kernel Pointers} {e : Entry}

/-- Every tick in a run without kills comes to its call of `dispatch`, with all waiters on
the pseudo-clock woken and nobody else. -/
theorem tick_wakes_waiters (h : ((nucleus Pointers).restrict Unkilled).Reachable k)
    (ha : action e = .it) :
    ∃ k₁ qs qs', kernelEntry e k = dispatch k₁ ∧ Pointer.queues k.store = some qs ∧
      Pointer.queues k₁.store = some qs' ∧ Ticked (prepared e k) k₁ qs qs' := by
  obtain ⟨log, hlog⟩ := h.exists_history
  obtain ⟨⟨l, _⟩, hl, hr, -⟩ := readyLog_refines.reachable hlog
  have hsound : Sound l := sound_of_reachable unkilled_byPlace hl.fst
  have hw : WF (prepared e l) := hsound.wf.data rfl rfl
  have hpre : KernelRel (prepared e k) (prepared e l) := enter_refines _ hr
  obtain ⟨l₁, hl₁, hticked⟩ := untilDispatch_spec hw
  obtain ⟨k₁, hk₁, hr₁⟩ := untilDispatch_refines hpre l₁ hl₁
  refine ⟨k₁, _, _, ?_, hr.store.queues, hr₁.store.queues, ?_⟩
  · rw [kernelEntry_eq, ha]
    exact (itInterruptHandler_eq _).trans (by rw [hk₁]; rfl)
  · exact hticked.pointers hw hpre hr₁ (stable_of_reachable hl).sorted

end Ticks

section Concrete

/-- Whether a walk over the pointers finds somebody in the queue of the pseudo-clock. -/
def clockAwaited (k : Kernel Pointers) : Bool :=
  letI := ramLayout
  (Pointer.queues k.store).any fun qs => (qs.waiters pseudoClockSem).length = 1

/-- The tick that interrupts a process while another one waits for it. -/
theorem tick_wakes_waiters_run : letI := ramLayout
    ∃ k k₁ qs qs', bareRun (fun _ e => killFree (action e))
      [request 0 createProcess 0, request 0 clockWait 0] = some k ∧
      (qs.waiters pseudoClockSem).length = 1 ∧ Ticked (prepared (tick 0) k) k₁ qs qs' := by
  let := ramLayout
  have hrun : (bareRun (fun _ e => killFree (action e))
      [request 0 createProcess 0, request 0 clockWait 0]).any clockAwaited = true := by
    decide +kernel
  obtain ⟨k, hk, hawaited⟩ := Option.any_eq_true _ _ |>.mp hrun
  have hreach : ((nucleus Pointers).restrict Unkilled).Reachable k :=
    bareRun_restrict (fun _ _ hP => unkilled_of_killFree hP) hk
  obtain ⟨k₁, qs, qs', -, hqs, -, hticked⟩ := tick_wakes_waiters hreach (e := tick 0) (by decide)
  rw [clockAwaited, hqs, Option.any_some, decide_eq_true_eq] at hawaited
  exact ⟨k, k₁, qs, qs', hk, hawaited, hticked⟩

end Concrete
end PandOSsh.Nucleus
