import PandOSsh.Nucleus.CpuTime

/-!
# The order of the ready queue

The history of a run lists the ready processes in the order in which they
became ready. The ready queue is the stable order of this list by `p_prio`, and
`dispatch` takes its head. NSYS10 alone keeps the caller from being chosen: it
puts the old head back in front, and the `dispatch` that follows takes it.
-/

namespace PandOSsh.Nucleus
open Library

section Moves
variable {k k₁ k' : Kernel Lists} {key : Word} {p : Pcb}

theorem Dispatched.prio (h : Dispatched k k') : k'.prio = k.prio := by
  cases h <;> rfl

theorem Woken.prio {s : ProcessorState} (h : Woken key p s k k') : k'.prio = k.prio := by
  funext q
  unfold Kernel.prio
  rw [h.pcb]
  split
  · next hq => rw [hq]
  · rfl

theorem WokenAll.prio (h : WokenAll key k k') : k'.prio = k.prio := by
  induction h with
  | done => rfl
  | wake h _ _ ih => exact ih.trans h.prio

theorem Requeued.prio {t : Word} (h : Requeued p t k k') : k'.prio = k.prio := by
  funext q
  unfold Kernel.prio
  rw [h.pcb]
  split
  · next hq => rw [hq]
  · rfl

theorem Blocked.prio (h : Blocked key p k k') : k'.prio = k.prio := by
  funext q
  unfold Kernel.prio
  rw [h.pcb]
  split
  · next hq => rw [hq]
  · rfl

theorem Created.prio {a1 a2 a3 : Word} {c q : Pcb} (h : Created a1 a2 a3 p c k k')
    (hq : q ∉ k.lists.free) : k'.prio q = k.prio q := by
  have hqp : q ≠ p := fun he => hq (by simp [h.free, he])
  unfold Kernel.prio
  rw [h.pcb, if_neg hqp]

theorem Woken.ready {s : ProcessorState} (h : Woken key p s k k') :
    k'.lists.ready = insertBy k'.prio p k.lists.ready := by
  obtain ⟨v, hv, hl⟩ := h.queues
  rw [← hv.ready, hl]
  rfl

theorem Woken.waiters_eq {s : ProcessorState} (h : Woken key p s k k') :
    k.lists.waiters key = p :: k'.lists.waiters key := by
  obtain ⟨ps, hps⟩ := List.head?_eq_some_iff.mp h.head
  rw [h.waiters, if_pos rfl, hps, List.tail_cons]

theorem WokenAll.ready (h : WokenAll key k k') :
    k'.lists.ready = insertAllBy k'.prio (k.lists.waiters key) k.lists.ready := by
  induction h with
  | done h => rw [h]; rfl
  | wake h _ hr ih =>
      rw [ih, h.waiters_eq, h.ready, hr.prio]
      rfl

/-- `dispatch` has taken the head of the ready queue `mid`, or there is none. -/
inductive Selected (mid : List Pcb) (k' : Kernel Lists) : Prop
  | idle (hm : mid = []) (hr : k'.lists.ready = []) (hc : k'.cpu.isRunning = false)
  | load (p : Pcb) (hm : mid = p :: k'.lists.ready) (hp : k'.currProc = some p)
      (hc : k'.cpu = .run (k'.pcb p).pS)

theorem Dispatched.selected (h : Dispatched k k') : Selected k.lists.ready k' := by
  cases h with
  | idle h => exact .idle h h (idleCpu_isRunning k.toKernelData)
  | load p ps h => exact .load p h rfl rfl

theorem selected_of_dispatch (h : dispatch k = some k') :
    Selected k.lists.ready k' ∧ k'.prio = k.prio := by
  obtain ⟨k₁, hr, hd⟩ := dispatch_spec k
  rw [h, Option.some.injEq] at hr
  subst hr
  exact ⟨hd.selected, hd.prio⟩

end Moves

section Arrivals

/-- The processes that an action makes ready, in the order in which it does. -/
def becameReady [Layout] (a : Action) (d : KernelData) (qs : Queues) : List Pcb :=
  match a with
  | .plt | .yield => d.currProc.toList
  | .it => qs.waiters (deviceSemaphore nSuppSem) ++ d.currProc.toList
  | .device intLineNo =>
      ((served intLineNo d.dev).bind fun x => (qs.waiters (deviceSemaphore x.2.1)).head?).toList
  | .createProcess _ _ _ => qs.free.head?.toList
  | .verhogen a1 => (qs.waiters a1).head?.toList
  | _ => []

/-- The ready queue when the handler is through, just before `dispatch`. -/
def queueAfter (a : Action) (prio : Pcb → ℤ) (arrivals ready : List Pcb) : List Pcb :=
  if a = .yield then ready.take 1 ++ insertAllBy prio arrivals (ready.drop 1)
  else insertAllBy prio arrivals ready

/-- The processes among which `dispatch` chooses, in the order in which they
became ready: the yielder is one of them only when nobody else is ready. -/
def eligible (a : Action) (log arrivals : List Pcb) : List Pcb :=
  if a = .yield ∧ log ≠ [] then log else log ++ arrivals

/-- NSYS10 with others ready, or plain insertions. -/
theorem queueAfter_cases (a : Action) (prio : Pcb → ℤ) (arrivals ready : List Pcb) :
    (a = .yield ∧ ∃ c rs, ready = c :: rs) ∨ (¬ (a = .yield ∧ ready ≠ []) ∧
      queueAfter a prio arrivals ready = insertAllBy prio arrivals ready) := by
  unfold queueAfter
  by_cases ha : a = .yield
  · rw [if_pos ha]
    cases ready with
    | nil => exact .inr ⟨by simp, rfl⟩
    | cons c rs => exact .inl ⟨ha, c, rs, rfl⟩
  · rw [if_neg ha]
    exact .inr ⟨fun h => ha h.1, rfl⟩

end Arrivals

section Step
variable [Layout] {k k' : Kernel Lists} {a : Action} {log : List Pcb}

theorem Effect.prio (h : Effect a k k') {q : Pcb} (hq : q ∉ k.lists.free) :
    k'.prio q = k.prio q := by
  cases h with
  | plt h hd | yield h hd => rw [hd.prio, h.prio]
  | itIdle hc h hd => exact (congrFun hd.prio q).trans (congrFun h.prio q)
  | it h hr hd => exact (congrFun hd.prio q).trans ((congrFun hr.prio q).trans (congrFun h.prio q))
  | deviceNone h hr =>
      cases hr with
      | ldst => rfl
      | dispatch _ hd => rw [hd.prio]
  | device h hs hr =>
      have hsig : ∀ {k k₁ : Kernel Lists} {i : ℕ} {status : Word}, Signalled i status k k₁ →
          k₁.prio = k.prio := by
        intro k k₁ i status hs
        cases hs with
        | empty => rfl
        | wake h _ => exact h.prio
      cases hr with
      | ldst => exact congrFun (hsig hs) q
      | dispatch _ hd => exact (congrFun hd.prio q).trans (congrFun (hsig hs) q)
  | create h => exact h.prio hq
  | term hv h hd | die hc hn h hd =>
      rw [hd.prio]
      unfold Kernel.prio
      rw [h.pcb]
      split <;> rfl
  | passeren hv h hd | clockWait h hd => exact (congrFun hd.prio q).trans (congrFun h.prio q)
  | doio h hd => exact (congrFun hd.prio q).trans (congrFun h.prio q)
  | verhogen h hd => exact congrFun h.prio q
  | _ => rfl

/-- Where the handler has left the ready queue, and what `dispatch` has made of
it if it was called. -/
structure Rescheduled (a : Action) (k k' : Kernel Lists) : Prop where
  selected : takesCpu a k ∨ k.currProc = none → Selected (queueAfter a k'.prio
    (becameReady a k.toKernelData k.lists.queues) k.lists.ready) k'
  kept : ¬ (takesCpu a k ∨ k.currProc = none) → k'.currProc = k.currProc ∧
    k'.lists.ready = queueAfter a k'.prio (becameReady a k.toKernelData k.lists.queues)
      k.lists.ready

theorem Rescheduled.of_dispatch {mid : List Pcb} (hd : Selected mid k')
    (ha : takesCpu a k ∨ k.currProc = none) (hm : mid = queueAfter a k'.prio
      (becameReady a k.toKernelData k.lists.queues) k.lists.ready) : Rescheduled a k k' :=
  ⟨fun _ => hm ▸ hd, fun hn => absurd ha hn⟩

theorem Rescheduled.of_ldst {p : Pcb} (ha : ¬ takesCpu a k) (hp : k.currProc = some p)
    (hc : k'.currProc = k.currProc) (hm : k'.lists.ready = queueAfter a k'.prio
      (becameReady a k.toKernelData k.lists.queues) k.lists.ready) : Rescheduled a k k' := by
  constructor
  · intro hd
    rcases hd with ht | hn
    · exact absurd ht ha
    · rw [hp] at hn
      cases hn
  · exact fun _ => ⟨hc, hm⟩

theorem Resumed.rescheduled {k₁ : Kernel Lists} {n : ℕ} (h : Resumed k₁ k')
    (hc : k₁.currProc = k.currProc) (hm : k₁.lists.ready = queueAfter (.device n) k₁.prio
      (becameReady (.device n) k.toKernelData k.lists.queues) k.lists.ready) :
    Rescheduled (.device n) k k' := by
  cases h with
  | ldst p hp => exact .of_ldst id (hc.symm.trans hp) hc hm
  | dispatch hn hd =>
      refine .of_dispatch hd.selected (.inr (hc.symm.trans hn)) ?_
      rw [hm, hd.prio]

theorem Signalled.ready {i : ℕ} {status : Word} (h : Signalled i status k k') :
    k'.lists.ready = insertAllBy k'.prio (k.lists.waiters (deviceSemaphore i)).head?.toList
      k.lists.ready := by
  cases h with
  | empty h => rw [h]; rfl
  | wake h hd =>
      rw [h.head, h.ready]
      rfl

theorem perform_rescheduled (hw : WF k) (hv : victim a k = none) (hr : perform a k = some k')
    (hc : a.isDevice = false → ∃ p, k.currProc = some p) (h : Effect a k k') :
    Rescheduled a k k' := by
  cases h with
  | plt h hd =>
      obtain ⟨k₁, hrun, -, hready⟩ := pltInterruptHandler_spec hw h.curr
      have hsel := selected_of_dispatch (hrun.symm.trans hr)
      refine .of_dispatch hsel.1 (.inl trivial) ?_
      rw [hready, hsel.2, becameReady, h.curr]
      rfl
  | itIdle hn h hd =>
      refine .of_dispatch hd.selected (.inl trivial) ?_
      have hp := hd.prio
      have hready := h.ready
      rw [becameReady, hn, Option.toList_none, List.append_nil, hp, Lists.queues_waiters]
      exact hready
  | it h hq hd =>
      have hcurr := h.curr.symm.trans hq.curr
      obtain ⟨k₁, k₂, hrun, hall, hq', hready⟩ := itInterruptHandler_spec hw hcurr
      have hsel := selected_of_dispatch (hrun.symm.trans hr)
      refine .of_dispatch hsel.1 (.inl trivial) ?_
      have hp : k₂.prio = k₁.prio := hq'.prio
      rw [hready, hall.ready, hsel.2, becameReady, hcurr, hp, Lists.queues_waiters]
      simp only [queueAfter, insertAllBy, List.foldl_append]
      rfl
  | deviceNone h hr =>
      apply hr.rescheduled rfl
      rw [becameReady, h]
      rfl
  | device h hs hr =>
      have hready := hs.ready
      refine Resumed.rescheduled hr hs.clock.2.2 ?_
      rw [becameReady, h, hready]
      simp only [Option.bind_some, Lists.queues_waiters]
      rfl
  | createFull h =>
      obtain ⟨p, hp⟩ := hc rfl
      refine .of_ldst id hp rfl ?_
      rw [becameReady]
      simp only [Lists.queues, h]
      rfl
  | create h =>
      obtain ⟨k₁, hrun, hk₁, hready⟩ := nsys1_spec hw h.curr h.free
      have hk' := (congrArg (Option.map _) hrun).symm.trans hr
      rw [Option.map_some, Option.some.injEq] at hk'
      rw [← hk']
      refine .of_ldst id h.curr (congrArg KernelData.currProc hk₁.data :) ?_
      rw [becameReady]
      simp only [Lists.queues, h.free]
      exact hready
  | termUnknown ha h =>
      obtain ⟨p, hp⟩ := hc rfl
      exact .of_ldst id hp rfl rfl
  | term hvt h hd => exact absurd (hv.symm.trans (victim_term hvt)) (by simp)
  | die hc hn h hd => exact absurd hv (by simp [victim, hc, hn])
  | passUp hp hs => exact .of_ldst id hp rfl rfl
  | passerenTake hm =>
      obtain ⟨p, hp⟩ := hc rfl
      exact .of_ldst (not_not.mpr hm) hp rfl rfl
  | passeren hm h hd =>
      refine .of_dispatch hd.selected (.inl hm) ?_
      exact h.queues.ready
  | verhogenEmpty h =>
      obtain ⟨p, hp⟩ := hc rfl
      refine .of_ldst id hp rfl ?_
      rw [becameReady, Lists.queues_waiters, h]
      rfl
  | verhogen h hd =>
      obtain ⟨p, hp⟩ := hc rfl
      refine .of_ldst id hp h.curr ?_
      rw [becameReady, Lists.queues_waiters, h.head]
      exact h.ready
  | doio h hd =>
      refine .of_dispatch hd.selected (.inl trivial) ?_
      exact h.queues.ready
  | clockWait h hd =>
      refine .of_dispatch hd.selected (.inl trivial) ?_
      exact h.queues.ready
  | getTime hp => exact .of_ldst id hp rfl rfl
  | getSupportPtr hp => exact .of_ldst id hp rfl rfl
  | getProcessId w =>
      obtain ⟨p, hp⟩ := hc rfl
      exact .of_ldst id hp rfl rfl
  | yield h hd =>
      obtain ⟨k₁, hrun, -, hready⟩ := nsys10_spec hw h.curr
      have hsel := selected_of_dispatch (hrun.symm.trans hr)
      refine .of_dispatch hsel.1 (.inl trivial) ?_
      rw [hready, hsel.2, becameReady, h.curr]
      rfl

/-- What one entry leaves of the order: the new log, the choice of `dispatch`
and the order of those who stay ready. -/
structure InOrder (a : Action) (log arrivals : List Pcb) (k k' : Kernel Lists) : Prop where
  stable : Stable k'.prio ((log ++ arrivals).filter fun q => q ∈ k'.lists.ready) k'.lists.ready
  chosen : takesCpu a k ∨ k.currProc = none →
    (eligible a log arrivals = [] ∧ k'.cpu.isRunning = false) ∨
    ∃ p, IsFirst k'.prio p (eligible a log arrivals) ∧ k'.currProc = some p ∧
      k'.cpu = .run (k'.pcb p).pS
  kept : ¬ (takesCpu a k ∨ k.currProc = none) → k'.currProc = k.currProc
  order : (k.lists.ready.filter fun q => q ∈ k'.lists.ready).Sublist k'.lists.ready

/-- Without a yield to others the arrivals are simply inserted. -/
theorem Rescheduled.inOrder_plain (h : Rescheduled a k k')
    (hrun : ∀ p, k'.currProc = some p → p ∉ k'.lists.ready) (arrivals : List Pcb)
    (hs : Stable k'.prio log k.lists.ready) (ha : ¬ (a = .yield ∧ k.lists.ready ≠ []))
    (hq : queueAfter a k'.prio arrivals k.lists.ready = insertAllBy k'.prio arrivals k.lists.ready)
    (harr : becameReady a k.toKernelData k.lists.queues = arrivals) :
    InOrder a log arrivals k k' := by
  have hel : eligible a log arrivals = log ++ arrivals := by
    apply if_neg
    rintro ⟨hy, hlog⟩
    apply ha ⟨hy, ?_⟩
    intro hr
    obtain ⟨q, hm⟩ := List.exists_mem_of_ne_nil log hlog
    rw [← hs.mem_iff, hr] at hm
    cases hm
  have hins := hs.insertAllBy arrivals
  have hsub : k.lists.ready.Sublist (insertAllBy k'.prio arrivals k.lists.ready) :=
    sublist_insertAllBy
  have hsel := h.selected
  have hkept := h.kept
  rw [harr, hq] at hsel hkept
  by_cases hd : takesCpu a k ∨ k.currProc = none
  · cases hsel hd with
    | idle hm hr hc =>
        rw [hm] at hins hsub
        have hnil : log ++ arrivals = [] := by
          apply List.eq_nil_iff_forall_not_mem.mpr
          intro q hq
          rw [← hins.mem_iff] at hq
          cases hq
        constructor
        · rw [hnil, hr]
          exact .nil
        · exact fun _ => .inl ⟨hel.trans hnil, hc⟩
        · exact fun hn => absurd hd hn
        · rw [List.sublist_nil.mp hsub]
          exact List.nil_sublist _
    | load p hm hp hc =>
        rw [hm] at hins hsub
        constructor
        · exact hins.tail (hrun p hp)
        · intro _
          rw [hel]
          exact .inr ⟨p, hins.isFirst, hp, hc⟩
        · exact fun hn => absurd hd hn
        · have hfilter := hsub.filter fun q => q ∈ k'.lists.ready
          have hself : k'.lists.ready.filter (fun q => q ∈ k'.lists.ready) = k'.lists.ready :=
            List.filter_eq_self.mpr (by simp)
          rwa [List.filter_cons_of_neg (by simpa using hrun p hp), hself] at hfilter
  · obtain ⟨hc, hr⟩ := hkept hd
    rw [← hr] at hins hsub
    have hall : (log ++ arrivals).filter (fun q => q ∈ k'.lists.ready) = log ++ arrivals :=
      List.filter_eq_self.mpr fun q hq => decide_eq_true (hins.mem_iff.mpr hq)
    constructor
    · rwa [hall]
    · exact fun hd' => absurd hd' hd
    · exact fun _ => hc
    · exact (List.filter_sublist (p := fun q => decide (q ∈ k'.lists.ready))).trans hsub

/-- NSYS10 with others ready: the old head runs and the caller joins the rest. -/
theorem Rescheduled.inOrder_yield {c : Pcb} {rs : List Pcb} (h : Rescheduled .yield k k')
    (hw : WF k) (hrun : ∀ p, k'.currProc = some p → p ∉ k'.lists.ready)
    (hs : Stable k'.prio log k.lists.ready) (hr : k.lists.ready = c :: rs) :
    InOrder .yield log k.currProc.toList k k' := by
  have hsel : Selected (c :: insertAllBy k'.prio k.currProc.toList rs) k' := by
    have hsel := h.selected (.inl trivial)
    rwa [hr] at hsel
  rw [hr] at hs
  have hlog : log ≠ [] := List.ne_nil_of_mem (hs.mem_iff.mp List.mem_cons_self)
  cases hsel with
  | idle hm => cases hm
  | load p hm hp hc =>
      obtain ⟨rfl, hready⟩ := List.cons.inj hm
      have hcr : c ∉ insertAllBy k'.prio k.currProc.toList rs := hready ▸ hrun c hp
      have hcrs : c ∉ rs := fun hm => hcr (mem_insertAllBy.mpr (.inr hm))
      have hins := (hs.tail hcrs).insertAllBy k.currProc.toList
      -- the caller was not in the ready queue
      have hlogged : log.filter (fun q => q ∈ k'.lists.ready) = log.filter fun q => q ∈ rs := by
        apply List.filter_congr
        intro q hq
        have hqr : q ∈ k.lists.ready := hr ▸ hs.mem_iff.mpr hq
        have hqc : q ∉ k.currProc.toList := by
          intro hm
          exact hw.not_queued (Option.mem_toList.mp hm) (by simp [Lists.queued, hqr])
        rw [← hready]
        simp [mem_insertAllBy, hqc]
      have hall : k.currProc.toList.filter (fun q => q ∈ k'.lists.ready) = k.currProc.toList := by
        apply List.filter_eq_self.mpr
        intro q hq
        rw [← hready]
        simpa [mem_insertAllBy] using Or.inl (Option.mem_toList.mp hq)
      constructor
      · rw [List.filter_append, hlogged, hall, ← hready]
        exact hins
      · intro _
        have hel : eligible .yield log k.currProc.toList = log := if_pos ⟨rfl, hlog⟩
        rw [hel]
        exact .inr ⟨c, hs.isFirst, hp, hc⟩
      · exact fun hn => absurd (.inl trivial) hn
      · rw [hr, List.filter_cons_of_neg (by simpa using hrun c hp), ← hready]
        exact List.filter_sublist.trans sublist_insertAllBy

theorem Rescheduled.inOrder (h : Rescheduled a k k') (hw : WF k) (hw' : WF k')
    (hs : Stable k'.prio log k.lists.ready) :
    InOrder a log (becameReady a k.toKernelData k.lists.queues) k k' := by
  have hrun : ∀ p, k'.currProc = some p → p ∉ k'.lists.ready := by
    intro p hp hm
    exact hw'.not_queued hp (by simp [Lists.queued, hm])
  rcases queueAfter_cases a k'.prio (becameReady a k.toKernelData k.lists.queues) k.lists.ready
    with ⟨rfl, c, rs, hr⟩ | ⟨ha, hq⟩
  · exact h.inOrder_yield hw hrun hs hr
  · exact h.inOrder_plain hrun _ hs ha hq rfl

end Step

section Log
variable [Layout]

/-- The ready processes in the order in which they became ready. -/
def updateReadyLog {Q : Type} (walk : Store Q → Option Queues) (k : Kernel Q) (e : Entry)
    (k' : Kernel Q) (log : List Pcb) : List Pcb :=
  (log ++ ((walk k.store).map (becameReady (action e) (prepared e k).toKernelData)).getD []).filter
    fun q => q ∈ ((walk k'.store).map Queues.ready).getD []

/-- A run with the log of its ready processes. -/
def withReadyLog {Q : Type} (walk : Store Q → Option Queues) (S : System (Kernel Q) Entry) :
    System (Kernel Q × List Pcb) Entry := S.withHistory (fun _ => []) (updateReadyLog walk)

def listWalk (s : Store Lists) : Option Queues := some s.lists.queues

omit [Layout] in
theorem unkilled_byPlace (l : Kernel Lists) (e : Entry) (h : Unkilled l e) : KillsByPlace l e :=
  .of_victim h

omit [Layout] in
/-- After NSYS10 the old head of the ready queue runs, or else the caller. -/
theorem InOrder.yielded {k k' : Kernel Lists} {log : List Pcb} {p : Pcb}
    (h : InOrder .yield log k.currProc.toList k k') (hp : k.currProc = some p)
    (hs : Stable k'.prio log k.lists.ready) :
    k'.currProc = k.lists.ready.head?.or k.currProc := by
  have hchosen := h.chosen (.inl trivial)
  cases hr : k.lists.ready with
  | nil =>
      rw [hr] at hs
      have hlog : log = [] := List.eq_nil_iff_forall_not_mem.mpr fun q hq => by
        rw [← hs.mem_iff] at hq
        cases hq
      subst hlog
      rw [hp] at hchosen ⊢
      rcases hchosen with ⟨hnil, -⟩ | ⟨q, hq, hc, -⟩
      · exact absurd hnil (by simp [eligible])
      · obtain ⟨before, after, hlog, -, -⟩ := hq
        have hm : q ∈ eligible .yield [] (some p).toList := by
          rw [hlog]
          simp
        have hqp : q = p := by simpa [eligible] using hm
        rw [hc, hqp]
        rfl
  | cons c rs =>
      rw [hr] at hs
      have hlog : log ≠ [] := List.ne_nil_of_mem (hs.mem_iff.mp List.mem_cons_self)
      have hel : eligible .yield log k.currProc.toList = log := if_pos ⟨rfl, hlog⟩
      rw [hel] at hchosen
      rcases hchosen with ⟨hnil, -⟩ | ⟨q, hq, hc, -⟩
      · exact absurd hnil hlog
      · rw [hc, hq.unique hs.isFirst]
        rfl

/-- One step of a run without kills, on lists. -/
theorem inOrder_step {k k' : Kernel Lists} {e : Entry} {log : List Pcb} (h : Sound k)
    (hs : Stable k.prio log k.lists.ready)
    (hstep : ((nucleus Lists).restrict Unkilled).step k e k') : InOrder (action e) log
      (becameReady (action e) (prepared e k).toKernelData k.lists.queues) (prepared e k) k' ∧
      Stable k'.prio log k.lists.ready := by
  obtain ⟨he, hsound⟩ := step_effect unkilled_byPlace h hstep
  have hw : WF (prepared e k) := h.wf.data rfl rfl
  have hperform : perform (action e) (prepared e k) = some k' := by
    rw [← kernelEntry_eq]
    exact hstep.2.2
  have hprio : Stable k'.prio log k.lists.ready := by
    apply hs.congr
    intro q hq
    have hready : q ∈ k.lists.ready := hs.mem_iff.mpr hq
    exact (he.prio (h.wf.held_not_free (.inr (.inl hready)))).symm
  have hcurr : (action e).isDevice = false → ∃ p, (prepared e k).currProc = some p :=
    h.current hstep.2.1
  have hre := perform_rescheduled hw hstep.1 hperform hcurr he
  exact ⟨hre.inOrder hw hsound.wf hprio, hprio⟩

theorem stable_of_reachable {x : Kernel Lists × List Pcb} (h : (withReadyLog listWalk
    ((nucleus Lists).restrict Unkilled)).Reachable x) : Stable x.1.prio x.2 x.1.lists.ready := by
  refine h.invariant (I := fun x => Stable x.1.prio x.2 x.1.lists.ready) ?_ ?_
  · intro x hx
    obtain ⟨b, hb⟩ := init_booted hx.1
    rw [hx.2, hb.ready]
    exact .nil
  · intro x e x' hr hi hs
    rw [hs.2]
    exact (inOrder_step (sound_of_reachable unkilled_byPlace hr.fst) hi hs.1).1.stable

theorem readyLog_refines : (withReadyLog Pointer.queues ((nucleus Pointers).restrict
    Unkilled)).Refines (withReadyLog listWalk ((nucleus Lists).restrict Unkilled))
    (fun x y => KernelRel x.1 y.1 ∧ x.2 = y.2) := by
  refine (nucleus_refines unkilled_byPlace fun _ _ _ hr hl hc => hc.lists hr hl.wf).withHistory
    (fun _ _ => rfl) fun {s t e s' t' log} _ hr hr' => ?_
  have hd : (prepared e s).toKernelData = (prepared e t).toKernelData := (enter_refines _ hr).data
  rw [updateReadyLog, updateReadyLog, hd, hr.store.queues, hr'.store.queues]
  rfl

end Log

section Order
variable [Layout] {k : Kernel Pointers} {log : List Pcb}

/-- The ready queue is in non-increasing order of `p_prio`, and where that is
equal in the order of the log. -/
def ReadyInOrder (k : Kernel Pointers) (log : List Pcb) : Prop :=
  ∃ ready, QueueApi.ready k.store = some ready ∧ Stable k.prio log ready

/-- What one entry does to the order. `dispatch` is called when the entry takes
the CPU or finds it idle, and chooses the first process of the highest priority
among those eligible, with the priorities of `k'`. After NSYS10 that is the old
head of the ready queue, or the yielder if there is none. -/
structure Schedules (e : Entry) (log : List Pcb) (k k' : Kernel Pointers) : Prop where
  chosen : takesCpu (action e) (prepared e k) ∨ k.currProc = none →
    ∃ qs, Pointer.queues k.store = some qs ∧
      let pool := eligible (action e) log
        (becameReady (action e) (prepared e k).toKernelData qs)
      (pool = [] ∧ k'.cpu.isRunning = false) ∨
        ∃ p, IsFirst k'.prio p pool ∧ k'.currProc = some p ∧ k'.cpu = .run (k'.pcb p).pS
  yielded : action e = .yield → ∀ ready, QueueApi.ready k.store = some ready →
    k'.currProc = ready.head?.or k.currProc
  kept : ¬ (takesCpu (action e) (prepared e k) ∨ k.currProc = none) → k'.currProc = k.currProc
  order : ∃ ready ready', QueueApi.ready k.store = some ready ∧
    QueueApi.ready k'.store = some ready' ∧ (ready.filter fun q => q ∈ ready').Sublist ready'

/-- An entry on pointers does what the same entry does on lists. -/
theorem Schedules.of_lists {l l' : Kernel Lists} {k' : Kernel Pointers} {e : Entry}
    (hr : KernelRel k l) (hr' : KernelRel k' l') (h : InOrder (action e) log
      (becameReady (action e) (prepared e l).toKernelData l.lists.queues) (prepared e l) l')
    (hy : action e = .yield → l'.currProc = l.lists.ready.head?.or l.currProc) :
    Schedules e log k k' := by
  have hd : (prepared e k).toKernelData = (prepared e l).toKernelData := (enter_refines _ hr).data
  have htakes : takesCpu (action e) (prepared e k) ↔ takesCpu (action e) (prepared e l) := by
    unfold takesCpu
    rw [hd]
  have hc : k.currProc = l.currProc := congrArg KernelData.currProc hr.data
  have hc' : k'.currProc = l'.currProc := congrArg KernelData.currProc hr'.data
  have hcpu : k'.cpu = l'.cpu := congrArg KernelData.cpu hr'.data
  constructor
  · intro hdis
    rw [htakes, hc] at hdis
    refine ⟨_, hr.store.queues, ?_⟩
    rw [hd, hr'.prio_eq, hc', hcpu, hr'.pcb_eq]
    exact h.chosen hdis
  · intro ha ready hready
    have hlist : some l.lists.ready = some ready := hr.store.ready.symm.trans hready
    rw [hc', hc, ← Option.some.inj hlist]
    exact hy ha
  · rw [htakes, hc, hc']
    exact h.kept
  · exact ⟨_, _, hr.store.ready, hr'.store.ready, h.order⟩

theorem scheduling_order (h : (withReadyLog Pointer.queues ((nucleus Pointers).restrict
    Unkilled)).Reachable (k, log)) : ReadyInOrder k log ∧ ∀ e, Possible k e → Unkilled k e →
      ∃ k', kernelEntry e k = some k' ∧ Schedules e log k k' := by
  obtain ⟨⟨l, _⟩, hl, hr, rfl⟩ := readyLog_refines.reachable h
  have hs : Stable l.prio log l.lists.ready := stable_of_reachable hl
  have hsound : Sound l := sound_of_reachable unkilled_byPlace hl.fst
  constructor
  · refine ⟨_, hr.store.ready, ?_⟩
    rw [hr.prio_eq]
    exact hs
  · intro e hp hu
    have hu' : Unkilled l e := hu.lists hr hsound.wf
    obtain ⟨l', hl', -⟩ := kernelEntry_spec hsound (hp.lists hr) (unkilled_byPlace l e hu')
    obtain ⟨k', hk', hr'⟩ := kernelEntry_refines e hr l' hl'
    obtain ⟨hin, hst⟩ := inOrder_step hsound hs ⟨hu', hp.lists hr, hl'⟩
    refine ⟨k', hk', .of_lists hr hr' hin fun ha => ?_⟩
    obtain ⟨p, hp⟩ := hsound.current (hp.lists hr) (by rw [ha]; rfl)
    rw [ha] at hin
    exact hin.yielded hp hst

end Order

section Concrete

theorem scheduling_order_run : ∃ k log, bareRun (fun _ e => killFree (action e))
    [request 0 createProcess 0, request 0 createProcess 0, request 0 yield 0,
      request 0 clockWait 0, tick 0] = some k ∧ ReadyInOrder k log := by
  let := ramLayout
  obtain ⟨k, hk⟩ := Option.isSome_iff_exists.mp (show (bareRun
    (fun _ e => killFree (action e))
    [request 0 createProcess 0, request 0 createProcess 0, request 0 yield 0,
      request 0 clockWait 0, tick 0]).isSome = true by decide +kernel)
  have hreach : ((nucleus Pointers).restrict Unkilled).Reachable k :=
    bareRun_restrict (fun _ _ hP => unkilled_of_killFree hP) hk
  obtain ⟨log, hlog⟩ := hreach.exists_history
  exact ⟨k, log, hk, (scheduling_order hlog).1⟩

end Concrete
end PandOSsh.Nucleus
