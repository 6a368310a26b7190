import PandOSsh.Nucleus.Machine

/-!
# The first run of a process

A process that NSYS1 has created stays in the ready queue until the scheduler selects
it or a kill takes it. Nothing that the others do in the meantime changes its PCB, so
it starts with the processor state that NSYS1 was given, whatever has been written
over that state since.
-/

namespace PandOSsh.Nucleus
open Library

/-- The fields of a PCB less `p_parent`, which the death of the parent clears. -/
def orphan (f : PcbFields) : PcbFields := { f with pParent := none }

/-- The processes that have not had the CPU yet, with what NSYS1 has put in their PCBs. -/
abbrev Births := Pcb → Option PcbFields

/-- What NSYS1 puts in the PCB that it takes from the free list. -/
def newProcess {Q : Type} (a : Action) (k : Kernel Q) (qs : Queues) (q : Pcb) : Option PcbFields :=
  match a with
  | .createProcess a1 a2 a3 =>
      if qs.free.head? = some q then
        some { pParent := none, pS := k.states a1, pTime := 0, pSemAdd := null,
               pSupportStruct := a3, pPrio := a2.toInt, pPid := k.store.nextPid }
      else none
  | _ => none

section Waiting
variable [Layout] {k k₁ k' : Kernel Lists} {a : Action} {q : Pcb} {f : PcbFields}

/-- What an entry may do to a process that is ready. -/
structure Outcome (q : Pcb) (k k' : Kernel Lists) : Prop where
  pcb : orphan (k'.pcb q) = orphan (k.pcb q)
  place : q ∈ k'.lists.ready ∨ (k'.currProc = some q ∧ k'.cpu = .run (k'.pcb q).pS) ∨
    q ∈ k'.lists.free

omit [Layout] in
theorem Dispatched.outcome (hd : Dispatched k₁ k') (hp : orphan (k₁.pcb q) = orphan (k.pcb q))
    (hq : q ∈ k₁.lists.ready ∨ q ∈ k₁.lists.free) : Outcome q k k' := by
  cases hd with
  | idle hn =>
      refine ⟨hp, .inr (.inr (hq.resolve_left fun hr => ?_))⟩
      rw [hn] at hr
      cases hr
  | load p ps hready =>
      refine ⟨hp, ?_⟩
      rcases hq with hr | hf
      · rw [hready] at hr
        rcases List.mem_cons.mp hr with rfl | hm
        · exact .inr (.inl ⟨rfl, rfl⟩)
        · exact .inl hm
      · exact .inr (.inr hf)

omit [Layout] in
theorem Resumed.outcome (h : Resumed k₁ k') (hp : orphan (k₁.pcb q) = orphan (k.pcb q))
    (hq : q ∈ k₁.lists.ready) : Outcome q k k' := by
  cases h with
  | ldst => exact ⟨hp, .inl hq⟩
  | dispatch _ hd => exact hd.outcome hp (.inl hq)

theorem Killed.outcome {p : Pcb} {D : Finset Pcb} (h : Killed p D k k₁) (hd : Dispatched k₁ k')
    (hq : q ∈ k.lists.ready) : Outcome q k k' := by
  refine hd.outcome ?_ ?_
  · rw [h.pcb]
    split <;> rfl
  · by_cases hD : q ∈ D
    · exact .inr (h.mem_free.mpr (.inl hD))
    · rw [h.ready]
      exact .inl (List.mem_filter.mpr ⟨hq, decide_eq_true hD⟩)

/-- A ready process that nothing happens to. -/
structure Keeps (q : Pcb) (k k₁ : Kernel Lists) : Prop where
  pcb : k₁.pcb q = k.pcb q
  ready : q ∈ k₁.lists.ready

omit [Layout] in
theorem WF.ready_ne {p : Pcb} (hw : WF k) (hc : k.currProc = some p) (hq : q ∈ k.lists.ready) :
    q ≠ p := by
  rintro rfl
  exact hw.not_queued hc (by simp [Lists.queued, hq])

omit [Layout] in
/-- The current process joins the queue of a semaphore. -/
theorem Blocked.keeps {key : Word} {p : Pcb} (h : Blocked key p k k₁) (hw : WF k)
    (hq : q ∈ k.lists.ready) : Keeps q k k₁ := by
  constructor
  · rw [h.pcb, if_neg (hw.ready_ne h.curr hq)]
  · rw [h.queues.ready]
    exact hq

omit [Layout] in
/-- The current process goes back to the ready queue. -/
theorem Requeued.keeps {p : Pcb} {t : Word} (h : Requeued p t k k₁) (hw : WF k)
    (hq : q ∈ k.lists.ready) : Keeps q k k₁ := by
  constructor
  · rw [h.pcb, if_neg (hw.ready_ne h.curr hq)]
  · exact h.ready.mem_iff.mpr (List.mem_cons_of_mem p hq)

omit [Layout] in
/-- Who is woken was blocked. -/
theorem Woken.keeps {key : Word} {p : Pcb} {s : ProcessorState} (h : Woken key p s k k₁)
    (hw : WF k) (hq : q ∈ k.lists.ready) : Keeps q k k₁ := by
  have hne : q ≠ p := by
    rintro rfl
    have hb : q ∈ k.lists.blocked :=
      hw.active.mem_blocked.mpr ⟨key, List.mem_of_mem_head? h.head⟩
    have hp := hw.places q
    have hr := List.count_pos_iff.mpr hq
    have hb' := List.count_pos_iff.mpr hb
    rw [Kernel.places] at hp
    omega
  constructor
  · rw [h.pcb, if_neg hne]
  · rw [h.ready]
    exact mem_insertBy.mpr (.inr hq)

omit [Layout] in
theorem WokenAll.keeps {key : Word} (h : WokenAll key k k₁) (hq : q ∈ k.lists.ready) :
    Keeps q k k₁ := by
  constructor
  · rw [h.pcb]
  · rw [h.ready]
    exact mem_insertAllBy.mpr (.inr hq)

theorem Signalled.keeps {i : ℕ} {status : Word} (h : Signalled i status k k₁) (hw : WF k)
    (hq : q ∈ k.lists.ready) : Keeps q k k₁ := by
  cases h with
  | empty => exact ⟨rfl, hq⟩
  | wake h _ => exact h.keeps hw hq

omit [Layout] in
theorem Created.keeps {a1 a2 a3 : Word} {p c : Pcb} (h : Created a1 a2 a3 p c k k₁) (hw : WF k)
    (hq : q ∈ k.lists.ready) : Keeps q k k₁ := by
  have hne : q ≠ p := by
    rintro rfl
    exact hw.held_not_free (.inr (.inl hq)) (by simp [h.free])
  constructor
  · rw [h.pcb, if_neg hne]
  · exact h.ready.mem_iff.mpr (List.mem_cons_of_mem p hq)

/-- Only `dispatch` and a kill take a process out of the ready queue. -/
theorem Effect.outcome (h : Effect a k k') (hw : WF k) (hq : q ∈ k.lists.ready) :
    Outcome q k k' := by
  cases h with
  | plt h hd | yield h hd =>
      obtain ⟨hp, hr⟩ := h.keeps hw hq
      exact hd.outcome (congrArg orphan hp) (.inl hr)
  | itIdle _ h hd =>
      obtain ⟨hp, hr⟩ := h.keeps hq
      exact hd.outcome (congrArg orphan hp) (.inl hr)
  | @it _ k₁ _ _ _ h hreq hd =>
      obtain ⟨hp₁, hr₁⟩ := h.keeps hq
      have hw₁ : WF (k₁.setMem (deviceSemaphore nSuppSem) 0) := (h.wf hw).data rfl rfl
      obtain ⟨hp₂, hr₂⟩ := hreq.keeps hw₁ hr₁
      exact hd.outcome (congrArg orphan (hp₂.trans hp₁)) (.inl hr₂)
  | deviceNone _ hr => exact hr.outcome rfl hq
  | device _ hs hr =>
      obtain ⟨hp, hm⟩ := hs.keeps (hw.data rfl rfl) hq
      exact hr.outcome (congrArg orphan hp) hm
  | create h =>
      obtain ⟨hp, hr⟩ := h.keeps hw hq
      exact ⟨congrArg orphan hp, .inl hr⟩
  | term _ h hd | die _ _ h hd => exact h.outcome hd hq
  | passeren _ h hd =>
      obtain ⟨hp, hr⟩ := h.keeps hw hq
      exact hd.outcome (congrArg orphan hp) (.inl hr)
  | verhogen h _ =>
      obtain ⟨hp, hr⟩ := h.keeps hw hq
      exact ⟨congrArg orphan hp, .inl hr⟩
  | doio h hd | clockWait h hd =>
      obtain ⟨hp, hr⟩ := h.keeps (hw.data rfl rfl) hq
      exact hd.outcome (congrArg orphan hp) (.inl hr)
  | _ => exact ⟨rfl, .inl hq⟩

omit [Layout] in
theorem newProcess_free {Q : Type} {k : Kernel Q} {qs : Queues}
    (hn : newProcess a k qs q = some f) : q ∈ qs.free := by
  cases a with
  | createProcess a1 a2 a3 =>
      exact List.mem_of_mem_head? (Option.ite_none_right_eq_some.mp hn).1
  | _ => cases hn

/-- NSYS1 fills the PCB that it has taken and makes it ready. -/
theorem Effect.newProcess (h : Effect a k k') (hn : newProcess a k k.lists.queues q = some f) :
    orphan (k'.pcb q) = f ∧ q ∈ k'.lists.ready := by
  cases h with
  | createFull hf =>
      have hq : k.lists.free.head? = some q := (Option.ite_none_right_eq_some.mp hn).1
      rw [hf] at hq
      cases hq
  | create h =>
      obtain ⟨hq, hf⟩ := Option.ite_none_right_eq_some.mp hn
      have hqp : k.lists.free.head? = some q := hq
      rw [h.free, List.head?_cons, Option.some.injEq] at hqp
      rw [Option.some.injEq] at hf
      subst hqp hf
      exact ⟨congrArg orphan ((h.pcb _).trans (if_pos rfl)),
        h.ready.mem_iff.mpr List.mem_cons_self⟩
  | _ => cases hn

end Waiting

section History
variable [Layout]

def updateBirths {Q : Type} (walk : Store Q → Option Queues) (k : Kernel Q) (e : Entry)
    (k' : Kernel Q) (births : Births) : Births := fun q =>
  if q ∈ ((walk k'.store).map Queues.ready).getD [] then
    ((walk k.store).bind fun qs => newProcess (action e) (prepared e k) qs q).or (births q)
  else none

/-- A run with the processes that wait for their first turn. -/
def withBirths {Q : Type} [QueueApi Q] (walk : Store Q → Option Queues)
    (S : System (Kernel Q) Entry) : System (Kernel Q × Births) Entry :=
  S.withHistory (fun _ _ => none) (updateBirths walk)

theorem updateBirths_of_ready {l l' : Kernel Lists} {e : Entry} {births : Births} {q : Pcb}
    (hq : q ∈ l'.lists.ready) : updateBirths listWalk l e l' births q =
      (newProcess (action e) (prepared e l) l.lists.queues q).or (births q) := if_pos hq

structure Unstarted (l : Kernel Lists) (births : Births) : Prop where
  ready : ∀ q f, births q = some f → q ∈ l.lists.ready
  pcb : ∀ q f, births q = some f → orphan (l.pcb q) = f

theorem Unstarted.step {l l' : Kernel Lists} {e : Entry} {births : Births}
    (h : Unstarted l births) (hl : Sound l)
    (hstep : ((nucleus Lists).restrict KillsByPlace).step l e l') :
    Unstarted l' (updateBirths listWalk l e l' births) := by
  obtain ⟨he, -⟩ := step_effect (fun _ _ h => h) hl hstep
  have hw : WF (prepared e l) := hl.wf.data rfl rfl
  have hcases : ∀ q f, updateBirths listWalk l e l' births q = some f → q ∈ l'.lists.ready ∧
      (newProcess (action e) (prepared e l) l.lists.queues q = some f ∨ births q = some f) := by
    intro q f hq
    obtain ⟨hr, hf⟩ := Option.ite_none_right_eq_some.mp hq
    exact ⟨hr, (Option.or_eq_some_iff.mp hf).imp_right And.right⟩
  refine ⟨fun q f hq => (hcases q f hq).1, fun q f hq => ?_⟩
  rcases (hcases q f hq).2 with hnew | hold
  · exact (he.newProcess hnew).1
  · exact (he.outcome hw (h.ready q f hold)).pcb.trans (h.pcb q f hold)

theorem unstarted {x : Kernel Lists × Births} (h : (withBirths listWalk
    ((nucleus Lists).restrict KillsByPlace)).Reachable x) : Unstarted x.1 x.2 := by
  refine h.invariant (I := fun x => Unstarted x.1 x.2) (fun x hx => ?_) fun x e x' hr hi hs => ?_
  · rw [hx.2]
    constructor
    · intro q f hq
      cases hq
    · intro q f hq
      cases hq
  · rw [hs.2]
    exact hi.step (sound_of_reachable (fun _ _ h => h) hr.fst) hs.1

omit [Layout] in
theorem newProcess_eq {k : Kernel Pointers} {l : Kernel Lists} (h : KernelRel k l) (a : Action) :
    newProcess a k = newProcess a l := by
  have hpid : k.store.nextPid = l.store.nextPid := congrArg PcbData.nextPid h.store.data
  funext qs q
  unfold newProcess
  rw [congrArg KernelData.states h.data, hpid]

theorem updateBirths_eq {k k' : Kernel Pointers} {l l' : Kernel Lists} (h : KernelRel k l)
    (h' : KernelRel k' l') (e : Entry) (births : Births) :
    updateBirths Pointer.queues k e k' births = updateBirths listWalk l e l' births := by
  have hprep : KernelRel (prepared e k) (prepared e l) := enter_refines _ h
  unfold updateBirths
  rw [h.store.queues, h'.store.queues, newProcess_eq hprep]
  rfl

theorem births_refines : (withBirths Pointer.queues ((nucleus Pointers).restrict
    KillsByPlace)).Refines (withBirths listWalk ((nucleus Lists).restrict KillsByPlace))
    (fun x y => KernelRel x.1 y.1 ∧ x.2 = y.2) := by
  exact (nucleus_refines (fun _ _ h => h) fun _ _ _ hr _ hc => hc.lists hr).withHistory
    (fun _ _ => rfl) fun _ hr hr' => updateBirths_eq hr hr' _ _

/-- What an entry does to the processes that have not had the CPU: the one that NSYS1 creates
joins them, and each of the others stays, is given the CPU with the state of its birth, or
is killed. -/
structure Turn (e : Entry) (k k' : Kernel Pointers) (births births' : Births) : Prop where
  born : ∀ qs q f, Pointer.queues k.store = some qs →
    newProcess (action e) (prepared e k) qs q = some f → births' q = some f
  waits : ∀ q f, births q = some f → births' q = some f ∨
    (k'.currProc = some q ∧ k'.cpu = .run f.pS) ∨
      ∃ qs, Pointer.queues k'.store = some qs ∧ q ∈ qs.free

/-- Until it has the CPU a process is ready and is as NSYS1 has made it. -/
structure StartsAsCreated (k : Kernel Pointers) (births : Births) : Prop where
  ready : ∃ ready, QueueApi.ready k.store = some ready ∧ ∀ q f, births q = some f → q ∈ ready
  pcb : ∀ q f, births q = some f → orphan (k.pcb q) = f
  turn : ∀ e, Possible k e → KillsByPlace k e → WaitsAlone k e →
    ∃ k', kernelEntry e k = some k' ∧
      Turn e k k' births (updateBirths Pointer.queues k e k' births)

theorem starts_as_created {k : Kernel Pointers} {births : Births} (h : (withBirths Pointer.queues
    ((nucleus Pointers).restrict fun k e => KillsByPlace k e ∧ WaitsAlone k e)).Reachable
      (k, births)) : StartsAsCreated k births := by
  obtain ⟨⟨l, _⟩, hl, hr, rfl⟩ := births_refines.reachable (h.history_mono fun _ _ h => h.1)
  have hu : Unstarted l births := unstarted hl
  have hsound : Sound l := sound_of_reachable (fun _ _ h => h) hl.fst
  refine ⟨⟨_, hr.store.ready, hu.ready⟩, fun q f hq => ?_, fun e hp hc _ => ?_⟩
  · exact (congrArg orphan (hr.pcb q)).trans (hu.pcb q f hq)
  obtain ⟨l', hl', he⟩ := kernelEntry_spec hsound (hp.lists hr) (hc.lists hr)
  obtain ⟨k', hk', hr'⟩ := kernelEntry_refines e hr l' hl'
  refine ⟨k', hk', ?_⟩
  rw [updateBirths_eq hr hr']
  constructor
  · intro qs q f hqs hn
    rw [hr.store.queues, Option.some.injEq] at hqs
    have hprep : KernelRel (prepared e k) (prepared e l) := enter_refines _ hr
    rw [← hqs, newProcess_eq hprep] at hn
    rw [updateBirths_of_ready (he.newProcess hn).2]
    exact Option.or_eq_some_iff.mpr (.inl hn)
  · intro q f hq
    have hready := hu.ready q f hq
    obtain ⟨hpcb, hplace⟩ := he.outcome (hsound.wf.data rfl rfl) hready
    rcases hplace with hstay | ⟨hcurr, hcpu⟩ | hfree
    · left
      have hold : newProcess (action e) (prepared e l) l.lists.queues q = none := by
        by_contra hne
        obtain ⟨g, hg⟩ := Option.ne_none_iff_exists'.mp hne
        exact hsound.wf.held_not_free (.inr (.inl hready)) (newProcess_free hg)
      rw [updateBirths_of_ready hstay, hold, Option.none_or, hq]
    · right; left
      have hpS : (orphan (l'.pcb q)).pS = f.pS := by rw [hpcb.trans (hu.pcb q f hq)]
      refine ⟨(congrArg KernelData.currProc hr'.data).trans hcurr, ?_⟩
      rw [congrArg KernelData.cpu hr'.data, hcpu, ← hpS]
      rfl
    · exact .inr (.inr ⟨_, hr'.store.queues, hfree⟩)

end History

/-- A kill takes two of four processes, then two more are created. -/
theorem starts_as_created_run : ∃ k births, bareRun (fun k _ => tidy k)
    (killEvents (request 0 clockWait 0) ++ [request 0 createProcess 0,
      request 0 createProcess 0]) = some k ∧ @StartsAsCreated ramLayout k births := by
  obtain ⟨k, hk⟩ := Option.isSome_iff_exists.mp (show (bareRun (fun k _ => tidy k)
    (killEvents (request 0 clockWait 0) ++ [request 0 createProcess 0,
      request 0 createProcess 0])).isSome = true by decide +kernel)
  have hreach : ((@nucleus ramLayout Pointers _).restrict fun k e =>
      KillsByPlace k e ∧ WaitsAlone k e).Reachable k :=
    bareRun_restrict (fun _ _ => byPlace_of_tidy) hk
  obtain ⟨births, hb⟩ := hreach.exists_history
  exact ⟨k, births, hk, @starts_as_created ramLayout k births hb⟩

end PandOSsh.Nucleus
