import PandOSsh.Nucleus.Places

/-!
# The order of waiting

One entry appends the process it blocks to the queue of its semaphore and takes
others out, and leaves the order of the rest. So the queues are what a log of
the arrivals says, with those left out who no longer wait.
-/

namespace PandOSsh.Nucleus
open Library

section Kept
variable {k k₁ k' : Kernel Lists} {key : Word} {p : Pcb} {x : Option (Word × Pcb)}

/-- The processes of a log that came for `key`. -/
def cameFor (key : Word) (log : List (Word × Pcb)) : List Pcb :=
  (log.filter fun x => x.1 = key).map Prod.snd

theorem cameFor_append (key : Word) (l₁ l₂ : List (Word × Pcb)) :
    cameFor key (l₁ ++ l₂) = cameFor key l₁ ++ cameFor key l₂ := by
  rw [cameFor, List.filter_append, List.map_append]
  rfl

theorem cameFor_filter (key : Word) (f : Pcb → Bool) (log : List (Word × Pcb)) :
    cameFor key (log.filter fun x => f x.2) = (cameFor key log).filter f := by
  rw [cameFor, cameFor, List.filter_map, List.filter_filter, List.filter_filter]
  congr 1
  exact List.filter_congr fun x _ => Bool.and_comm _ _

theorem cameFor_toList (key a : Word) (o : Option Pcb) :
    cameFor key (o.map fun p => (a, p)).toList = if a = key then o.toList else [] := by
  cases o with
  | none => simp [cameFor]
  | some p => by_cases ha : a = key <;> simp [cameFor, ha]

/-- The queues of `k'` are those of `k`, with the arrival `x`, less those who do
not wait any more. -/
def Kept (x : Option (Word × Pcb)) (k k' : Kernel Lists) : Prop :=
  ∀ key, k'.lists.waiters key =
    (k.lists.waiters key ++ cameFor key x.toList).filter fun q => q ∈ k'.lists.blocked

theorem Kept.of_eq (ha : k'.lists.Active) (h : ∀ key, k'.lists.waiters key =
    k.lists.waiters key ++ cameFor key x.toList) : Kept x k k' := by
  intro key
  rw [← h, List.filter_eq_self.mpr]
  exact fun q hq => decide_eq_true (ha.mem_blocked.mpr ⟨key, hq⟩)

theorem Kept.congr (h : Kept x k k₁) (ha : k'.lists.asl = k₁.lists.asl) : Kept x k k' := by
  intro key
  have hw : k'.lists.waiters key = k₁.lists.waiters key := by
    rw [Lists.waiters_def, Lists.waiters_def, ha]
  have hb : k'.lists.blocked = k₁.lists.blocked := congrArg (List.flatMap Desc.procq) ha
  rw [hw, hb]
  exact h key

theorem Kept.refl (hw : WF k) : Kept none k k :=
  .of_eq hw.active fun _ => (List.append_nil _).symm

/-- The current process does not enter any queue by itself. -/
theorem Kept.absent (hw : WF k) (key : Word) : Kept (k.currProc.map fun p => (key, p)) k k := by
  intro a
  have hnone : (cameFor a (k.currProc.map fun p => (key, p)).toList).filter
      (fun q => q ∈ k.lists.blocked) = [] := by
    rw [List.filter_eq_nil_iff, cameFor_toList]
    intro q hq hb
    split at hq
    · exact hw.not_blocked (Option.mem_toList.mp hq) (of_decide_eq_true hb)
    · exact absurd hq List.not_mem_nil
  rw [List.filter_append, hnone, List.append_nil]
  exact (Kept.refl hw a).trans (congrArg _ (List.append_nil _))

theorem Dispatched.asl (h : Dispatched k k') : k'.lists.asl = k.lists.asl := by
  cases h <;> rfl

theorem Requeued.asl {t : Word} (h : Requeued p t k k') : k'.lists.asl = k.lists.asl := by
  rw [h.frame]

theorem Resumed.asl (h : Resumed k k') : k'.lists.asl = k.lists.asl := by
  cases h with
  | ldst => rfl
  | dispatch _ hd => exact hd.asl

theorem Blocked.kept (h : Blocked key p k k') : Kept (some (key, p)) k k' := by
  refine .of_eq h.queues.active fun a => ?_
  rw [h.queues.waiters]
  by_cases ha : a = key
  · simp [ha, cameFor]
  · have hne : key ≠ a := fun he => ha he.symm
    simp [ha, hne, cameFor]

theorem Woken.kept {s : ProcessorState} (h : Woken key p s k k') (hw : WF k) :
    Kept none k k' := by
  intro a
  have ha := (h.wf hw).active
  have hmem : ∀ q ∈ k'.lists.waiters a, decide (q ∈ k'.lists.blocked) = true := fun q hq =>
    decide_eq_true (ha.mem_blocked.mpr ⟨a, hq⟩)
  rw [show cameFor a (none : Option (Word × Pcb)).toList = [] from rfl, List.append_nil]
  by_cases hkey : a = key
  · obtain ⟨ps, hps⟩ := List.head?_eq_some_iff.mp h.head
    rw [h.waiters, if_pos hkey, hps, List.tail_cons] at hmem ⊢
    rw [hkey, hps, List.filter_cons_of_neg (by simpa using h.not_blocked hw),
      List.filter_eq_self.mpr hmem]
  · rw [h.waiters, if_neg hkey] at hmem ⊢
    rw [List.filter_eq_self.mpr hmem]

theorem Woken.blocked_subset {s : ProcessorState} (h : Woken key p s k k') :
    k'.lists.blocked ⊆ k.lists.blocked := by
  obtain ⟨v, hv, hl⟩ := h.queues
  have hb' : k'.lists.blocked = v.blocked := by rw [hl]; rfl
  intro q hq
  rw [hv.blocked.mem_iff]
  exact List.mem_cons_of_mem p (hb' ▸ hq)

theorem WokenAll.blocked_subset (h : WokenAll key k k') : k'.lists.blocked ⊆ k.lists.blocked := by
  induction h with
  | done => exact List.Subset.refl _
  | wake h _ _ ih => exact List.Subset.trans ih h.blocked_subset

theorem WokenAll.kept (h : WokenAll key k k') (hw : WF k) : Kept none k k' := by
  induction h with
  | done => exact .refl hw
  | wake h _ hr ih =>
      intro a
      have hsub := hr.blocked_subset
      rw [ih (h.wf hw) a, h.kept hw a]
      simp only [show cameFor a (none : Option (Word × Pcb)).toList = [] from rfl,
        List.append_nil, List.filter_filter]
      refine List.filter_congr fun q _ => ?_
      rw [← Bool.decide_and, decide_eq_decide]
      exact and_iff_left_of_imp fun hq => hsub hq

theorem Created.kept {a1 a2 a3 : Word} {c : Pcb} (h : Created a1 a2 a3 p c k k') (hw : WF k) :
    Kept none k k' := (Kept.refl hw).congr h.asl.1

variable [Layout]

theorem Signalled.kept {i : ℕ} {status : Word} (h : Signalled i status k k') (hw : WF k) :
    Kept none k k' := by
  cases h with
  | empty => exact (Kept.refl hw).congr rfl
  | wake h _ => exact h.kept hw

theorem Killed.kept {D : Finset Pcb} (h : Killed p D k k') (hw : WF k) : Kept none k k' := by
  intro a
  rw [show cameFor a (none : Option (Word × Pcb)).toList = [] from rfl, List.append_nil,
    h.waiters]
  refine List.filter_congr fun q hq => ?_
  have hb := hw.active.mem_blocked.mpr ⟨a, hq⟩
  by_cases hD : q ∈ D <;> simp [h.mem_blocked, hD, hb]

/-- The process that an action has wait, with its semaphore. NSYS3 may let it
go on at once. -/
def entered (a : Action) (d : KernelData) : Option (Word × Pcb) :=
  match a with
  | .passeren a1 => d.currProc.map fun p => (a1, p)
  | .doio a1 _ => d.currProc.map fun p => (deviceSemaphore (semIndex a1), p)
  | .clockWait => d.currProc.map fun p => (pseudoClockSem, p)
  | _ => none

section Entered
variable (d : KernelData) (a1 a2 : Word)

theorem entered_passeren : entered (.passeren a1) d = d.currProc.map fun p => (a1, p) := rfl

theorem entered_doio : entered (.doio a1 a2) d =
    d.currProc.map fun p => (deviceSemaphore (semIndex a1), p) := rfl

theorem entered_clockWait : entered .clockWait d =
    d.currProc.map fun p => (pseudoClockSem, p) := rfl

end Entered

theorem Effect.kept {a : Action} (h : Effect a k k') (hw : WF k) :
    Kept (entered a k.toKernelData) k k' := by
  cases h with
  | plt h hd | yield h hd => exact (Kept.refl hw).congr (hd.asl.trans h.asl)
  | itIdle hc h hd => exact (h.kept hw).congr hd.asl
  | it h hr hd => exact (h.kept hw).congr (hd.asl.trans hr.asl)
  | deviceNone h hr => exact (Kept.refl hw).congr hr.asl
  | device h hs hr => exact (hs.kept (hw.data rfl rfl)).congr hr.asl
  | create h => exact h.kept hw
  | term hv h hd => exact (h.kept hw).congr hd.asl
  | die hc hn h hd => exact (h.kept hw).congr hd.asl
  | passerenTake hv => exact (Kept.absent hw _).congr rfl
  | passeren hv h hd =>
      rw [entered_passeren, h.curr]
      exact h.kept.congr hd.asl
  | verhogen h hd => exact h.kept hw
  | doio h hd =>
      have hc : k.currProc = some _ := h.curr
      rw [entered_doio, hc]
      exact h.kept.congr hd.asl
  | clockWait h hd =>
      have hc : k.currProc = some _ := h.curr
      rw [entered_clockWait, hc]
      exact h.kept.congr hd.asl
  | _ => exact (Kept.refl hw).congr rfl

end Kept

section Log
variable [Layout]

/-- The log of those who wait, in the order in which they came. What counts as
an arrival is a parameter. -/
def updateLog {Q : Type} [QueueApi Q] (arrival : Action → KernelData → Option (Word × Pcb))
    (k : Kernel Q) (e : Entry) (k' : Kernel Q) (log : List (Word × Pcb)) : List (Word × Pcb) :=
  (log ++ (arrival (action e) (prepared e k).toKernelData).toList).filter fun x =>
    x.2 ∈ (QueueApi.blocked k'.store).getD []

def withLog {Q : Type} [QueueApi Q] (arrival : Action → KernelData → Option (Word × Pcb))
    (S : System (Kernel Q) Entry) : System (Kernel Q × List (Word × Pcb)) Entry :=
  S.withHistory (fun _ => []) (updateLog arrival)

variable {arrival : Action → KernelData → Option (Word × Pcb)}

/-- When all arrivals on `key` are logged under `name`, and no others are, the
log is the queue. -/
theorem waiters_eq_cameFor {C : Kernel Lists → Entry → Prop} {key name : Word}
    (hkill : ∀ l e, C l e → KillsByPlace l e)
    (hname : ∀ l e, C l e → cameFor key (entered (action e) (prepared e l).toKernelData).toList =
      cameFor name (arrival (action e) (prepared e l).toKernelData).toList)
    {x : Kernel Lists × List (Word × Pcb)}
    (h : (withLog arrival ((nucleus Lists).restrict C)).Reachable x) :
    x.1.lists.waiters key = cameFor name x.2 := by
  refine h.invariant (I := fun x => x.1.lists.waiters key = cameFor name x.2) ?_ ?_
  · intro x hx
    obtain ⟨b, hb⟩ := init_booted hx.1
    rw [hx.2, Lists.waiters_def, hb.asl.1]
    rfl
  · intro x e x' hr hi hs
    have hsound := sound_of_reachable hkill hr.fst
    have he := (step_effect hkill hsound hs.1).1
    have hkept := he.kept (hsound.wf.data rfl rfl) key
    have hlog := cameFor_filter name (fun q => decide (q ∈ x'.1.lists.blocked))
      (x.2 ++ (arrival (action e) (prepared e x.1).toKernelData).toList)
    rw [cameFor_append, ← hi, ← hname x.1 e hs.1.1] at hlog
    exact hkept.trans (hlog.symm.trans (congrArg (cameFor name) hs.2.symm))

/-- The logs on pointers are those on lists. -/
theorem log_refines {C : Kernel Pointers → Entry → Prop} {C' : Kernel Lists → Entry → Prop}
    (hkill : ∀ l e, C' l e → KillsByPlace l e)
    (hC : ∀ k l e, KernelRel k l → Sound l → C k e → C' l e) :
    (withLog arrival ((nucleus Pointers).restrict C)).Refines
      (withLog arrival ((nucleus Lists).restrict C'))
      (fun x y => KernelRel x.1 y.1 ∧ x.2 = y.2) := by
  refine (nucleus_refines hkill hC).withHistory (fun _ _ => rfl) fun {s t e s' t' log} _ hr hr' => ?_
  have hd : (prepared e s).toKernelData = (prepared e t).toKernelData := (enter_refines _ hr).data
  rw [updateLog, updateLog, hd, hr'.store.blocked]

end Log
end PandOSsh.Nucleus
