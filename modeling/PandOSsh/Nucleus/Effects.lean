import PandOSsh.Nucleus.Actions
import PandOSsh.Nucleus.Lookup

/-!
# Everything one kernel entry can do, on lists

`Effect a k k'` has one constructor for each way in which the handler of the
action `a` ends. From a well-formed state every possible entry has an effect,
and every effect keeps the state well formed; the invariants of the later
modules are proved by cases on it.
-/

namespace PandOSsh.Nucleus
open Library
variable [Layout] {k k' k₁ : Kernel Lists} {p : Pcb}

/-- The end of the device interrupts. -/
inductive Resumed (k : Kernel Lists) : Kernel Lists → Prop
  | ldst (p : Pcb) (hc : k.currProc = some p) : Resumed k k.ldst
  | dispatch {k' : Kernel Lists} (hc : k.currProc = none) (hd : Dispatched k k') : Resumed k k'

omit [Layout] in
theorem resume_spec (k : Kernel Lists) : ∃ k', resume k = some k' ∧ Resumed k k' := by
  cases hc : k.currProc with
  | none =>
      obtain ⟨k', hr, hd⟩ := dispatch_spec k
      exact ⟨k', by rw [resume, hc]; exact hr, .dispatch hc hd⟩
  | some p => exact ⟨k.ldst, by rw [resume, hc], .ldst p hc⟩

omit [Layout] in
theorem Resumed.wf (h : Resumed k k') (hw : WF k) : WF k' := by
  cases h with
  | ldst p hc => exact hw.data rfl rfl
  | dispatch hc hd => exact hd.wf hw

/-- V on the device semaphore `i`. -/
inductive Signalled (i : ℕ) (status : Word) (k : Kernel Lists) : Kernel Lists → Prop
  | empty (h : k.lists.waiters (deviceSemaphore i) = []) :
      Signalled i status k (k.setMem (deviceSemaphore i) (k.mem (deviceSemaphore i) + 1))
  | wake {k' : Kernel Lists} {p : Pcb}
      (h : Woken (deviceSemaphore i) p ((k.pcb p).pS.setA0 status) k k')
      (hd : k'.toKernelData = { k.toKernelData with softBlockCount := k.softBlockCount - 1 }) :
      Signalled i status k k'

theorem signal_spec (hw : WF k) (i : ℕ) (status : Word) :
    ∃ k', signal i status k = some k' ∧ Signalled i status k k' := by
  cases h : k.lists.waiters (deviceSemaphore i) with
  | nil => exact ⟨_, signal_empty hw h, .empty h⟩
  | cons p ps =>
      obtain ⟨k', hr, hk, hd⟩ := signal_wake hw h
      exact ⟨k', hr, .wake hk hd⟩

theorem Signalled.wf {i : ℕ} {status : Word} (h : Signalled i status k k') (hw : WF k) :
    WF k' := by
  cases h with
  | empty h => exact hw.data rfl rfl
  | wake h hd => exact h.wf hw

/-- What the device interrupt on a line serves: the command register to
acknowledge, the semaphore and the status. -/
def served (intLineNo : ℕ) (devs : Word → Word) : Option (Word × ℕ × Word) :=
  (devNo (devs (bitmapAddr intLineNo))).bind fun dev =>
    let devAddr := devAddr intLineNo dev
    let semaphoreIdx := (intLineNo - 3) * 8 + dev
    if intLineNo = 7 then
      if statusCode (devs (devAddr + 8)) = okCharTrans then
        some (devAddr + 0xC, semaphoreIdx + 8, devs (devAddr + 8))
      else if statusCode (devs devAddr) = charRecv then
        some (devAddr + 4, semaphoreIdx, devs devAddr)
      else none
    else some (devAddr + 4, semaphoreIdx, devs devAddr)

theorem deviceInterruptHandler_eq {Q : Type} [QueueApi Q] (intLineNo : ℕ) (k : Kernel Q) :
    deviceInterruptHandler intLineNo k =
      match served intLineNo k.dev with
      | none => resume k
      | some (ackAddr, i, status) => (signal i status (k.setDev ackAddr ack)).bind resume := by
  rw [deviceInterruptHandler, served]
  cases devNo (k.dev (bitmapAddr intLineNo)) with
  | none => rfl
  | some dev =>
      simp only [Option.bind_some]
      by_cases h7 : intLineNo = 7
      · simp only [if_pos h7]
        by_cases ht : statusCode (k.dev (devAddr intLineNo dev + 8)) = okCharTrans
        · simp only [if_pos ht]
        · simp only [if_neg ht]
          by_cases hr : statusCode (k.dev (devAddr intLineNo dev)) = charRecv
          · simp only [if_pos hr]
          · simp only [if_neg hr]
      · simp only [if_neg h7]

section Timers

omit [Layout] in
theorem pltInterruptHandler_spec (hw : WF k) (hc : k.currProc = some p) :
    ∃ k', pltInterruptHandler k = dispatch k' ∧
      Requeued p ((k.pcb p).pTime + (k.now - k.todStart)) k k' ∧
      k'.lists.ready = insertBy k'.prio p k.lists.ready := by
  obtain ⟨k', hr, hq⟩ := preempt_spec hw hc ((k.pcb p).pTime + (k.now - k.todStart))
  refine ⟨k', ?_, hq⟩
  rw [pltInterruptHandler, hc, ← hr]
  rfl

theorem itInterruptHandler_idle (hw : WF k) (hc : k.currProc = none) :
    ∃ k₁, itInterruptHandler k = dispatch (k₁.setMem (deviceSemaphore nSuppSem) 0) ∧
      WokenAll (deviceSemaphore nSuppSem) k k₁ := by
  obtain ⟨k₁, hrun, hall⟩ := wakeAll_spec hw (waiters_length hw)
  refine ⟨k₁, ?_, hall⟩
  have hcurr : (k₁.setMem (deviceSemaphore nSuppSem) 0).currProc = none := hall.curr.trans hc
  rw [itInterruptHandler, hrun, Option.bind_some]
  simp only [hcurr]
  rfl

theorem itInterruptHandler_spec (hw : WF k) (hc : k.currProc = some p) :
    ∃ k₁ k₂, itInterruptHandler k = dispatch k₂ ∧ WokenAll (deviceSemaphore nSuppSem) k k₁ ∧
      Requeued p (k₁.pcb p).pTime (k₁.setMem (deviceSemaphore nSuppSem) 0) k₂ ∧
      k₂.lists.ready = insertBy k₂.prio p k₁.lists.ready := by
  obtain ⟨k₁, hrun, hall⟩ : ∃ k₁, wakeAll (deviceSemaphore nSuppSem) (maxProc + 1) k = some k₁ ∧
      WokenAll (deviceSemaphore nSuppSem) k k₁ := wakeAll_spec hw (waiters_length hw)
  have hcurr : (k₁.setMem (deviceSemaphore nSuppSem) 0).currProc = some p := hall.curr.trans hc
  have hw₂ : WF (k₁.setMem (deviceSemaphore nSuppSem) 0) :=
    (hall.wf hw).congr rfl rfl fun _ => ⟨rfl, rfl⟩
  obtain ⟨k₂, hr, hq⟩ := preempt_spec hw₂ hcurr (k₁.pcb p).pTime
  refine ⟨k₁, k₂, ?_, hall, hq⟩
  -- the tick charges nothing: `p_time` stays
  have hsame : (k₁.setMem (deviceSemaphore nSuppSem) 0).setPcb p
      { (k₁.setMem (deviceSemaphore nSuppSem) 0).pcb p with pTime := (k₁.pcb p).pTime } =
      k₁.setMem (deviceSemaphore nSuppSem) 0 := Kernel.setPcb_eq_self rfl
  rw [hsame] at hr
  rw [itInterruptHandler, hrun, Option.bind_some]
  simp only [hcurr]
  exact hr

end Timers

/-- The ways in which the handler of an action ends. -/
inductive Effect : Action → Kernel Lists → Kernel Lists → Prop
  | plt {k k₁ k' : Kernel Lists} {p : Pcb}
      (h : Requeued p ((k.pcb p).pTime + (k.now - k.todStart)) k k₁) (hd : Dispatched k₁ k') :
      Effect .plt k k'
  | itIdle {k k₁ k' : Kernel Lists} (hc : k.currProc = none)
      (h : WokenAll (deviceSemaphore nSuppSem) k k₁)
      (hd : Dispatched (k₁.setMem (deviceSemaphore nSuppSem) 0) k') : Effect .it k k'
  | it {k k₁ k₂ k' : Kernel Lists} {p : Pcb} (h : WokenAll (deviceSemaphore nSuppSem) k k₁)
      (hr : Requeued p (k₁.pcb p).pTime (k₁.setMem (deviceSemaphore nSuppSem) 0) k₂)
      (hd : Dispatched k₂ k') : Effect .it k k'
  | deviceNone {k k' : Kernel Lists} {intLineNo : ℕ} (h : served intLineNo k.dev = none)
      (hr : Resumed k k') : Effect (.device intLineNo) k k'
  | device {k k₁ k' : Kernel Lists} {intLineNo i : ℕ} {ackAddr status : Word}
      (h : served intLineNo k.dev = some (ackAddr, i, status))
      (hs : Signalled i status (k.setDev ackAddr ack) k₁) (hr : Resumed k₁ k') :
      Effect (.device intLineNo) k k'
  | createFull {k : Kernel Lists} {a1 a2 a3 : Word} (h : k.lists.free = []) :
      Effect (.createProcess a1 a2 a3) k (k.setExcA0 noProc).ldst
  | create {k k₁ : Kernel Lists} {a1 a2 a3 : Word} {p c : Pcb} (h : Created a1 a2 a3 p c k k₁) :
      Effect (.createProcess a1 a2 a3) k (k₁.setExcA0 k.store.nextPid).ldst
  | termUnknown {k : Kernel Lists} {a1 : Word} (ha : a1 ≠ 0)
      (h : findPcbByPid a1 k = some none) :
      Effect (.termProcess a1) k (k.setExcA0 noProc).ldst
  | term {k k₁ k' : Kernel Lists} {a1 : Word} {p : Pcb} {D : Finset Pcb}
      (hv : if a1 = 0 then k.currProc = some p else findPcbByPid a1 k = some (some p))
      (h : Killed p D k k₁) (hd : Dispatched k₁ k') : Effect (.termProcess a1) k k'
  | die {k k₁ k' : Kernel Lists} {t : Fin 2} {p : Pcb} {D : Finset Pcb}
      (hc : k.currProc = some p) (hs : (k.pcb p).pSupportStruct = null)
      (h : Killed p D k k₁) (hd : Dispatched k₁ k') : Effect (.passUp t) k k'
  | passUp {k : Kernel Lists} {t : Fin 2} {p : Pcb} (hc : k.currProc = some p)
      (hs : (k.pcb p).pSupportStruct ≠ null) :
      Effect (.passUp t) k { k with
        support := Function.update k.support (k.pcb p).pSupportStruct
          { k.support (k.pcb p).pSupportStruct with
            supExceptState := Function.update
              (k.support (k.pcb p).pSupportStruct).supExceptState t k.exc }
        cpu := .context ((k.support (k.pcb p).pSupportStruct).supExceptContext t) }
  | passerenTake {k : Kernel Lists} {a1 : Word} (hv : 0 < (k.mem a1).toInt) :
      Effect (.passeren a1) k (k.setMem a1 (k.mem a1 - 1)).ldst
  | passeren {k k₁ k' : Kernel Lists} {a1 : Word} {p : Pcb} (hv : ¬ 0 < (k.mem a1).toInt)
      (h : Blocked a1 p k k₁) (hd : Dispatched k₁ k') : Effect (.passeren a1) k k'
  | verhogenEmpty {k : Kernel Lists} {a1 : Word} (h : k.lists.waiters a1 = []) :
      Effect (.verhogen a1) k (k.setMem a1 (k.mem a1 + 1)).ldst
  | verhogen {k k₁ : Kernel Lists} {a1 : Word} {p : Pcb} (h : Woken a1 p (k.pcb p).pS k k₁)
      (hd : k₁.toKernelData = k.toKernelData) : Effect (.verhogen a1) k k₁.ldst
  | doio {k k₁ k' : Kernel Lists} {a1 a2 : Word} {p : Pcb}
      (h : Blocked (deviceSemaphore (semIndex a1)) p
        { k with softBlockCount := k.softBlockCount + 1 } k₁)
      (hd : Dispatched (k₁.setDev a1 a2) k') : Effect (.doio a1 a2) k k'
  | clockWait {k k₁ k' : Kernel Lists} {p : Pcb}
      (h : Blocked pseudoClockSem p { k with softBlockCount := k.softBlockCount + 1 } k₁)
      (hd : Dispatched k₁ k') : Effect .clockWait k k'
  | getTime {k : Kernel Lists} {p : Pcb} (hc : k.currProc = some p) :
      Effect .getTime k (k.setExcA0 ((k.pcb p).pTime + (k.now - k.todStart))).ldst
  | getSupportPtr {k : Kernel Lists} {p : Pcb} (hc : k.currProc = some p) :
      Effect .getSupportPtr k (k.setExcA0 (k.pcb p).pSupportStruct).ldst
  | getProcessId {k : Kernel Lists} {a1 : Word} (w : Word) :
      Effect (.getProcessId a1) k (k.setExcA0 w).ldst
  | yield {k k₁ k' : Kernel Lists} {p : Pcb}
      (h : Requeued p ((k.pcb p).pTime + (k.now - k.todStart)) k k₁) (hd : Dispatched k₁ k') :
      Effect .yield k k'

theorem it_effect (hw : WF k) : ∃ k', perform .it k = some k' ∧ Effect .it k k' := by
  cases hp : k.currProc with
  | none =>
      obtain ⟨k₁, hr, hall⟩ := itInterruptHandler_idle hw hp
      obtain ⟨k', hd, hd'⟩ := dispatch_spec (k₁.setMem (deviceSemaphore nSuppSem) 0)
      exact ⟨k', hr.trans hd, .itIdle hp hall hd'⟩
  | some p =>
      obtain ⟨k₁, k₂, hr, hall, hq, -⟩ := itInterruptHandler_spec hw hp
      obtain ⟨k', hd, hd'⟩ := dispatch_spec k₂
      exact ⟨k', hr.trans hd, .it hall hq hd'⟩

theorem device_effect (hw : WF k) (intLineNo : ℕ) :
    ∃ k', perform (.device intLineNo) k = some k' ∧ Effect (.device intLineNo) k k' := by
  change ∃ k', deviceInterruptHandler intLineNo k = some k' ∧ _
  rw [deviceInterruptHandler_eq]
  cases hs : served intLineNo k.dev with
  | none =>
      obtain ⟨k', hr, hr'⟩ := resume_spec k
      exact ⟨k', hr, .deviceNone hs hr'⟩
  | some x =>
      obtain ⟨ackAddr, i, status⟩ := x
      have hw' : WF (k.setDev ackAddr ack) := hw.congr rfl rfl fun _ => ⟨rfl, rfl⟩
      obtain ⟨k₁, hsig, hsig'⟩ := signal_spec hw' i status
      obtain ⟨k', hr, hr'⟩ := resume_spec k₁
      refine ⟨k', ?_, .device hs hsig' hr'⟩
      simp only [hsig, Option.bind_some, hr]

theorem nsys2_effect (hw : WF k) (a1 : Word) (hc : ∃ p, k.currProc = some p)
    (hk : ∀ p, victim (.termProcess a1) k = some p → ∀ q, Descendant k.lists p q → Consistent k q) :
    ∃ k', perform (.termProcess a1) k = some k' ∧ Effect (.termProcess a1) k k' := by
  change ∃ k', nsys2 a1 k = some k' ∧ _
  rw [nsys2]
  by_cases h0 : a1 = 0
  · obtain ⟨p, hp⟩ := hc
    have hv : victim (.termProcess a1) k = some p := by simp [victim, h0, hp]
    obtain ⟨k₁, D, hr, hkill⟩ := terminateProcess_killed hw (hw.not_free hp) (hk p hv)
    obtain ⟨k', hd, hd'⟩ := dispatch_spec k₁
    refine ⟨k', ?_, .term (by rw [if_pos h0]; exact hp) hkill hd'⟩
    rw [if_pos h0, hp]
    simp only [hr, Option.bind_some, hd]
  · obtain ⟨r, hr, hrp⟩ := hw.findPcbByPid_live a1
    rw [if_neg h0, hr, Option.bind_some]
    cases r with
    | none => exact ⟨_, rfl, .termUnknown h0 hr⟩
    | some p =>
        have hv : victim (.termProcess a1) k = some p :=
          (if_neg h0).trans (by rw [hr]; rfl)
        obtain ⟨k₁, D, hrun, hkill⟩ := terminateProcess_killed hw (hrp p rfl) (hk p hv)
        obtain ⟨k', hd, hd'⟩ := dispatch_spec k₁
        refine ⟨k', ?_, .term (by rw [if_neg h0]; exact hr) hkill hd'⟩
        simp only [hrun, Option.bind_some, hd]

theorem passUp_effect (hw : WF k) (t : Fin 2) (hc : ∃ p, k.currProc = some p)
    (hk : ∀ p, victim (.passUp t) k = some p → ∀ q, Descendant k.lists p q → Consistent k q) :
    ∃ k', perform (.passUp t) k = some k' ∧ Effect (.passUp t) k k' := by
  obtain ⟨p, hp⟩ := hc
  by_cases hs : (k.pcb p).pSupportStruct = null
  · have hv : victim (.passUp t) k = some p := by simp [victim, hp, hs]
    obtain ⟨k₁, D, hr, hkill⟩ := terminateProcess_killed hw (hw.not_free hp) (hk p hv)
    obtain ⟨k', hd, hd'⟩ := dispatch_spec k₁
    refine ⟨k', Option.bind_eq_some_iff.mpr ⟨p, hp, (if_pos hs).trans ?_⟩, .die hp hs hkill hd'⟩
    simp only [nsys2, if_true, hp, hr, Option.bind_some, hd]
  · exact ⟨_, Option.bind_eq_some_iff.mpr ⟨p, hp, if_neg hs⟩, .passUp hp hs⟩

/-- Every action has an effect, as long as its kills are consistent. -/
theorem perform_spec (hw : WF k) (a : Action) (ha : a ≠ .unknown)
    (hc : a.isDevice = false → ∃ p, k.currProc = some p)
    (hk : ∀ p, victim a k = some p → ∀ q, Descendant k.lists p q → Consistent k q) :
    ∃ k', perform a k = some k' ∧ Effect a k k' := by
  cases a with
  | unknown => exact absurd rfl ha
  | plt =>
      obtain ⟨p, hp⟩ := hc rfl
      obtain ⟨k₁, hr, hq, -⟩ := pltInterruptHandler_spec hw hp
      obtain ⟨k', hd, hd'⟩ := dispatch_spec k₁
      exact ⟨k', hr.trans hd, .plt hq hd'⟩
  | it => exact it_effect hw
  | device intLineNo => exact device_effect hw intLineNo
  | createProcess a1 a2 a3 =>
      obtain ⟨c, hp⟩ := hc rfl
      cases hf : k.lists.free with
      | nil => exact ⟨_, congrArg (Option.map _) (nsys1_full hf), .createFull hf⟩
      | cons p free =>
          obtain ⟨k₁, hr, hk₁, -⟩ := nsys1_spec hw hp hf
          exact ⟨_, congrArg (Option.map _) hr, .create hk₁⟩
  | termProcess a1 => exact nsys2_effect hw a1 (hc rfl) hk
  | passeren a1 =>
      obtain ⟨p, hp⟩ := hc rfl
      change ∃ k', nsys3 a1 k = some k' ∧ _
      rw [nsys3]
      by_cases hv : 0 < (k.mem a1).toInt
      · rw [if_pos hv]
        exact ⟨_, rfl, .passerenTake hv⟩
      · obtain ⟨k₁, hr, hb⟩ := blockCurrent_spec hw hp a1
        obtain ⟨k', hd, hd'⟩ := dispatch_spec k₁
        rw [if_neg hv, hr]
        exact ⟨k', hd, .passeren hv hb hd'⟩
  | verhogen a1 =>
      change ∃ k', (nsys4 a1 k).map Kernel.ldst = some k' ∧ _
      cases hq : k.lists.waiters a1 with
      | nil => exact ⟨_, congrArg (Option.map _) (nsys4_empty hw hq), .verhogenEmpty hq⟩
      | cons p ps =>
          obtain ⟨k₁, hr, hwk, hd⟩ := nsys4_wake hw hq
          exact ⟨_, congrArg (Option.map _) hr, .verhogen hwk hd⟩
  | doio a1 a2 =>
      obtain ⟨p, hp⟩ := hc rfl
      have hw' : WF { k with softBlockCount := k.softBlockCount + 1 } :=
        hw.congr rfl rfl fun _ => ⟨rfl, rfl⟩
      obtain ⟨k₁, hr, hb⟩ := blockCurrent_spec hw' hp (deviceSemaphore (semIndex a1))
      obtain ⟨k', hd, hd'⟩ := dispatch_spec (k₁.setDev a1 a2)
      refine ⟨k', ?_, .doio hb hd'⟩
      change nsys5 a1 a2 k = _
      rw [nsys5, hr]
      exact hd
  | clockWait =>
      obtain ⟨p, hp⟩ := hc rfl
      have hw' : WF { k with softBlockCount := k.softBlockCount + 1 } :=
        hw.congr rfl rfl fun _ => ⟨rfl, rfl⟩
      obtain ⟨k₁, hr, hb⟩ := blockCurrent_spec hw' hp pseudoClockSem
      obtain ⟨k', hd, hd'⟩ := dispatch_spec k₁
      refine ⟨k', ?_, .clockWait hb hd'⟩
      change nsys7 k = _
      rw [nsys7, hr]
      exact hd
  | getTime =>
      obtain ⟨p, hp⟩ := hc rfl
      refine ⟨_, ?_, .getTime hp⟩
      change (nsys6 k).map _ = _
      rw [nsys6, hp]
      rfl
  | getSupportPtr =>
      obtain ⟨p, hp⟩ := hc rfl
      refine ⟨_, ?_, .getSupportPtr hp⟩
      change (nsys8 k).map _ = _
      rw [nsys8, hp]
      rfl
  | getProcessId a1 =>
      obtain ⟨p, hp⟩ := hc rfl
      have hr : ∃ w, nsys9 a1 k = some (k.setExcA0 w) := by
        rw [nsys9, hp, Option.map_some]
        split
        · exact ⟨_, rfl⟩
        · split <;> exact ⟨_, rfl⟩
      obtain ⟨w, hw⟩ := hr
      exact ⟨_, congrArg (Option.map _) hw, .getProcessId w⟩
  | yield =>
      obtain ⟨p, hp⟩ := hc rfl
      obtain ⟨k₁, hr, hq, -⟩ := nsys10_spec hw hp
      obtain ⟨k', hd, hd'⟩ := dispatch_spec k₁
      exact ⟨k', hr.trans hd, .yield hq hd'⟩
  | passUp t => exact passUp_effect hw t (hc rfl) hk

/-- Every effect keeps the invariant. -/
theorem Effect.wf {a : Action} (h : Effect a k k') (hw : WF k) : WF k' := by
  cases h with
  | plt h hd | yield h hd => exact hd.wf (h.wf hw)
  | itIdle hc h hd => exact hd.wf ((h.wf hw).data rfl rfl)
  | it h hr hd => exact hd.wf (hr.wf ((h.wf hw).data rfl rfl))
  | deviceNone h hr => exact hr.wf hw
  | device h hs hr => exact hr.wf (hs.wf (hw.data rfl rfl))
  | create h => exact (h.wf hw).data rfl rfl
  | term hv h hd => exact hd.wf (h.wf' hw)
  | die hc hs h hd => exact hd.wf (h.wf' hw)
  | passeren hv h hd => exact hd.wf (h.wf hw)
  | verhogen h hd => exact (h.wf hw).data rfl rfl
  | doio h hd => exact hd.wf ((h.wf (hw.data rfl rfl)).data rfl rfl)
  | clockWait h hd => exact hd.wf (h.wf (hw.data rfl rfl))
  | _ => exact hw.data rfl rfl

end PandOSsh.Nucleus
