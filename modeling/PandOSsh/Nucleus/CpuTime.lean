import PandOSsh.Nucleus.Places

/-!
# The CPU time of processes

The history of a run lists the stays on the CPU: each from the `dispatch` that
loads the process to the kernel entry that takes the CPU from it. `p_time` is
the length of the completed stays, modulo `2 ^ 32`, in the runs without kills
in which no interval-timer interrupt cuts a stay short.
-/

namespace PandOSsh.Nucleus
open Library

/-- A completed stay on the CPU. -/
structure Stay where
  proc : Pcb
  since : Word
  till : Word

/-- The completed stays, and when the current process was loaded. -/
structure CpuLog where
  stays : List Stay
  loadedAt : Word

namespace CpuLog

/-- The time that `q` has spent in completed stays. -/
def total (log : CpuLog) (q : Pcb) : Word :=
  ((log.stays.filter fun s => s.proc = q).map fun s => s.till - s.since).sum

/-- The stay that began when `p` was loaded ends now. -/
def leave (p : Pcb) (now : Word) (log : CpuLog) : CpuLog :=
  ⟨⟨p, log.loadedAt, now⟩ :: log.stays, now⟩

theorem total_leave (p q : Pcb) (now : Word) (log : CpuLog) : (log.leave p now).total q =
    if q = p then log.total q + (now - log.loadedAt) else log.total q := by
  by_cases hq : q = p
  · subst hq
    simp [total, leave, BitVec.add_comm]
  · have hp : p ≠ q := fun he => hq he.symm
    simp [total, leave, hq, hp]

end CpuLog

section Record
variable {Q : Type}

/-- Whether an action takes the CPU from the current process: the handler ends
in `dispatch` and does not return to it. -/
def takesCpu (a : Action) (k : Kernel Q) : Prop :=
  match a with
  | .plt | .it | .yield | .clockWait | .doio _ _ => True
  | .passeren a1 => ¬ 0 < (k.mem a1).toInt
  | _ => False

instance (a : Action) (k : Kernel Q) : Decidable (takesCpu a k) :=
  match a with
  | .plt | .it | .yield | .clockWait | .doio _ _ => .isTrue trivial
  | .passeren a1 => inferInstanceAs (Decidable (¬ 0 < (k.mem a1).toInt))
  | .device _ | .unknown | .createProcess _ _ _ | .termProcess _ | .verhogen _ | .getTime
  | .getSupportPtr | .getProcessId _ | .passUp _ => .isFalse id

/-- The log after an action on the prepared state `k`. -/
def CpuLog.record (a : Action) (k : Kernel Q) (log : CpuLog) : CpuLog :=
  match k.currProc with
  | none => { log with loadedAt := k.now }
  | some p => if takesCpu a k then log.leave p k.now else log

/-- The log reads the globals only. -/
theorem CpuLog.record_congr {Q' : Type} {k : Kernel Q} {l : Kernel Q'} (a : Action)
    (h : k.toKernelData = l.toKernelData) (log : CpuLog) : log.record a k = log.record a l := by
  obtain ⟨d, s⟩ := k
  obtain ⟨d', s'⟩ := l
  obtain rfl : d = d' := h
  rfl

end Record

section Charged
variable {k k' k₁ : Kernel Lists} {log : CpuLog} {p : Pcb}

/-- `p_time` is the time of the completed stays, and `tod_start` the beginning
of the current one. A free PCB has not stayed on the CPU. -/
structure Charged (log : CpuLog) (k : Kernel Lists) : Prop where
  time : ∀ q, (k.pcb q).pTime = log.total q
  free : ∀ q ∈ k.lists.free, log.total q = 0
  since : ∀ p, k.currProc = some p → k.todStart = log.loadedAt

theorem Dispatched.charged (h : Dispatched k k') (hc : k.currProc = none)
    (ht : ∀ q, (k.pcb q).pTime = log.total q) (hf : ∀ q ∈ k.lists.free, log.total q = 0)
    (hl : log.loadedAt = k.now) : Charged log k' := by
  cases h with
  | idle h => exact ⟨ht, hf, fun p hp => absurd (hc.symm.trans hp) nofun⟩
  | load p ps h => exact ⟨ht, hf, fun _ _ => hl.symm⟩

/-- The entries that leave the stay of the current process as it is. -/
theorem Charged.quiet {a : Action} (h : Charged log k) (ha : ¬ takesCpu a k)
    (ht : ∀ q, (k'.pcb q).pTime = (k.pcb q).pTime) (hf : k'.lists.free = k.lists.free)
    (hc : k'.currProc = k.currProc) (hs : k'.todStart = k.todStart) :
    Charged (log.record a k) k' := by
  have htotal : (log.record a k).total = log.total := by
    rw [CpuLog.record]
    split
    · rfl
    · rw [if_neg ha]
  refine ⟨fun q => ?_, fun q hq => ?_, fun p hp => ?_⟩
  · rw [ht, h.time, htotal]
  · rw [htotal]
    exact h.free q (hf ▸ hq)
  · rw [hc] at hp
    rw [hs, h.since p hp, CpuLog.record, hp]
    simp only [if_neg ha]

/-- The entries that take the CPU and charge the stay. -/
theorem Charged.leave {a : Action} (h : Charged log k) (hw : WF k) (hp : k.currProc = some p)
    (ha : takesCpu a k)
    (ht : ∀ q, (k₁.pcb q).pTime = if q = p then (k.pcb p).pTime + (k.now - k.todStart)
      else (k.pcb q).pTime)
    (hf : k₁.lists.free = k.lists.free) (hc : k₁.currProc = none) (hn : k₁.now = k.now)
    (hd : Dispatched k₁ k') : Charged (log.record a k) k' := by
  have hlog : log.record a k = log.leave p k.now := by
    rw [CpuLog.record, hp]
    exact if_pos ha
  rw [hlog]
  refine hd.charged hc (fun q => ?_) (fun q hq => ?_) hn.symm
  · rw [ht, CpuLog.total_leave, h.time, h.time, h.since p hp]
    by_cases hq : q = p
    · rw [if_pos hq, if_pos hq, hq]
    · rw [if_neg hq, if_neg hq]
  · rw [hf] at hq
    have hne : q ≠ p := fun he => hw.not_free hp (he ▸ hq)
    rw [CpuLog.total_leave, if_neg hne, h.free q hq]

/-- The entries that find no current process. -/
theorem Charged.idle {a : Action} (h : Charged log k) (hp : k.currProc = none)
    (ht : ∀ q, (k₁.pcb q).pTime = (k.pcb q).pTime) (hf : k₁.lists.free = k.lists.free)
    (hc : k₁.currProc = k.currProc) (hn : k₁.now = k.now) (hd : Dispatched k₁ k') :
    Charged (log.record a k) k' := by
  have hlog : log.record a k = { log with loadedAt := k.now } := by rw [CpuLog.record, hp]
  rw [hlog]
  exact hd.charged (hc.trans hp) (fun q => (ht q).trans (h.time q))
    (fun q hq => h.free q (hf ▸ hq)) hn.symm

theorem Woken.pTime {key : Word} {s : ProcessorState} (h : Woken key p s k k') (q : Pcb) :
    (k'.pcb q).pTime = (k.pcb q).pTime := by
  rw [h.pcb]
  split
  · next hq => rw [hq]
  · rfl

theorem WokenAll.pTime {key : Word} (h : WokenAll key k k') (q : Pcb) :
    (k'.pcb q).pTime = (k.pcb q).pTime := by
  induction h with
  | done => rfl
  | wake h _ _ ih => exact ih.trans (h.pTime q)

theorem WokenAll.clock {key : Word} (h : WokenAll key k k') :
    k'.now = k.now ∧ k'.todStart = k.todStart := by
  induction h with
  | done => exact ⟨rfl, rfl⟩
  | wake _ hd _ ih => exact ⟨ih.1.trans (by rw [hd]), ih.2.trans (by rw [hd])⟩

theorem Requeued.pTime {t : Word} (h : Requeued p t k k') (q : Pcb) :
    (k'.pcb q).pTime = if q = p then t else (k.pcb q).pTime := by
  rw [h.pcb]
  split <;> rfl

theorem Blocked.pTime {key : Word} (h : Blocked key p k k') (q : Pcb) : (k'.pcb q).pTime =
    if q = p then (k.pcb p).pTime + (k.now - k.todStart) else (k.pcb q).pTime := by
  rw [h.pcb]
  split <;> rfl

theorem Created.charged {a1 a2 a3 : Word} {c : Pcb} (h : Created a1 a2 a3 p c k k')
    (hk : Charged log k) : Charged (log.record (.createProcess a1 a2 a3) k) k' := by
  have hlog : log.record (.createProcess a1 a2 a3) k = log := by
    rw [CpuLog.record, h.curr]
    exact if_neg id
  have hf : ∀ q ∈ k'.lists.free, q ∈ k.lists.free := fun q hq => by
    rw [h.free]
    exact List.mem_cons_of_mem p hq
  rw [hlog]
  refine ⟨fun q => ?_, fun q hq => hk.free q (hf q hq), fun q hq => ?_⟩
  · rw [h.pcb]
    split
    · next hq =>
      subst hq
      exact (hk.free q (by simp [h.free])).symm
    · exact hk.time q
  · rw [← hk.since c h.curr]
    exact (congrArg KernelData.todStart h.data :)

/-- After the device handler has changed `k` into `k₁`. -/
theorem Charged.resumed {n : ℕ} (h : Charged log k)
    (ht : ∀ q, (k₁.pcb q).pTime = (k.pcb q).pTime) (hf : k₁.lists.free = k.lists.free)
    (hk : k₁.now = k.now ∧ k₁.todStart = k.todStart ∧ k₁.currProc = k.currProc)
    (hr : Resumed k₁ k') : Charged (log.record (.device n) k) k' := by
  cases hr with
  | ldst p hc => exact h.quiet id ht hf hk.2.2 hk.2.1
  | dispatch hc hd => exact h.idle (hk.2.2.symm.trans hc) ht hf hk.2.2 hk.1 hd

variable [Layout]

theorem Signalled.pTime {i : ℕ} {status : Word} (h : Signalled i status k k') (q : Pcb) :
    (k'.pcb q).pTime = (k.pcb q).pTime := by
  cases h with
  | empty => rfl
  | wake h _ => exact h.pTime q

theorem Signalled.clock {i : ℕ} {status : Word} (h : Signalled i status k k') :
    k'.now = k.now ∧ k'.todStart = k.todStart ∧ k'.currProc = k.currProc := by
  cases h with
  | empty => exact ⟨rfl, rfl, rfl⟩
  | wake _ hd => exact ⟨by rw [hd], by rw [hd], by rw [hd]⟩

theorem Effect.charged {a : Action} (h : Effect a k k') (hw : WF k) (hv : victim a k = none)
    (hit : a = .it → ∀ p, k.currProc = some p → k.now = k.todStart) (hk : Charged log k) :
    Charged (log.record a k) k' := by
  cases h with
  | plt h hd =>
      exact hk.leave hw h.curr trivial h.pTime h.free h.currProc_eq
        (congrArg KernelData.now h.data :) hd
  | yield h hd =>
      exact hk.leave hw h.curr trivial h.pTime h.free h.currProc_eq
        (congrArg KernelData.now h.data :) hd
  | itIdle hc h hd =>
      refine Charged.idle hk hc ?_ ?_ ?_ ?_ hd
      · exact h.pTime
      · exact h.free
      · exact h.curr
      · exact h.clock.1
  | it h hr hd =>
      have hp := h.curr.symm.trans hr.curr
      -- a tick charges nothing, which is right for an empty stay only
      have h0 : ∀ t : Word, t + (k.now - k.todStart) = t := fun t => by
        rw [hit rfl _ hp, BitVec.sub_self]
        exact BitVec.add_zero t
      refine hk.leave hw hp trivial (fun q => ?_) ?_ hr.currProc_eq ?_ hd
      · rw [hr.pTime, h0, h.pTime]
        exact if_congr Iff.rfl rfl (h.pTime q)
      · exact hr.free.trans h.free
      · exact (congrArg KernelData.now hr.data :).trans h.clock.1
  | deviceNone h hr => exact hk.resumed (fun _ => rfl) rfl ⟨rfl, rfl, rfl⟩ hr
  | device h hs hr => exact hk.resumed hs.pTime hs.free hs.clock hr
  | create h =>
      have h1 := h.charged hk
      exact ⟨h1.time, h1.free, h1.since⟩
  | term hvt h hd => exact absurd (hv.symm.trans (victim_term hvt)) nofun
  | die hc hn h hd => exact absurd hv (by simp [victim, hc, hn])
  | passeren hvt h hd =>
      exact hk.leave hw h.curr hvt h.pTime h.queues.free h.currProc_eq
        (congrArg KernelData.now h.data :) hd
  | passerenTake hvt => exact hk.quiet (not_not.mpr hvt) (fun _ => rfl) rfl rfl rfl
  | verhogen h hd =>
      exact hk.quiet id h.pTime h.free h.curr (congrArg KernelData.todStart hd :)
  | doio h hd =>
      refine Charged.leave hk hw h.curr trivial ?_ ?_ ?_ ?_ hd
      · exact h.pTime
      · exact h.queues.free
      · exact h.currProc_eq
      · exact (congrArg KernelData.now h.data :)
  | clockWait h hd =>
      exact hk.leave hw h.curr trivial h.pTime h.queues.free h.currProc_eq
        (congrArg KernelData.now h.data :) hd
  | _ => exact hk.quiet id (fun _ => rfl) rfl rfl rfl

end Charged

section Conditions

/-- No interval-timer interrupt comes in the middle of a stay. -/
def TicksIdle {Q : Type} (k : Kernel Q) (e : Entry) : Prop :=
  action e = .it → ∀ p, k.currProc = some p → e.now = k.todStart

/-- The runs without kills. -/
def Unkilled {Q : Type} [QueueApi Q] (k : Kernel Q) (e : Entry) : Prop :=
  victim (action e) k = none

/-- NSYS1, NSYS3 to NSYS10 and the interrupts. -/
def killFree : Action → Bool
  | .termProcess _ | .passUp _ | .unknown => false
  | _ => true

theorem unkilled_of_killFree {Q : Type} [QueueApi Q] {k : Kernel Q} {e : Entry}
    (h : killFree (action e) = true) : Unkilled k e := by
  unfold Unkilled
  cases ha : action e with
  | termProcess | passUp => rw [ha] at h; cases h
  | _ => rfl

theorem Unkilled.lists {k : Kernel Pointers} {l : Kernel Lists} {e : Entry} (h : KernelRel k l)
    (hw : WF l) (hk : Unkilled k e) : Unkilled l e := (victim_eq h hw _).symm.trans hk

end Conditions

section Runs
variable [Layout]

/-- A run with the stays on the CPU so far. -/
def withCpuLog {Q : Type} (S : System (Kernel Q) Entry) : System (Kernel Q × CpuLog) Entry :=
  S.withHistory (fun k => ⟨[], k.now⟩) fun k e _ log => log.record (action e) (prepared e k)

/-- At any moment, `p_time` and the running stay add up to the time on the CPU,
and NSYS6 reports it. -/
def ChargesExactly (k : Kernel Pointers) (log : CpuLog) : Prop :=
  (∀ q now, (k.pcb q).pTime + (if k.currProc = some q then now - k.todStart else 0) =
    log.total q + if k.currProc = some q then now - log.loadedAt else 0) ∧
  ∀ e p, k.currProc = some p → action e = .getTime → ∃ k' s, kernelEntry e k = some k' ∧
    k'.cpu = .run s ∧ s.regA0 = log.total p + (e.now - log.loadedAt)

theorem charged {x : Kernel Lists × CpuLog} (h : (withCpuLog ((nucleus Lists).restrict fun k e =>
    Unkilled k e ∧ TicksIdle k e)).Reachable x) : Charged x.2 x.1 := by
  refine h.invariant (I := fun x => Charged x.2 x.1) ?_ ?_
  · intro x hx
    obtain ⟨b, hb⟩ := init_booted hx.1
    have htotal : ∀ q, x.2.total q = 0 := fun q => by rw [hx.2]; rfl
    refine ⟨fun q => ?_, fun q _ => htotal q, fun p _ => ?_⟩
    · rw [htotal, hb.pcb]
      split <;> rfl
    · have hd : x.1.todStart = x.1.now := by rw [hb.data]; rfl
      rw [hx.2, hd]
  · intro x e x' hr hi hs
    have hkill : ∀ (l : Kernel Lists) (e : Entry), Unkilled l e ∧ TicksIdle l e →
        KillsByPlace l e := fun l e hc => .of_victim hc.1
    have hsound := sound_of_reachable hkill hr.fst
    have he := (step_effect hkill hsound hs.1).1
    rw [hs.2]
    exact he.charged (hsound.wf.data rfl rfl) hs.1.1.1 hs.1.1.2 ⟨hi.time, hi.free, hi.since⟩

/-- The stays on pointers are those on lists. -/
theorem cpuLog_refines : (withCpuLog ((nucleus Pointers).restrict fun k e =>
    Unkilled k e ∧ TicksIdle k e)).Refines (withCpuLog ((nucleus Lists).restrict fun k e =>
      Unkilled k e ∧ TicksIdle k e)) (fun x y => KernelRel x.1 y.1 ∧ x.2 = y.2) := by
  have hkill : ∀ (l : Kernel Lists) (e : Entry), Unkilled l e ∧ TicksIdle l e →
      KillsByPlace l e := fun l e hc => .of_victim hc.1
  refine (nucleus_refines hkill fun k l e hr hl hc => ⟨hc.1.lists hr hl.wf, ?_⟩).withHistory
    (fun _ hr => by rw [hr.data])
    (fun {s t e s' t' log} _ hr _ => CpuLog.record_congr _ (enter_refines _ hr).data log)
  rw [TicksIdle, ← hr.data]
  exact hc.2

theorem getTime_spec {k : Kernel Pointers} {e : Entry} {p : Pcb} (hc : k.currProc = some p)
    (ha : action e = .getTime) : ∃ k' s, kernelEntry e k = some k' ∧ k'.cpu = .run s ∧
      s.regA0 = (k.pcb p).pTime + (e.now - k.todStart) := by
  have hc' : (prepared e k).currProc = some p := hc
  let t := (k.pcb p).pTime + (e.now - k.todStart)
  refine ⟨((prepared e k).setExcA0 t).ldst, (prepared e k).exc.setA0 t, ?_, rfl, ?_⟩
  · rw [kernelEntry_eq, ha]
    change (nsys6 (prepared e k)).map Kernel.ldst = _
    rw [nsys6, hc']
    rfl
  · simp [ProcessorState.regA0, ProcessorState.setA0, t]

theorem charges_exactly {k : Kernel Pointers} {log : CpuLog}
    (h : (withCpuLog ((nucleus Pointers).restrict fun k e =>
      Unkilled k e ∧ TicksIdle k e)).Reachable (k, log)) : ChargesExactly k log := by
  obtain ⟨⟨l, _⟩, hl, hr, rfl⟩ := cpuLog_refines.reachable h
  have hc : Charged log l := charged hl
  have htime : ∀ q, (k.pcb q).pTime = log.total q := fun q => by rw [hr.pcb]; exact hc.time q
  have hsince : ∀ p, k.currProc = some p → k.todStart = log.loadedAt := fun p hp => by
    rw [hr.data]
    exact hc.since p ((congrArg KernelData.currProc hr.data).symm.trans hp)
  refine ⟨fun q now => ?_, fun e p hp ha => ?_⟩
  · rw [htime]
    split
    · next hq => rw [hsince q hq]
    · rfl
  · obtain ⟨k', s, hk', hcpu, hs⟩ := getTime_spec hp ha
    exact ⟨k', s, hk', hcpu, by rw [hs, htime, hsince p hp]⟩

end Runs

section Concrete

/-- A tick after 100 µs: the stay is not charged. -/
theorem tick_uncharged : ¬ ∀ (_ : Layout) (k : Kernel Pointers) (log : CpuLog),
    (withCpuLog ((nucleus Pointers).restrict fun _ e => killFree (action e))).Reachable (k, log) →
      ChargesExactly k log := by
  intro h
  let := ramLayout
  let run := main bareImage bareLinks
  let log (k : Kernel Pointers) : CpuLog :=
    CpuLog.record (action (tick 100)) (prepared (tick 100) k) ⟨[], k.now⟩
  have hrun : (run.bind (kernelEntry (tick 100))).isSome = true := by decide +kernel
  have hlog : (run.all fun k => Possible k (tick 100) ∧ (log k).total firstPcb = 100 ∧
      (log k).loadedAt = 100) = true := by decide +kernel
  have htime : ((run.bind (kernelEntry (tick 100))).all fun k => k.currProc = some firstPcb ∧
      (k.pcb firstPcb).pTime = 0 ∧ k.todStart = 100) = true := by decide +kernel
  obtain ⟨k', hk'⟩ := Option.isSome_iff_exists.mp hrun
  obtain ⟨k, hk, hstep⟩ := Option.bind_eq_some_iff.mp hk'
  rw [hk'] at htime
  rw [hk] at hlog
  obtain ⟨hp, htotal, hloaded⟩ := of_decide_eq_true hlog
  obtain ⟨hc, h0, hs⟩ := of_decide_eq_true htime
  have h₀ : (nucleus Pointers).init k := ⟨bareImage, bareLinks, hk⟩
  have hinit : (withCpuLog ((nucleus Pointers).restrict fun _ e =>
      killFree (action e))).Reachable (k, ⟨[], k.now⟩) := .init ⟨h₀, rfl⟩
  have hkill : killFree (action (tick 100)) = true := by decide
  have heq := (h ramLayout k' (log k) (.step hinit ⟨⟨hkill, hp, hstep⟩, rfl⟩)).1 firstPcb 100
  rw [h0, hs, htotal, hloaded, if_pos hc] at heq
  exact absurd heq (by decide)

/-- Two processes wait for the clock; the tick finds the CPU idle and wakes them. Another
tick comes when a process has just been loaded. -/
theorem charges_exactly_run : ∃ k log, bareRun (fun k e => killFree (action e) &&
      (action e ≠ .it || k.currProc.all fun _ => e.now = k.todStart))
    [request 10 createProcess 0, request 20 yield 0, tick 20, request 50 clockWait 0,
      request 60 clockWait 0, tick 100, request 130 getTime 0] = some k ∧
        @ChargesExactly ramLayout k log := by
  let := ramLayout
  obtain ⟨k, hk⟩ := Option.isSome_iff_exists.mp (show (bareRun (fun k e =>
      killFree (action e) && (action e ≠ .it || k.currProc.all fun _ => e.now = k.todStart))
    [request 10 createProcess 0, request 20 yield 0, tick 20, request 50 clockWait 0,
      request 60 clockWait 0, tick 100, request 130 getTime 0]).isSome = true by decide +kernel)
  have hreach : ((nucleus Pointers).restrict fun k e =>
      Unkilled k e ∧ TicksIdle k e).Reachable k := by
    refine bareRun_restrict (fun k e hP => ?_) hk
    obtain ⟨hkill, hit⟩ := Bool.and_eq_true_iff.mp hP
    refine ⟨unkilled_of_killFree hkill, fun ha p hp => ?_⟩
    rw [Bool.or_eq_true, hp, Option.all_some, decide_eq_true_eq, decide_eq_true_eq] at hit
    exact hit.resolve_left fun hne => hne ha
  obtain ⟨log, hlog⟩ := hreach.exists_history
  exact ⟨k, log, hk, charges_exactly hlog⟩

end Concrete
end PandOSsh.Nucleus
