import PandOSsh.Nucleus.Scheduling

/-!
# No process is passed over twice

A process that waits for the CPU is passed only by processes of higher priority
and by those of its own priority that were ready before it, each of these once.
Kills are part of the runs: they take processes out of the ready queue and leave
the order of the others.
-/

namespace PandOSsh.Nucleus
open Library

section Picks
variable {k k₁ k' : Kernel Lists} {a : Action} {log : List Pcb} {p : Pcb}

/-- The process that has been given the CPU. -/
def given {Q : Type} [QueueApi Q] (a : Action) (k k' : Kernel Q) : Option Pcb :=
  if takesCpu a k ∨ k.currProc = none ∨ (victim a k).isSome then k'.currProc else none

/-- What one entry does for those who stay ready. -/
structure Picks (log arrivals : List Pcb) (given : Option Pcb) (k' : Kernel Lists) : Prop where
  stable : Stable k'.prio ((log ++ arrivals).filter fun q => q ∈ k'.lists.ready) k'.lists.ready
  ahead : ∀ q, given = some q → ∀ p ∈ log, p ∈ k'.lists.ready → k'.prio q ≤ k'.prio p →
    q ∈ ahead p log
  gone : ∀ q, given = some q → q ∉ k'.lists.ready

theorem Picks.of_inOrder {arrivals : List Pcb} (h : InOrder a log arrivals k k')
    (hv : victim a k = none) (hw' : WF k') : Picks log arrivals (given a k k') k' := by
  have hcurr : ∀ q, given a k k' = some q →
      (takesCpu a k ∨ k.currProc = none) ∧ k'.currProc = some q := by
    intro q hq
    rw [given, hv] at hq
    split at hq
    · next hd => exact ⟨hd.imp_right fun h => h.resolve_right Bool.false_ne_true, hq⟩
    · cases hq
  have hgone : ∀ q, given a k k' = some q → q ∉ k'.lists.ready := fun q hq hm =>
    hw'.not_queued (hcurr q hq).2 (by simp [Lists.queued, hm])
  refine ⟨h.stable, fun q hq p hp hr hle => ?_, hgone⟩
  obtain ⟨hd, hc⟩ := hcurr q hq
  have hne : q ≠ p := fun he => hgone q hq (he ▸ hr)
  rcases h.chosen hd with ⟨hnil, -⟩ | ⟨q', hfirst, hc', -⟩
  · rw [eligible] at hnil
    split at hnil
    · rw [hnil] at hp
      cases hp
    · rw [(List.append_eq_nil_iff.mp hnil).1] at hp
      cases hp
  · obtain rfl : q' = q := Option.some.inj (hc'.symm.trans hc)
    rw [eligible] at hfirst
    split at hfirst
    · rw [← List.append_nil log] at hfirst
      exact hfirst.mem_ahead hp hne hle
    · exact hfirst.mem_ahead hp hne hle

variable [Layout]

theorem Removed.prio {D : Finset Pcb} (h : Removed D k k') : k'.prio = k.prio := by
  funext q
  unfold Kernel.prio
  rw [h.pcb]
  split <;> rfl

/-- A kill filters the ready queue, then the head of what is left is taken. -/
theorem Picks.of_killed {D : Finset Pcb} {d : Option Pcb} (h : Killed p D k k₁)
    (hd : Dispatched k₁ k') (hs : Stable k.prio log k.lists.ready) (hw' : WF k')
    (hgiven : ∀ q, d = some q → k'.currProc = some q) : Picks log [] d k' := by
  have hprio : k'.prio = k.prio := hd.prio.trans h.prio
  have hs₁ : Stable k'.prio (log.filter fun q => q ∉ D) k₁.lists.ready := by
    rw [hprio, h.ready]
    exact hs.filter _
  have hgone : ∀ q, d = some q → q ∉ k'.lists.ready := fun q hq hm =>
    hw'.not_queued (hgiven q hq) (by simp [Lists.queued, hm])
  cases hd with
  | idle hn =>
      have hnil : ({ k₁ with cpu := idleCpu k₁.toKernelData } : Kernel Lists).lists.ready = [] := hn
      refine ⟨?_, fun q _ p _ hr => ?_, hgone⟩
      · simp only [hnil, List.not_mem_nil, decide_false, List.filter_false]
        exact .nil
      · rw [hnil] at hr
        cases hr
  | load c ps hready =>
      have hc : (load c (k₁.setLists { k₁.lists with ready := ps })).currProc = some c := rfl
      have hps : (load c (k₁.setLists { k₁.lists with ready := ps })).lists.ready = ps := rfl
      rw [hready] at hs₁
      have hnot : c ∉ ps := fun hm => hw'.not_queued hc (by simp [Lists.queued, hps, hm])
      have halive : ∀ q ∈ ps, q ∉ D := by
        intro q hq
        have hm : q ∈ k₁.lists.ready := by rw [hready]; exact List.mem_cons_of_mem c hq
        rw [h.ready] at hm
        simpa using (List.mem_filter.mp hm).2
      refine ⟨?_, fun q hq p hp hr hle => ?_, hgone⟩
      · have hlog : (log ++ []).filter (fun q => q ∈ ps) =
            (log.filter fun q => q ∉ D).filter fun q => q ∈ ps := by
          rw [List.append_nil, List.filter_filter]
          refine List.filter_congr fun q _ => ?_
          by_cases hq : q ∈ ps
          · simp [hq, halive q hq]
          · simp [hq]
        rw [hps, hlog]
        exact hs₁.tail hnot
      · rw [hps] at hr
        obtain rfl : c = q := Option.some.inj (hgiven q hq)
        have hp' : p ∈ log.filter fun q => q ∉ D :=
          List.mem_filter.mpr ⟨hp, decide_eq_true (halive p hr)⟩
        have hfirst := hs₁.isFirst
        rw [← List.append_nil (log.filter fun q => q ∉ D)] at hfirst
        have hm := hfirst.mem_ahead hp' (fun he => hnot (he ▸ hr)) hle
        rw [← List.append_nil log, ahead_filter hp (decide_eq_true (halive p hr))] at hm
        exact (List.mem_filter.mp hm).1

/-- The kills of NSYS2 and of a death. -/
theorem Effect.picks {v : Pcb} (h : Effect a k k') (hv : victim a k = some v)
    (hs : Stable k.prio log k.lists.ready) (hw' : WF k') :
    Picks log (becameReady a k.toKernelData k.lists.queues) (given a k k') k' := by
  have hgiven : ∀ q, given a k k' = some q → k'.currProc = some q := by
    intro q hq
    rw [given] at hq
    split at hq
    · exact hq
    · cases hq
  cases h with
  | term _ h hd | die _ _ h hd => exact .of_killed h hd hs hw' hgiven
  | termUnknown ha h => exact absurd ((if_neg ha).symm.trans hv) (by simp [h])
  | @passUp _ t p hc hn =>
      have hnone : victim (.passUp t) k = none := by simp [victim, hc, hn]
      exact absurd (hv.symm.trans hnone) (Option.some_ne_none v)
  | _ => cases hv

omit [Layout] in
/-- Who is chosen goes before all who stay ready, but for the caller of NSYS10. -/
theorem InOrder.highest {arrivals : List Pcb} {q : Pcb} (h : InOrder a log arrivals k k')
    (hd : takesCpu a k ∨ k.currProc = none) (hq : k'.currProc = some q)
    (hp : p ∈ k'.lists.ready) (hy : a = .yield → p ∉ arrivals) : k'.prio p ≤ k'.prio q := by
  have hm : p ∈ log ++ arrivals := (List.mem_filter.mp (h.stable.mem_iff.mp hp)).1
  have hel : p ∈ eligible a log arrivals := by
    rw [eligible]
    split
    · next hc => exact (List.mem_append.mp hm).resolve_right (hy hc.1)
    · exact hm
  rcases h.chosen hd with ⟨hnil, -⟩ | ⟨r, ⟨before, after, hlog, hb, ha⟩, hr, -⟩
  · rw [hnil] at hel
    cases hel
  · obtain rfl : r = q := Option.some.inj (hr.symm.trans hq)
    rw [hlog, List.mem_append, List.mem_cons] at hel
    rcases hel with hel | rfl | hel
    · exact (hb p hel).le
    · exact le_rfl
    · exact ha p hel

/-- After a kill the head of what is left is taken. -/
theorem Killed.highest {D : Finset Pcb} {q v : Pcb} (h : Killed v D k k₁)
    (hd : Dispatched k₁ k') (hs : Stable k.prio log k.lists.ready) (hw' : WF k')
    (hq : k'.currProc = some q) (hp : p ∈ k'.lists.ready) : k'.prio p ≤ k'.prio q := by
  have hs₁ : Stable k'.prio (log.filter fun q => q ∉ D) k₁.lists.ready := by
    rw [hd.prio.trans h.prio, h.ready]
    exact hs.filter _
  cases hd with
  | idle hn =>
      have hp' : p ∈ k₁.lists.ready := hp
      rw [hn] at hp'
      cases hp'
  | load c ps hready =>
      obtain rfl : c = q := Option.some.inj hq
      have hp' : p ∈ ps := hp
      rw [hready] at hs₁
      exact (List.pairwise_cons.mp hs₁.sorted).1 p hp'

theorem Effect.highest {v q : Pcb} (h : Effect a k k') (hv : victim a k = some v)
    (hs : Stable k.prio log k.lists.ready) (hw' : WF k') (hq : k'.currProc = some q)
    (hp : p ∈ k'.lists.ready) : k'.prio p ≤ k'.prio q := by
  cases h with
  | term _ h hd | die _ _ h hd => exact h.highest hd hs hw' hq hp
  | termUnknown ha h => exact absurd ((if_neg ha).symm.trans hv) (by simp [h])
  | @passUp _ t p hc hn =>
      have hnone : victim (.passUp t) k = none := by simp [victim, hc, hn]
      exact absurd (hv.symm.trans hnone) (Option.some_ne_none v)
  | _ => cases hv

theorem picks_step {e : Entry} (h : Sound k) (hs : Stable k.prio log k.lists.ready)
    (hstep : ((nucleus Lists).restrict KillsByPlace).step k e k') :
    Picks log (becameReady (action e) (prepared e k).toKernelData k.lists.queues)
      (given (action e) (prepared e k) k') k' := by
  obtain ⟨he, hsound⟩ := step_effect (fun _ _ h => h) h hstep
  cases hv : victim (action e) (prepared e k) with
  | none =>
      have hin := (inOrder_step h hs ⟨hv, hstep.2⟩).1
      exact .of_inOrder hin hv hsound.wf
  | some v => exact he.picks hv hs hsound.wf

theorem highest_step {e : Entry} {q : Pcb} (h : Sound k) (hs : Stable k.prio log k.lists.ready)
    (hstep : ((nucleus Lists).restrict KillsByPlace).step k e k')
    (hq : given (action e) (prepared e k) k' = some q) (hp : p ∈ k'.lists.ready)
    (hy : action e = .yield → k.currProc ≠ some p) : k'.prio p ≤ k'.prio q := by
  obtain ⟨he, hsound⟩ := step_effect (fun _ _ h => h) h hstep
  rw [given] at hq
  split at hq
  · next hd =>
    cases hv : victim (action e) (prepared e k) with
    | none =>
        rw [hv, Option.isSome_none] at hd
        have htakes := hd.imp_right fun h => h.resolve_right Bool.false_ne_true
        have hin := (inOrder_step h hs ⟨hv, hstep.2⟩).1
        refine hin.highest htakes hq hp fun ha hm => hy ha ?_
        rw [ha] at hm
        exact Option.mem_toList.mp hm
    | some v => exact he.highest hv hs hsound.wf hq hp
  · cases hq

end Picks

section History

theorem given_eq {k k' : Kernel Pointers} {l l' : Kernel Lists} (h : KernelRel k l) (hw : WF l)
    (h' : KernelRel k' l') (a : Action) : given a k k' = given a l l' := by
  have htakes : takesCpu a k ↔ takesCpu a l := by
    unfold takesCpu
    rw [congrArg KernelData.mem h.data]
  rw [given, given, victim_eq h hw, congrArg KernelData.currProc h.data,
    congrArg KernelData.currProc h'.data]
  simp only [htakes]

variable [Layout]

/-- The ready processes in the order in which they became ready, and for each of them
those that have been given the CPU in the meantime without a higher priority. -/
structure ReadyHistory where
  log : List Pcb
  passed : Pcb → List Pcb

def updateHistory {Q : Type} [QueueApi Q] (walk : Store Q → Option Queues) (k : Kernel Q)
    (e : Entry) (k' : Kernel Q) (h : ReadyHistory) : ReadyHistory where
  log := updateReadyLog walk k e k' h.log
  passed p :=
    if p ∈ h.log ∧ p ∈ updateReadyLog walk k e k' h.log then
      h.passed p ++ (given (action e) (prepared e k) k').toList.filter fun q =>
        k'.prio q ≤ k'.prio p
    else []

def withPassed {Q : Type} [QueueApi Q] (walk : Store Q → Option Queues)
    (S : System (Kernel Q) Entry) : System (Kernel Q × ReadyHistory) Entry :=
  S.withHistory (fun _ => ⟨[], fun _ => []⟩) (updateHistory walk)

/-- The ready queue is the log by priority, and nobody has been passed twice. -/
structure Patient (l : Kernel Lists) (h : ReadyHistory) : Prop where
  stable : Stable l.prio h.log l.lists.ready
  bypassed : ∀ p ∈ h.log, Bypassed p h.log (h.passed p)

theorem Patient.step {l l' : Kernel Lists} {e : Entry} {h : ReadyHistory} (hp : Patient l h)
    (hl : Sound l) (hstep : ((nucleus Lists).restrict KillsByPlace).step l e l') :
    Patient l' (updateHistory listWalk l e l' h) := by
  have hpick := picks_step hl hp.stable hstep
  have hlog : (updateHistory listWalk l e l' h).log =
      (h.log ++ becameReady (action e) (prepared e l).toKernelData l.lists.queues).filter
        fun q => q ∈ l'.lists.ready := rfl
  refine ⟨by rw [hlog]; exact hpick.stable, fun p hm => ?_⟩
  by_cases hstay : p ∈ h.log
  · have hready : p ∈ l'.lists.ready := by
      rw [hlog] at hm
      simpa using (List.mem_filter.mp hm).2
    have hpassed : (updateHistory listWalk l e l' h).passed p = h.passed p ++
        (given (action e) (prepared e l) l').toList.filter fun q => l'.prio q ≤ l'.prio p :=
      if_pos ⟨hstay, hm⟩
    rw [hpassed, hlog]
    refine (hp.bypassed p hstay).next hstay (decide_eq_true hready) ?_ fun q hq => ?_
    · refine List.Nodup.filter _ ?_
      cases given (action e) (prepared e l) l' <;> simp
    · obtain ⟨hq, hle⟩ := List.mem_filter.mp hq
      have hg := Option.mem_toList.mp hq
      exact ⟨hpick.ahead q hg p hstay hready (of_decide_eq_true hle),
        decide_eq_false (hpick.gone q hg)⟩
  · have hnil : (updateHistory listWalk l e l' h).passed p = [] := if_neg fun hc => hstay hc.1
    rw [hnil]
    exact .start

theorem patient {x : Kernel Lists × ReadyHistory} (h : (withPassed listWalk
    ((nucleus Lists).restrict KillsByPlace)).Reachable x) : Patient x.1 x.2 := by
  refine h.invariant (I := fun x => Patient x.1 x.2) (fun x hx => ?_) fun x e x' hr hi hs => ?_
  · obtain ⟨b, hb⟩ := init_booted hx.1
    rw [hx.2]
    exact ⟨by rw [hb.ready]; exact .nil, fun p hp => absurd hp List.not_mem_nil⟩
  · rw [hs.2]
    exact hi.step (sound_of_reachable (fun _ _ h => h) hr.fst) hs.1

theorem passed_refines : (withPassed Pointer.queues ((nucleus Pointers).restrict
    KillsByPlace)).Refines (withPassed listWalk ((nucleus Lists).restrict KillsByPlace))
    (fun x y => KernelRel x.1 y.1 ∧ x.2 = y.2) := by
  refine (nucleus_refines (fun _ _ h => h) fun _ _ _ hr _ hc => hc.lists hr).withHistory
    (fun _ _ => rfl) fun {s t e s' t' g} ht hr hr' => ?_
  have hwt : WF t := (sound_of_reachable (fun _ _ h => h) ht).wf
  have hprep : KernelRel (prepared e s) (prepared e t) := enter_refines _ hr
  have hlog : updateReadyLog Pointer.queues s e s' g.log = updateReadyLog listWalk t e t' g.log := by
    rw [updateReadyLog, updateReadyLog, hprep.data, hr.store.queues, hr'.store.queues]
    rfl
  rw [updateHistory, updateHistory, hlog, given_eq hprep (hwt.data rfl rfl) hr', hr'.prio_eq]

/-- While a process is ready, nobody of the same or lower priority is given the CPU
twice: fewer than `MAXPROC` processes pass it. -/
structure PassedOnce (k : Kernel Pointers) (h : ReadyHistory) : Prop where
  ready : ∃ ready, QueueApi.ready k.store = some ready ∧ ∀ p, p ∈ ready ↔ p ∈ h.log
  once : ∀ p ∈ h.log, (h.passed p).Nodup ∧ p ∉ h.passed p ∧ (h.passed p).length < maxProc

theorem round_robin {k : Kernel Pointers} {h : ReadyHistory} (hr : (withPassed Pointer.queues
    ((nucleus Pointers).restrict fun k e => KillsByPlace k e ∧ WaitsAlone k e)).Reachable (k, h)) :
    PassedOnce k h := by
  obtain ⟨⟨l, _⟩, hl, hrel, rfl⟩ :=
    passed_refines.reachable (hr.history_mono fun _ _ h => h.1)
  have hp := patient hl
  refine ⟨⟨_, hrel.store.ready, fun p => hp.stable.mem_iff⟩, fun p hm => ?_⟩
  have hb := hp.bypassed p hm
  refine ⟨hb.nodup, hb.self, ?_⟩
  have hlen := (List.nodup_cons.mpr ⟨hb.self, hb.nodup⟩).length_le_card
  rw [Fintype.card_fin, List.length_cons] at hlen
  exact hlen

end History

/-- A kill takes the CPU from the first process and a ready one out of its queue. -/
theorem round_robin_run : ∃ k h, bareRun (fun k _ => tidy k)
    (killEvents (request 0 clockWait 0) ++ [request 0 createProcess 0]) = some k ∧
      PassedOnce k h := by
  obtain ⟨k, hk⟩ := Option.isSome_iff_exists.mp (show (bareRun (fun k _ => tidy k)
    (killEvents (request 0 clockWait 0) ++ [request 0 createProcess 0])).isSome = true
      by decide +kernel)
  have hreach : ((@nucleus ramLayout Pointers _).restrict fun k e =>
      KillsByPlace k e ∧ WaitsAlone k e).Reachable k :=
    bareRun_restrict (fun _ _ => byPlace_of_tidy) hk
  obtain ⟨h, hh⟩ := hreach.exists_history
  exact ⟨k, h, hk, @round_robin ramLayout k h hh⟩

end PandOSsh.Nucleus
