import PandOSsh.Library.PriorityQueue
import PandOSsh.Nucleus.Invariant

/-!
# What the functions of the Nucleus do on lists

One lemma for each function that wakes, preempts or creates a process, and for
the boot: from a well-formed state it returns, and its result is one of the
moves of `Nucleus.Invariant`.
-/

namespace PandOSsh.Nucleus
open Library
variable {k k' : Kernel Lists} {p : Pcb} {ps : List Pcb} {key : Word}

section Wake

theorem removeBlocked_wake (hw : WF k) (h : k.lists.waiters key = p :: ps) :
    ∃ v, QueueApi.removeBlocked key k.store = some (Lists.setLists k.store v, some p) ∧
      Lists.Active.Dropped key p k.lists v ∧ p ∉ v.queued := by
  obtain ⟨v, hr, hv⟩ := Lists.Active.removeBlocked_spec (s := k.store) hw.active h
  refine ⟨v, hr, hv, ?_⟩
  have hp := hw.places p
  have hb := hv.blocked.count_eq p
  have hf : v.free = k.lists.free := hv.free
  have hy : v.ready = k.lists.ready := hv.ready
  rw [List.count_cons_self] at hb
  change k.lists.blocked.count p = _ at hb
  intro hm
  rw [← List.count_pos_iff, Lists.queued, List.count_append, List.count_append, hf, hy] at hm
  simp only [Kernel.places, hb] at hp
  omega

theorem removeBlocked_empty (hw : WF k) (h : k.lists.waiters key = []) :
    QueueApi.removeBlocked key k.store = some (k.store, none) :=
  Lists.Active.removeBlocked_none (s := k.store) hw.active h

theorem nsys4_empty (hw : WF k) (h : k.lists.waiters key = []) :
    nsys4 key k = some (k.setMem key (k.mem key + 1)) := by
  rw [nsys4, removeBlocked_empty hw h]
  rfl

theorem nsys4_wake (hw : WF k) (h : k.lists.waiters key = p :: ps) :
    ∃ k', nsys4 key k = some k' ∧ Woken key p (k.pcb p).pS k k' ∧
      k'.toKernelData = k.toKernelData := by
  obtain ⟨v, hr, hv, hp⟩ := removeBlocked_wake hw h
  have hi := insertProcQ_spec (s := Lists.setLists k.store v) hp
  refine ⟨k.setLists { v with ready := Lists.byPrio k.store.toPcbData p v.ready }, ?_, ?_, rfl⟩
  · rw [nsys4, hr, Option.bind_some]
    exact congrArg (Option.map _) hi
  · refine ⟨by rw [h]; rfl, rfl, rfl, fun q => ?_, v, hv, rfl⟩
    split
    · next hqp => rw [hqp]; rfl
    · rfl

theorem makeReady_spec (hp : p ∉ k.lists.queued) : makeReady p k = some
    { k with
      store := Lists.setLists k.store
        { k.lists with ready := Lists.byPrio k.store.toPcbData p k.lists.ready }
      softBlockCount := k.softBlockCount - 1 } := by
  exact congrArg (Option.map _) (insertProcQ_spec (s := k.store) hp)

section Device
variable [Layout] {i : ℕ} {status : Word}

theorem signal_empty (hw : WF k) (h : k.lists.waiters (deviceSemaphore i) = []) :
    signal i status k = some (k.setMem (deviceSemaphore i) (k.mem (deviceSemaphore i) + 1)) := by
  rw [signal, removeBlocked_empty hw h]
  rfl

theorem signal_wake (hw : WF k) (h : k.lists.waiters (deviceSemaphore i) = p :: ps) :
    ∃ k', signal i status k = some k' ∧
      Woken (deviceSemaphore i) p ((k.pcb p).pS.setA0 status) k k' ∧
      k'.toKernelData = { k.toKernelData with softBlockCount := k.softBlockCount - 1 } := by
  obtain ⟨v, hr, hv, hp⟩ := removeBlocked_wake hw h
  let k₀ := (k.setLists v).setPcb p { k.pcb p with pS := (k.pcb p).pS.setA0 status }
  have hm := makeReady_spec (p := p) (k := k₀) hp
  refine ⟨_, (congrArg (Option.bind · _) hr).trans hm,
    ⟨by rw [h]; rfl, rfl, rfl, fun q => ?_, v, hv, rfl⟩, rfl⟩
  exact (k.setLists v).setPcb_pcb p q _

end Device

/-- Every waiter on `key` has become ready, one after the other. -/
inductive WokenAll (key : Word) : Kernel Lists → Kernel Lists → Prop
  | done {k : Kernel Lists} (h : k.lists.waiters key = []) : WokenAll key k k
  | wake {k k₁ k' : Kernel Lists} {p : Pcb} (h : Woken key p (k.pcb p).pS k k₁)
      (hd : k₁.toKernelData = { k.toKernelData with softBlockCount := k.softBlockCount - 1 })
      (hr : WokenAll key k₁ k') : WokenAll key k k'

theorem wakeAll_spec {n : ℕ} (hw : WF k) (hn : (k.lists.waiters key).length < n) :
    ∃ k', wakeAll key n k = some k' ∧ WokenAll key k k' := by
  induction n generalizing k with
  | zero => omega
  | succ n ih =>
      cases h : k.lists.waiters key with
      | nil =>
          refine ⟨k, ?_, .done h⟩
          rw [wakeAll, removeBlocked_empty hw h]
          rfl
      | cons p ps =>
          obtain ⟨v, hr, hv, hp⟩ := removeBlocked_wake hw h
          have hm := makeReady_spec (p := p) (k := k.setLists v) hp
          let k₁ : Kernel Lists := { k with
            store := Lists.setLists k.store
              { v with ready := Lists.byPrio k.store.toPcbData p v.ready }
            softBlockCount := k.softBlockCount - 1 }
          have hk : Woken key p (k.pcb p).pS k k₁ := by
            refine ⟨by rw [h]; rfl, rfl, rfl, fun q => ?_, v, hv, rfl⟩
            split
            · next hqp => rw [hqp]; rfl
            · rfl
          have hlen : (k₁.lists.waiters key).length < n := by
            rw [hk.waiters, if_pos rfl, h, List.tail_cons]
            rw [h, List.length_cons] at hn
            omega
          obtain ⟨k', hrun, hall⟩ := ih (hk.wf hw) hlen
          refine ⟨k', ?_, .wake hk rfl hall⟩
          rw [wakeAll, hr, Option.bind_some]
          change (makeReady p (k.setLists v)).bind _ = _
          rw [hm, Option.bind_some]
          exact hrun

theorem WokenAll.wf (h : WokenAll key k k') (hw : WF k) : WF k' := by
  induction h with
  | done => exact hw
  | wake h _ _ ih => exact ih (h.wf hw)

theorem WokenAll.curr (h : WokenAll key k k') : k'.currProc = k.currProc := by
  induction h with
  | done => rfl
  | wake h _ _ ih => exact ih.trans h.curr

/-- The waiters on one key are among those blocked. -/
theorem count_waiters_le (hw : WF k) (q : Pcb) :
    (k.lists.waiters key).count q ≤ k.lists.blocked.count q := by
  by_cases h : k.lists.waiters key = []
  · rw [h, List.count_nil]
    exact Nat.zero_le _
  · obtain ⟨d, hd, -, -, hq⟩ := hw.active.find_key h
    obtain ⟨l₁, l₂, hs⟩ := List.append_of_mem hd
    rw [← hq]
    simp only [Lists.blocked, hs, List.flatMap_append, List.flatMap_cons, List.count_append]
    omega

theorem waiters_nodup (hw : WF k) : (k.lists.waiters key).Nodup := by
  rw [List.nodup_iff_count_le_one]
  intro q
  have hp := hw.places q
  have hle : (k.lists.waiters key).count q ≤ k.lists.blocked.count q := count_waiters_le hw q
  simp only [Kernel.places] at hp
  omega

/-- No queue is longer than the number of PCBs. -/
theorem waiters_length (hw : WF k) : (k.lists.waiters key).length < maxProc + 1 := by
  have hl := (show (k.lists.waiters key).Nodup from waiters_nodup hw).length_le_card
  rw [Fintype.card_fin] at hl
  omega

end Wake

section Preempt

theorem preempt_spec (hw : WF k) (hc : k.currProc = some p) (t : Word) :
    ∃ k', (preempt p (k.setPcb p { k.pcb p with pTime := t })).bind dispatch = dispatch k' ∧
      Requeued p t k k' ∧ k'.lists.ready = insertBy k'.prio p k.lists.ready := by
  have hq := hw.not_queued hc
  let k₀ := (k.setPcb p { k.pcb p with pTime := t }).saveState p
  let ready := Lists.byPrio k₀.store.toPcbData p k.lists.ready
  have hi := insertProcQ_spec (s := k₀.store) hq
  refine ⟨{ k₀.setLists { k.lists with ready := ready } with currProc := none }, ?_,
    ⟨hc, rfl, rfl, fun q => ?_, rfl, byPrio_perm _ p _⟩, rfl⟩
  · have hne : ready ≠ [] := fun h => by
      have := (byPrio_perm k₀.store.toPcbData p k.lists.ready).length_eq
      change ready.length = _ at this
      rw [h] at this
      simp at this
    have hp : preempt p (k.setPcb p { k.pcb p with pTime := t }) =
        some (k₀.setLists { k.lists with ready := ready }) := congrArg (Option.map _) hi
    rw [hp, Option.bind_some]
    exact (dispatch_currProc (k := k₀.setLists { k.lists with ready := ready }) hne none).symm
  · change (((k.setPcb p _).setPcb p _).pcb q) = _
    rw [Kernel.setPcb_pcb, Kernel.setPcb_pcb, Kernel.setPcb_pcb]
    by_cases hqp : q = p
    · rw [if_pos hqp, if_pos hqp, if_pos rfl]
      rfl
    · rw [if_neg hqp, if_neg hqp, if_neg hqp]

theorem nsys10_spec (hw : WF k) (hc : k.currProc = some p) :
    ∃ k', nsys10 k = dispatch k' ∧
      Requeued p ((k.pcb p).pTime + (k.now - k.todStart)) k k' ∧
      k'.lists.ready = k.lists.ready.take 1 ++ insertBy k'.prio p (k.lists.ready.drop 1) := by
  have hq := hw.not_queued hc
  let k₀ := (k.saveState p).chargeTime p
  have hpcb : ∀ ready q, ({ k₀.setLists { k.lists with ready := ready } with
      currProc := none } : Kernel Lists).pcb q = if q = p then { k.pcb p with
        pS := k.exc, pTime := (k.pcb p).pTime + (k.now - k.todStart) } else k.pcb q :=
    fun ready q => Kernel.saveState_chargeTime_pcb k p q
  cases h : k.lists.ready with
  | nil =>
      have hr : QueueApi.removeProcQ k₀.store = some (k₀.store, none) := by
        change Lists.removeProcQ k₀.store = _
        have h' : k₀.store.lists.ready = [] := h
        rw [Lists.removeProcQ, h']
      refine ⟨{ k₀.setLists { k.lists with
          ready := Lists.byPrio k₀.store.toPcbData p k.lists.ready } with currProc := none },
        ?_, ⟨hc, rfl, rfl, hpcb _, rfl, byPrio_perm _ p _⟩, by rw [h]; rfl⟩
      rw [nsys10, hc, Option.bind_some]
      change (QueueApi.removeProcQ k₀.store).bind _ = _
      rw [hr, Option.bind_some, insertProcQ_spec (s := k₀.store) hq]
      rfl
  | cons c ready =>
      have hr : QueueApi.removeProcQ k₀.store =
          some (Lists.setLists k₀.store { k.lists with ready := ready }, some c) := by
        change Lists.removeProcQ k₀.store = _
        have h' : k₀.store.lists.ready = c :: ready := h
        rw [Lists.removeProcQ, h']
        rfl
      have hq' : p ∉ ({ k.lists with ready := ready } : Lists).queued := by
        intro hm
        refine hq ?_
        simp only [Lists.queued, List.mem_append, h, List.mem_cons] at hm ⊢
        tauto
      have hca : c ∉ ({ k.lists with
          ready := Lists.byPrio k₀.store.toPcbData p ready } : Lists).queued := by
        have hcp := hw.places c
        rw [Kernel.places, h, List.count_cons_self, hc, Option.toList_some] at hcp
        intro hm
        rw [← List.count_pos_iff, Lists.queued, List.count_append, List.count_append,
          (byPrio_perm _ p ready).count_eq c] at hm
        rw [List.count_cons] at hm
        rw [List.count_singleton] at hcp
        change 0 < k.lists.free.count c + _ + k.lists.blocked.count c at hm
        omega
      refine ⟨{ k₀.setLists { k.lists with
          ready := c :: Lists.byPrio k₀.store.toPcbData p ready } with currProc := none },
        ?_, ⟨hc, rfl, rfl, hpcb _, rfl, ?_⟩, rfl⟩
      · rw [nsys10, hc, Option.bind_some]
        change (QueueApi.removeProcQ k₀.store).bind _ = _
        rw [hr, Option.bind_some, insertProcQ_spec
          (s := Lists.setLists k₀.store { k.lists with ready := ready }) hq', Option.bind_some]
        have ha : QueueApi.listAddReady c (Lists.setLists k₀.store { k.lists with
            ready := Lists.byPrio k₀.store.toPcbData p ready }) =
          some (Lists.setLists k₀.store { k.lists with
            ready := c :: Lists.byPrio k₀.store.toPcbData p ready }) := if_pos hca
        exact congrArg (fun o => Option.bind o _) ha
      · refine ((byPrio_perm _ p ready).cons c).trans ?_
        rw [h]
        exact .swap p c ready

end Preempt

section Create
variable {c : Pcb} {a1 a2 a3 : Word}

/-- NSYS1 has taken `p` from the free list, made it a child of the current
process `c` and put it in the ready queue. -/
structure Created (a1 a2 a3 : Word) (p c : Pcb) (k k' : Kernel Lists) : Prop where
  curr : k.currProc = some c
  data : k'.toKernelData = { k.toKernelData with processCount := k.processCount + 1 }
  nextPid : k'.store.nextPid = k.store.nextPid + 1
  pcb : ∀ q, k'.pcb q = if q = p then
    { pParent := some c, pS := k.states a1, pTime := 0, pSemAdd := null,
      pSupportStruct := a3, pPrio := a2.toInt, pPid := k.store.nextPid } else k.pcb q
  free : k.lists.free = p :: k'.lists.free
  ready : k'.lists.ready.Perm (p :: k.lists.ready)
  asl : k'.lists.asl = k.lists.asl ∧ k'.lists.idle = k.lists.idle
  child : ∀ q, k'.lists.child q =
    if q = c then p :: k.lists.child c else if q = p then [] else k.lists.child q

theorem allocPcb_full (h : k.lists.free = []) :
    QueueApi.allocPcb k.store = some (k.store, none) := by
  change Lists.allocPcb k.store = _
  have h' : k.store.lists.free = [] := h
  rw [Lists.allocPcb, h']

theorem nsys1_full (h : k.lists.free = []) : nsys1 a1 a2 a3 k = some (k, noProc) := by
  rw [nsys1, allocPcb_full h]
  rfl

theorem allocPcb_spec (hw : WF k) {free : List Pcb} (h : k.lists.free = p :: free) :
    QueueApi.allocPcb k.store = some
      ({ (Lists.setLists k.store { k.lists with
          free := free, child := Function.update k.lists.child p [] }).setPcb p
          (initialFields k.store.nextPid) with nextPid := k.store.nextPid + 1 }, some p) := by
  have hp := hw.places p
  rw [Kernel.places, h, List.count_cons_self] at hp
  have hfree : p ∉ free := fun hm => by
    have := List.count_pos_iff.mpr hm
    omega
  have hchild : ∀ q, p ∉ k.lists.child q := fun q hm => by
    have hpar := (hw.tree.child_iff q p).mp hm
    rw [(hw.tree.free p (by simp [h])).2] at hpar
    cases hpar
  change Lists.allocPcb k.store = _
  have h' : k.store.lists.free = p :: free := h
  rw [Lists.allocPcb, h']
  exact if_pos ⟨hfree, hchild⟩

/-- A free PCB that the free list gives up is in no other place. -/
theorem not_queued_of_free (hw : WF k) {free : List Pcb} (h : k.lists.free = p :: free)
    {v : Lists} (hf : v.free = free) (hr : v.ready = k.lists.ready) (ha : v.asl = k.lists.asl) :
    p ∉ v.queued := by
  have hp := hw.places p
  rw [Kernel.places, h, List.count_cons_self] at hp
  have hb : v.blocked = k.lists.blocked := congrArg (List.flatMap Desc.procq) ha
  intro hm
  rw [← List.count_pos_iff, Lists.queued, List.count_append, List.count_append, hf, hr, hb] at hm
  omega

theorem nsys1_spec (hw : WF k) (hc : k.currProc = some c) {free : List Pcb}
    (h : k.lists.free = p :: free) :
    ∃ k', nsys1 a1 a2 a3 k = some (k', k.store.nextPid) ∧ Created a1 a2 a3 p c k k' ∧
      k'.lists.ready = insertBy k'.prio p k.lists.ready := by
  have hcp : c ≠ p := fun he => hw.not_free hc (by simp [h, he])
  have hcf : c ∉ free := fun hm => hw.not_free hc (by simp [h, hm])
  let v := { k.lists with free := free, child := Function.update k.lists.child p [] }
  let f : PcbFields := { initialFields k.store.nextPid with
    pS := k.states a1, pPrio := a2.toInt, pSupportStruct := a3 }
  let s₁ : Store Lists := { ((Lists.setLists k.store v).setPcb p
    (initialFields k.store.nextPid)) with nextPid := k.store.nextPid + 1 }
  let s₂ := s₁.setPcb p { s₁.pcb p with
    pS := k.states a1, pPrio := a2.toInt, pSupportStruct := a3 }
  let ready := Lists.byPrio s₂.toPcbData p k.lists.ready
  let s₃ := Lists.setLists s₂ { v with ready := ready }
  let s₄ := Lists.setLists (s₃.setPcb p { s₃.pcb p with pParent := some c })
    { v with ready := ready, child := Function.update v.child c (p :: v.child c) }
  have hv : p ∉ v.queued := not_queued_of_free hw h rfl rfl rfl
  have hi : QueueApi.insertProcQ p s₂ = some s₃ := insertProcQ_spec (s := s₂) hv
  have hchild : ∀ q, p ∉ v.child q := by
    intro q hm
    by_cases hqp : q = p
    · simp [v, hqp] at hm
    · rw [show v.child q = k.lists.child q from Function.update_of_ne hqp _ _] at hm
      have hpar := (hw.tree.child_iff q p).mp hm
      rw [(hw.tree.free p (by simp [h])).2] at hpar
      cases hpar
  have hins : QueueApi.insertChild k.currProc p s₃ = some s₄ := by
    rw [hc]
    exact if_pos ⟨hcf, hchild⟩
  have hs : ∀ q, s₄.pcb q = if q = p then { f with pParent := some c } else k.pcb q := by
    intro q
    have h₁ : ∀ q, s₁.pcb q = if q = p then initialFields k.store.nextPid else k.pcb q :=
      fun q => (Lists.setLists k.store v).setPcb_pcb p q _
    have h₃ := s₃.setPcb_pcb p q { s₃.pcb p with pParent := some c }
    have h₄ : s₃.pcb = s₂.pcb := rfl
    by_cases hqp : q = p
    · rw [if_pos hqp] at h₃ ⊢
      refine h₃.trans ?_
      rw [h₄, s₁.setPcb_pcb, if_pos rfl, h₁, if_pos rfl]
    · rw [if_neg hqp] at h₃ ⊢
      refine h₃.trans ?_
      rw [h₄, s₁.setPcb_pcb, if_neg hqp, h₁, if_neg hqp]
  let k' := ({ k with store := s₄, processCount := k.processCount + 1 } : Kernel Lists).setPcb p
    { s₄.pcb p with pTime := 0, pSemAdd := null }
  have hrun : nsys1 a1 a2 a3 k = some (k', (k'.pcb p).pPid) := by
    rw [nsys1, allocPcb_spec hw h, Option.bind_some]
    change (QueueApi.insertProcQ p s₂).bind _ = _
    rw [hi, Option.bind_some]
    change (QueueApi.insertChild k.currProc p s₃).map _ = _
    rw [hins]
    rfl
  have hpcb : ∀ q, k'.pcb q = if q = p then { f with pParent := some c } else k.pcb q := by
    intro q
    rw [Kernel.setPcb_pcb]
    by_cases hqp : q = p
    · rw [if_pos hqp, if_pos hqp, hs, if_pos rfl]
      rfl
    · rw [if_neg hqp, if_neg hqp]
      exact (hs q).trans (if_neg hqp)
  refine ⟨k', ?_, ⟨hc, rfl, rfl, fun q => ?_, h, byPrio_perm _ p _, ⟨rfl, rfl⟩, fun q => ?_⟩, ?_⟩
  · rw [hrun, hpcb, if_pos rfl]
    rfl
  · rw [hpcb]
    rfl
  · change Function.update v.child c (p :: v.child c) q = _
    rw [Function.update_apply]
    change (if q = c then p :: Function.update k.lists.child p [] c
      else Function.update k.lists.child p [] q) = _
    rw [Function.update_of_ne hcp, Function.update_apply]
  · have hprio : ∀ q, (s₂.pcb q).pPrio = k'.prio q := by
      intro q
      rw [Kernel.prio, hpcb, ← hs]
      change _ = ((s₃.setPcb p _).pcb q).pPrio
      rw [s₃.setPcb_pcb]
      split
      · next hqp => rw [hqp]; rfl
      · rfl
    exact insertBy_congr (hprio p) fun q _ => hprio q

namespace Created

theorem ne_parent (hw : WF k) (h : Created a1 a2 a3 p c k k') : c ≠ p := fun he =>
  hw.not_free h.curr (by simp [h.free, he])

theorem blocked (h : Created a1 a2 a3 p c k k') : k'.lists.blocked = k.lists.blocked :=
  congrArg (List.flatMap Desc.procq) h.asl.1

theorem waiters (h : Created a1 a2 a3 p c k k') (a : Word) :
    k'.lists.waiters a = k.lists.waiters a := by
  rw [Lists.waiters_def, Lists.waiters_def, h.asl.1]

theorem places_eq (h : Created a1 a2 a3 p c k k') (q : Pcb) : k'.places q = k.places q := by
  have hr := h.ready.count_eq q
  have hc : k'.currProc = k.currProc := (congrArg KernelData.currProc h.data :)
  rw [List.count_cons] at hr
  simp only [Kernel.places, hr, h.blocked, hc, h.free, List.count_cons]
  omega

/-- The new process is a leaf below the current one. -/
theorem tree (hw : WF k) (h : Created a1 a2 a3 p c k k') :
    Tree k'.lists fun q => (k'.pcb q).pParent := by
  have hcp := h.ne_parent hw
  have hpf := hw.tree.free p (by simp [h.free])
  have hpc : ∀ q, p ∉ k.lists.child q := fun q hm => by
    have hpar := (hw.tree.child_iff q p).mp hm
    rw [hpf.2] at hpar
    cases hpar
  refine ⟨fun q => ?_, fun q x => ?_, fun q hq => ?_, ?_⟩
  · rw [h.child]
    split
    · exact List.nodup_cons.mpr ⟨hpc c, hw.tree.nodup c⟩
    · split
      · exact List.nodup_nil
      · exact hw.tree.nodup q
  · rw [h.child, h.pcb]
    by_cases hxp : x = p
    · subst hxp
      rw [if_pos rfl]
      by_cases hqc : q = c
      · simp [hqc]
      · rw [if_neg hqc]
        have hcq : c ≠ q := fun he => hqc he.symm
        by_cases hqx : q = x
        · simp [hqx, hcp]
        · simp [hqx, hpc q, hcq]
    · rw [if_neg hxp]
      by_cases hqc : q = c
      · subst hqc
        rw [if_pos rfl, List.mem_cons, or_iff_right hxp]
        exact hw.tree.child_iff q x
      · rw [if_neg hqc]
        by_cases hqp : q = p
        · subst hqp
          rw [if_pos rfl, ← hw.tree.child_iff q x, hpf.1]
        · rw [if_neg hqp]
          exact hw.tree.child_iff q x
  · have hqp : q ≠ p := by
      rintro rfl
      have hpl := hw.places q
      rw [Kernel.places, h.free, List.count_cons_self] at hpl
      have := List.count_pos_iff.mpr hq
      omega
    have hqc : q ≠ c := by
      rintro rfl
      exact hw.not_free h.curr (by simp [h.free, hq])
    rw [h.child, if_neg hqc, if_neg hqp, h.pcb, if_neg hqp]
    exact hw.tree.free q (by simp [h.free, hq])
  · obtain ⟨depth, hd⟩ := hw.tree.acyclic
    refine ⟨fun q => if q = p then depth c + 1 else depth q, fun q x hx => ?_⟩
    rw [h.child] at hx
    by_cases hqc : q = c
    · subst hqc
      rw [if_pos rfl, List.mem_cons] at hx
      simp only [if_neg hcp]
      rcases hx with rfl | hx
      · simp
      · have hxp : x ≠ p := fun he => hpc q (he ▸ hx)
        rw [if_neg hxp]
        exact hd q x hx
    · rw [if_neg hqc] at hx
      by_cases hqp : q = p
      · simp [hqp] at hx
      · rw [if_neg hqp] at hx
        have hxp : x ≠ p := fun he => hpc q (he ▸ hx)
        simp only [if_neg hqp, if_neg hxp]
        exact hd q x hx

theorem wf (h : Created a1 a2 a3 p c k k') (hw : WF k) : WF k' where
  places q := by
    rw [h.places_eq]
    exact hw.places q
  active := hw.active.congr h.asl.1 h.asl.2
  semAdd a q hq := by
    rw [h.waiters] at hq
    have hqp : q ≠ p := by
      rintro rfl
      have hpl := hw.places q
      have hb := List.count_pos_iff.mpr (hw.active.mem_blocked.mpr ⟨a, hq⟩)
      rw [Kernel.places, h.free, List.count_cons_self] at hpl
      omega
    rw [h.pcb, if_neg hqp]
    exact hw.semAdd a q hq
  tree := h.tree hw

end Created
end Create

end PandOSsh.Nucleus
