import PandOSsh.Nucleus.Exceptions
import PandOSsh.Phase1.Queues

/-!
# The invariant of the Nucleus on lists

`WF` is what every kernel entry may rely on: no PCB is in two places, the
active semaphores are sound queues, a waiter's `p_semAdd` names its queue, and
parents and children agree. A process may be in no place at all: the caller of
an NSYS2 that kills a stranger is lost, and `WF` survives that.

For each function of the Nucleus that moves a process there is one structure
that says everything it does, a lemma that the function does it, and a lemma
that `WF` survives it.
-/

namespace PandOSsh

namespace Kernel
variable (k : Kernel Lists)

def lists : Lists := k.store.lists

def setLists (v : Lists) (k : Kernel Lists) : Kernel Lists :=
  { k with store := Lists.setLists k.store v }

@[simp] theorem setLists_lists (v : Lists) : (k.setLists v).lists = v := rfl
@[simp] theorem setLists_pcb (v : Lists) : (k.setLists v).pcb = k.pcb := rfl
@[simp] theorem setLists_data (v : Lists) : (k.setLists v).toKernelData = k.toKernelData := rfl
@[simp] theorem lists_setPcb (p : Pcb) (f : PcbFields) : (k.setPcb p f).lists = k.lists := rfl

/-- The number of places that hold `p`: the free list, the ready queue, the
semaphore queues and the CPU. -/
def places (p : Pcb) : ℕ :=
  k.lists.free.count p + k.lists.ready.count p + k.lists.blocked.count p +
    k.currProc.toList.count p

end Kernel

/-- Parents and children agree, and the free PCBs are outside the tree. -/
structure Tree (v : Lists) (parent : Pcb → Option Pcb) : Prop where
  nodup : ∀ p, (v.child p).Nodup
  child_iff : ∀ p c, c ∈ v.child p ↔ parent c = some p
  free : ∀ p ∈ v.free, v.child p = [] ∧ parent p = none
  acyclic : ∃ depth : Pcb → ℕ, ∀ p c, c ∈ v.child p → depth p < depth c

theorem Tree.congr {v v' : Lists} {f g : Pcb → Option Pcb} (h : Tree v f)
    (hc : v'.child = v.child) (hf : v'.free = v.free) (hp : ∀ q, g q = f q) : Tree v' g := by
  obtain rfl : g = f := funext hp
  exact ⟨by rw [hc]; exact h.nodup, by rw [hc]; exact h.child_iff, by rw [hc, hf]; exact h.free,
    by rw [hc]; exact h.acyclic⟩

namespace Nucleus

structure WF (k : Kernel Lists) : Prop where
  places : ∀ p, k.places p ≤ 1
  active : k.lists.Active
  semAdd : ∀ a, ∀ p ∈ k.lists.waiters a, (k.pcb p).pSemAdd = a
  tree : Tree k.lists fun p => (k.pcb p).pParent

namespace WF
variable {k k' : Kernel Lists} {p q : Pcb}

/-- `WF` reads the lists, the current process and two fields of each PCB. -/
theorem congr (h : WF k) (hl : k'.lists = k.lists) (hc : k'.currProc = k.currProc)
    (hp : ∀ q, (k'.pcb q).pSemAdd = (k.pcb q).pSemAdd ∧
      (k'.pcb q).pParent = (k.pcb q).pParent) : WF k' where
  places q := by
    rw [Kernel.places, hl, hc]
    exact h.places q
  active := by rw [hl]; exact h.active
  semAdd a q hq := by
    rw [hl] at hq
    rw [(hp q).1]
    exact h.semAdd a q hq
  tree := by
    rw [hl, funext fun q => (hp q).2]
    exact h.tree

/-- Only the lists and the current process matter of the globals. -/
theorem data (h : WF k) (hs : k'.store = k.store) (hc : k'.currProc = k.currProc) : WF k' :=
  h.congr (congrArg Store.lists hs) hc fun q =>
    ⟨by rw [Kernel.pcb, hs]; rfl, by rw [Kernel.pcb, hs]; rfl⟩

theorem not_queued (h : WF k) (hc : k.currProc = some p) : p ∉ k.lists.queued := by
  have hp := h.places p
  simp only [Kernel.places, hc, Option.toList_some, List.count_singleton_self] at hp
  intro hm
  rw [← List.count_pos_iff, Lists.queued, List.count_append, List.count_append] at hm
  omega

theorem not_free (h : WF k) (hc : k.currProc = some p) : p ∉ k.lists.free := fun hf =>
  h.not_queued hc (by simp [Lists.queued, hf])

theorem not_free_of_blocked (hw : WF k) (hb : q ∈ k.lists.blocked) : q ∉ k.lists.free := by
  intro hf
  have hle := hw.places q
  have hpos := List.count_pos_iff.mpr hf
  have hpos' := List.count_pos_iff.mpr hb
  rw [Kernel.places] at hle
  omega

theorem not_blocked (hw : WF k) (hc : k.currProc = some p) : p ∉ k.lists.blocked := fun hb =>
  hw.not_queued hc (by simp [Lists.queued, hb])

/-- Lists without repetition are short. -/
theorem blocked_length (h : WF k) (hp : p ∉ k.lists.blocked) :
    k.lists.blocked.length < maxProc := by
  have hnd : k.lists.blocked.Nodup := by
    rw [List.nodup_iff_count_le_one]
    intro q
    have hq := h.places q
    simp only [Kernel.places] at hq
    omega
  have hl := (List.nodup_cons.mpr ⟨hp, hnd⟩).length_le_card
  rw [Fintype.card_fin, List.length_cons] at hl
  omega

end WF

section Blocking
variable {k k' : Kernel Lists} {p : Pcb} {key : Word}

/-- The current process `p` has been queued on `key` and has left the CPU. -/
structure Blocked (key : Word) (p : Pcb) (k k' : Kernel Lists) : Prop where
  curr : k.currProc = some p
  data : k'.toKernelData = { k.toKernelData with currProc := none }
  nextPid : k'.store.nextPid = k.store.nextPid
  pcb : ∀ q, k'.pcb q = if q = p then { k.pcb p with
    pS := k.exc, pTime := (k.pcb p).pTime + (k.now - k.todStart), pSemAdd := key } else k.pcb q
  queues : Lists.Active.Enqueued key p k.lists k'.lists

theorem blockCurrent_spec (h : WF k) (hc : k.currProc = some p) (key : Word) :
    ∃ k', blockCurrent key k = some k' ∧ Blocked key p k k' := by
  have hq := h.not_queued hc
  have hb := h.blocked_length (p := p) fun hm => hq (by simp [Lists.queued, hm])
  obtain ⟨v', hi, hv⟩ := Lists.Active.insertBlocked_spec
    (s := ((k.saveState p).chargeTime p).store) h.active hq hb key
  have hrun : blockCurrent key k = some { (k.saveState p).chargeTime p with
      store := (Lists.setLists ((k.saveState p).chargeTime p).store v').setPcb p
        { ((k.saveState p).chargeTime p).pcb p with pSemAdd := key }
      currProc := none } := by
    rw [blockCurrent, hc, Option.bind_some]
    exact congrArg (Option.map _) hi
  refine ⟨_, hrun, hc, rfl, rfl, ?_, hv⟩
  intro q
  change ((Lists.setLists _ v').setPcb p _).pcb q = _
  rw [Store.setPcb_pcb, Kernel.saveState_chargeTime_pcb, if_pos rfl]
  by_cases hqp : q = p
  · rw [if_pos hqp, if_pos hqp]
  · rw [if_neg hqp, if_neg hqp]
    exact (Kernel.saveState_chargeTime_pcb k p q).trans (if_neg hqp)

namespace Blocked

theorem currProc_eq (h : Blocked key p k k') : k'.currProc = none :=
  congrArg KernelData.currProc h.data

theorem places_eq (h : Blocked key p k k') (q : Pcb) : k'.places q = k.places q := by
  have hf : k'.lists.free = k.lists.free := h.queues.free
  have hr : k'.lists.ready = k.lists.ready := h.queues.ready
  have hc := h.currProc_eq
  have hb := h.queues.blocked.count_eq q
  rw [List.count_cons] at hb
  simp only [Kernel.places, hf, hr, hc, hb, h.curr, Option.toList_none, Option.toList_some,
    List.count_nil, List.count_singleton]
  omega

theorem wf (h : Blocked key p k k') (hw : WF k) : WF k' where
  places q := by
    rw [h.places_eq]
    exact hw.places q
  active := h.queues.active
  semAdd a q hq := by
    rw [h.queues.waiters] at hq
    rw [h.pcb]
    by_cases ha : a = key
    · rw [if_pos ha, List.mem_append, List.mem_singleton] at hq
      by_cases hqp : q = p
      · rw [if_pos hqp, ha]
      · rw [if_neg hqp, ha]
        exact hw.semAdd key q (hq.resolve_right hqp)
    · rw [if_neg ha] at hq
      have hqp : q ≠ p := fun he => hw.not_queued h.curr
        (by simp [Lists.queued, hw.active.mem_blocked.mpr ⟨a, he ▸ hq⟩])
      rw [if_neg hqp]
      exact hw.semAdd a q hq
  tree := by
    refine hw.tree.congr h.queues.child h.queues.free fun q => ?_
    rw [h.pcb]
    split
    · next hqp => rw [hqp]
    · rfl

end Blocked
end Blocking

section Dispatch
variable {k k' : Kernel Lists}

/-- What `dispatch` does when no process is ready. -/
def idleCpu (d : KernelData) : Cpu :=
  if d.processCount = 0 then .halt else if 0 < d.softBlockCount then .wait else .panic

theorem idleCpu_isRunning (d : KernelData) : (idleCpu d).isRunning = false := by
  unfold idleCpu
  split
  · rfl
  · split <;> rfl

inductive Dispatched (k : Kernel Lists) : Kernel Lists → Prop
  | idle (h : k.lists.ready = []) : Dispatched k { k with cpu := idleCpu k.toKernelData }
  | load (p : Pcb) (ps : List Pcb) (h : k.lists.ready = p :: ps) :
      Dispatched k (load p (k.setLists { k.lists with ready := ps }))

theorem dispatch_idle (h : k.lists.ready = []) :
    dispatch k = some { k with cpu := idleCpu k.toKernelData } := by
  have he : QueueApi.emptyProcQ k.store = true := congrArg List.isEmpty h
  rw [dispatch, if_pos he, idleCpu]
  split
  · rfl
  · split <;> rfl

theorem dispatch_load {p : Pcb} {ps : List Pcb} (h : k.lists.ready = p :: ps) :
    dispatch k = some (load p (k.setLists { k.lists with ready := ps })) := by
  have he : ¬ QueueApi.emptyProcQ k.store = true := by
    have : QueueApi.emptyProcQ k.store = false := congrArg List.isEmpty h
    simp [this]
  have hr : QueueApi.removeProcQ k.store =
      some (Lists.setLists k.store { k.lists with ready := ps }, some p) := by
    change Lists.removeProcQ k.store = _
    have h' : k.store.lists.ready = p :: ps := h
    rw [Lists.removeProcQ, h']
    rfl
  rw [dispatch, if_neg he, hr]
  rfl

theorem dispatch_spec (k : Kernel Lists) : ∃ k', dispatch k = some k' ∧ Dispatched k k' := by
  cases h : k.lists.ready with
  | nil => exact ⟨_, dispatch_idle h, .idle h⟩
  | cons p ps => exact ⟨_, dispatch_load h, .load p ps h⟩

/-- With a ready process, `dispatch` does not read the current one. -/
theorem dispatch_currProc (h : k.lists.ready ≠ []) (c : Option Pcb) :
    dispatch { k with currProc := c } = dispatch k := by
  obtain ⟨p, ps, hr⟩ := List.exists_cons_of_ne_nil h
  rw [dispatch_load hr, dispatch_load (k := { k with currProc := c }) hr]
  rfl

theorem Dispatched.wf (h : Dispatched k k') (hw : WF k) : WF k' := by
  cases h with
  | idle h => exact hw.congr rfl rfl fun q => ⟨rfl, rfl⟩
  | load p ps h =>
      refine ⟨fun q => ?_, hw.active.congr rfl rfl, hw.semAdd, hw.tree.congr rfl rfl fun _ => rfl⟩
      have hq := hw.places q
      have hl : (Nucleus.load p (k.setLists { k.lists with ready := ps })).places q =
          k.lists.free.count q + ps.count q + k.lists.blocked.count q + [p].count q := rfl
      rw [Kernel.places, h, List.count_cons] at hq
      rw [hl, List.count_singleton]
      omega

end Dispatch

section Ready
variable {k k' : Kernel Lists} {p : Pcb} {key : Word} {s : ProcessorState}

theorem byPrio_perm (d : PcbData) (p : Pcb) (ps : List Pcb) :
    (Lists.byPrio d p ps).Perm (p :: ps) :=
  List.perm_orderedInsert _ p ps

theorem insertProcQ_spec {s : Store Lists} (hp : p ∉ s.lists.queued) :
    QueueApi.insertProcQ p s = some (Lists.setLists s
      { s.lists with ready := Lists.byPrio s.toPcbData p s.lists.ready }) := if_pos hp

/-- `p` has left the head of the queue of `key` for the ready queue, with the
processor state `s`. -/
structure Woken (key : Word) (p : Pcb) (s : ProcessorState) (k k' : Kernel Lists) : Prop where
  head : (k.lists.waiters key).head? = some p
  curr : k'.currProc = k.currProc
  nextPid : k'.store.nextPid = k.store.nextPid
  pcb : ∀ q, k'.pcb q = if q = p then { k.pcb p with pS := s } else k.pcb q
  queues : ∃ v, Lists.Active.Dropped key p k.lists v ∧
    k'.lists = { v with ready := Lists.byPrio k'.store.toPcbData p v.ready }

namespace Woken

theorem waiters (h : Woken key p s k k') (a : Word) : k'.lists.waiters a =
    if a = key then (k.lists.waiters key).tail else k.lists.waiters a := by
  obtain ⟨v, hv, hl⟩ := h.queues
  have hw : k'.lists.waiters a = v.waiters a := by rw [hl]; rfl
  rw [hw, hv.waiters]
  obtain ⟨ps, hps⟩ := List.head?_eq_some_iff.mp h.head
  rw [hps, List.erase_cons_head, List.tail_cons]

theorem places_eq (h : Woken key p s k k') (q : Pcb) : k'.places q = k.places q := by
  obtain ⟨v, hv, hl⟩ := h.queues
  have hf : k'.lists.free = k.lists.free := by rw [hl]; exact hv.free
  have hr : k'.lists.ready.count q = (p :: k.lists.ready).count q := by
    rw [hl, ← hv.ready]
    exact (byPrio_perm _ p _).count_eq q
  have hb : k'.lists.blocked = v.blocked := by rw [hl]; rfl
  have hc := hv.blocked.count_eq q
  rw [List.count_cons] at hr hc
  simp only [Kernel.places, hf, hr, hb, h.curr, hc]
  omega

theorem wf (h : Woken key p s k k') (hw : WF k) : WF k' where
  places q := by
    rw [h.places_eq]
    exact hw.places q
  active := by
    obtain ⟨v, hv, hl⟩ := h.queues
    exact hv.active.congr (by rw [hl]) (by rw [hl])
  semAdd a q hq := by
    rw [h.waiters] at hq
    have hmem : q ∈ k.lists.waiters a := by
      split at hq
      · next ha => exact ha ▸ List.mem_of_mem_tail hq
      · exact hq
    rw [h.pcb]
    split
    · next hqp =>
      subst hqp
      exact hw.semAdd a q hmem
    · exact hw.semAdd a q hmem
  tree := by
    obtain ⟨v, hv, hl⟩ := h.queues
    refine hw.tree.congr (by rw [hl]; exact hv.child) (by rw [hl]; exact hv.free) fun q => ?_
    rw [h.pcb]
    split
    · next hqp => rw [hqp]
    · rfl

/-- A woken process does not wait on any semaphore. -/
theorem not_blocked (h : Woken key p s k k') (hw : WF k) :
    p ∉ k'.lists.blocked := by
  obtain ⟨v, hv, hl⟩ := h.queues
  have hb' : k'.lists.blocked = v.blocked := by rw [hl]; rfl
  have hle := hw.places p
  have hcount := hv.blocked.count_eq p
  rw [List.count_cons_self] at hcount
  rw [hb', ← List.count_eq_zero]
  rw [Kernel.places] at hle
  omega

end Woken

/-- The current process `p` has gone from the CPU to the ready queue, with its
state saved and the time `t`. -/
structure Requeued (p : Pcb) (t : Word) (k k' : Kernel Lists) : Prop where
  curr : k.currProc = some p
  data : k'.toKernelData = { k.toKernelData with currProc := none }
  nextPid : k'.store.nextPid = k.store.nextPid
  pcb : ∀ q, k'.pcb q = if q = p then { k.pcb p with pS := k.exc, pTime := t } else k.pcb q
  frame : k'.lists = { k.lists with ready := k'.lists.ready }
  ready : k'.lists.ready.Perm (p :: k.lists.ready)

namespace Requeued
variable {t : Word}

theorem currProc_eq (h : Requeued p t k k') : k'.currProc = none :=
  congrArg KernelData.currProc h.data

theorem places_eq (h : Requeued p t k k') (q : Pcb) : k'.places q = k.places q := by
  have hf : k'.lists.free = k.lists.free := by rw [h.frame]
  have hb : k'.lists.blocked = k.lists.blocked := by rw [h.frame]; rfl
  have hc := h.currProc_eq
  have hr := h.ready.count_eq q
  rw [List.count_cons] at hr
  simp only [Kernel.places, hf, hr, hb, hc, h.curr, Option.toList_none, Option.toList_some,
    List.count_nil, List.count_singleton]
  omega

theorem wf (h : Requeued p t k k') (hw : WF k) : WF k' where
  places q := by
    rw [h.places_eq]
    exact hw.places q
  active := hw.active.congr (by rw [h.frame]) (by rw [h.frame])
  semAdd a q hq := by
    have hq' : q ∈ k.lists.waiters a := by
      rw [h.frame] at hq
      exact hq
    rw [h.pcb]
    split
    · next hqp =>
      subst hqp
      exact hw.semAdd a q hq'
    · exact hw.semAdd a q hq'
  tree := by
    refine hw.tree.congr (by rw [h.frame]) (by rw [h.frame]) fun q => ?_
    rw [h.pcb]
    split
    · next hqp => rw [hqp]
    · rfl

end Requeued
end Ready

end Nucleus
end PandOSsh
