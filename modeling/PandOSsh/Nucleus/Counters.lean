import PandOSsh.Nucleus.Places

/-!
# The counters of the Nucleus

`processCount` counts the live processes and `softBlock_count` those queued on
`device_semaphores`, as long as the kills go by place, nobody is charged to a
device semaphore that has let him go, and the device semaphores are left to
the Nucleus. So the end of `dispatch` tells the truth about the processes.
-/

namespace PandOSsh.Nucleus
open Library

theorem card_insert_if {s t : Finset Pcb} {p : Pcb} {c : Prop} [Decidable c] (hp : p ∉ s)
    (h : ∀ q, q ∈ t ↔ (q = p ∧ c) ∨ q ∈ s) : t.card = s.card + if c then 1 else 0 := by
  by_cases hc : c
  · have ht : t = insert p s := by
      ext q
      rw [h, Finset.mem_insert, and_iff_left hc]
    rw [ht, Finset.card_insert_of_notMem hp, if_pos hc]
  · have ht : t = s := by
      ext q
      rw [h, or_iff_right fun hq => hc hq.2]
    rw [ht, if_neg hc, Nat.add_zero]

theorem devNo_lt {bitmap : Word} {dev : ℕ} (h : devNo bitmap = some dev) : dev < 8 :=
  List.mem_range.mp (List.mem_of_find?_eq_some h)

theorem served_index {n i : ℕ} {devs : Word → Word} {ackAddr status : Word} (hn : n ≤ 7)
    (h : served n devs = some (ackAddr, i, status)) : i < nSuppSem := by
  obtain ⟨dev, hdev, h⟩ := Option.bind_eq_some_iff.mp h
  have hlt := devNo_lt hdev
  unfold nSuppSem
  by_cases h7 : n = 7
  · simp only [if_pos h7] at h
    split at h
    · simp only [Option.some.injEq, Prod.mk.injEq] at h
      omega
    · split at h
      · simp only [Option.some.injEq, Prod.mk.injEq] at h
        omega
      · cases h
  · simp only [if_neg h7, Option.some.injEq, Prod.mk.injEq] at h
    omega

section Lists
variable [Layout]
variable {k k' : Kernel Lists} {key : Word} {p q : Pcb}

/-- The processes queued on an element of `device_semaphores`. -/
def softBlocked (k : Kernel Lists) : Finset Pcb :=
  Finset.univ.filter fun q => q ∈ k.lists.blocked ∧ isDeviceSemaphore (k.pcb q).pSemAdd = true

theorem mem_softBlocked : q ∈ softBlocked k ↔
    q ∈ k.lists.blocked ∧ isDeviceSemaphore (k.pcb q).pSemAdd = true := by
  simp [softBlocked]

theorem softBlocked_congr (hb : k'.lists.blocked = k.lists.blocked)
    (hs : ∀ q ∈ k.lists.blocked, (k'.pcb q).pSemAdd = (k.pcb q).pSemAdd) :
    softBlocked k' = softBlocked k := by
  ext q
  rw [mem_softBlocked, mem_softBlocked, hb]
  exact and_congr_right fun hq => by rw [hs q hq]

theorem Blocked.card_softBlocked (h : Blocked key p k k') (hw : WF k) :
    (softBlocked k').card = (softBlocked k).card + if isDeviceSemaphore key then 1 else 0 := by
  have hp := hw.not_blocked h.curr
  refine card_insert_if (fun hm => hp (mem_softBlocked.mp hm).1) fun q => ?_
  have hb : q ∈ k'.lists.blocked ↔ q = p ∨ q ∈ k.lists.blocked := by
    rw [h.queues.blocked.mem_iff, List.mem_cons]
  rw [mem_softBlocked, mem_softBlocked, hb, h.pcb]
  by_cases hq : q = p
  · simp [hq, hp]
  · simp [hq]

theorem Woken.card_softBlocked {s : ProcessorState} (h : Woken key p s k k') (hw : WF k) :
    (softBlocked k).card = (softBlocked k').card + if isDeviceSemaphore key then 1 else 0 := by
  obtain ⟨v, hv, hl⟩ := h.queues
  have hb' : k'.lists.blocked = v.blocked := by rw [hl]; rfl
  have hp := h.not_blocked hw
  have hkey : (k.pcb p).pSemAdd = key := hw.semAdd key p (List.mem_of_mem_head? h.head)
  refine card_insert_if (fun hm => hp (mem_softBlocked.mp hm).1) fun q => ?_
  have hb : q ∈ k.lists.blocked ↔ q = p ∨ q ∈ k'.lists.blocked := by
    rw [hv.blocked.mem_iff, List.mem_cons, hb']
  rw [mem_softBlocked, mem_softBlocked, hb, h.pcb]
  by_cases hq : q = p
  · simp [hq, hp, hkey]
  · simp [hq]

theorem Dispatched.softBlocked_eq (h : Dispatched k k') : softBlocked k' = softBlocked k := by
  cases h <;> exact softBlocked_congr rfl fun _ _ => rfl

theorem Requeued.softBlocked_eq {t : Word} (h : Requeued p t k k') :
    softBlocked k' = softBlocked k := by
  refine softBlocked_congr (by rw [h.frame]; rfl) fun q _ => ?_
  rw [h.pcb]
  split
  · next hq => rw [hq]
  · rfl

theorem Created.softBlocked_eq {a1 a2 a3 : Word} {c : Pcb} (h : Created a1 a2 a3 p c k k')
    (hw : WF k) : softBlocked k' = softBlocked k := by
  refine softBlocked_congr h.blocked fun q hq => ?_
  have hqp : q ≠ p := by
    rintro rfl
    exact hw.not_free_of_blocked hq (by simp [h.free])
  rw [h.pcb, if_neg hqp]

/-- When all the killed processes that are charged to a device wait there, as
many leave as are subtracted. -/
theorem Killed.card_softBlocked {D : Finset Pcb} (h : Killed p D k k') (hw : WF k)
    (hD : ∀ q ∈ D, SoftKilled k q → q ∈ k.lists.blocked) :
    (softBlocked k').card + (D.filter (SoftKilled k)).card = (softBlocked k).card := by
  have hleft : softBlocked k' = softBlocked k \ D := by
    ext q
    rw [mem_softBlocked, h.mem_blocked, h.pcb, Finset.mem_sdiff, mem_softBlocked]
    by_cases hq : q ∈ D <;> simp [hq]
  have hgone : D.filter (SoftKilled k) = softBlocked k ∩ D := by
    ext q
    rw [Finset.mem_filter, Finset.mem_inter, mem_softBlocked]
    constructor
    · exact fun hq => ⟨⟨hD q hq.1 hq.2, hq.2.2⟩, hq.1⟩
    · exact fun hq => ⟨hq.2, fun hc => hw.not_blocked hc hq.1.1, hq.1.2⟩
  rw [hleft, hgone, Finset.card_sdiff_add_card_inter]

/-- `softBlock_count` counts the processes on the device semaphores. -/
def SoftExact (k : Kernel Lists) : Prop := k.softBlockCount = (softBlocked k).card

theorem Dispatched.softExact (h : Dispatched k k') (hs : SoftExact k) : SoftExact k' := by
  rw [SoftExact, h.softBlocked_eq, ← hs]
  cases h <;> rfl

theorem Resumed.softExact (h : Resumed k k') (hs : SoftExact k) : SoftExact k' := by
  cases h with
  | ldst => exact hs
  | dispatch _ hd => exact hd.softExact hs

theorem Requeued.softExact {t : Word} (h : Requeued p t k k') (hs : SoftExact k) :
    SoftExact k' := by
  rw [SoftExact, h.softBlocked_eq, ← hs]
  exact (congrArg KernelData.softBlockCount h.data :)

theorem Created.softExact {a1 a2 a3 : Word} {c : Pcb} (h : Created a1 a2 a3 p c k k')
    (hw : WF k) (hs : SoftExact k) : SoftExact k' := by
  rw [SoftExact, h.softBlocked_eq hw, ← hs]
  exact (congrArg KernelData.softBlockCount h.data :)

theorem Killed.softExact {D : Finset Pcb} (h : Killed p D k k') (hw : WF k)
    (hD : ∀ q, Descendant k.lists p q → SoftKilled k q → q ∈ k.lists.blocked)
    (hs : SoftExact k) : SoftExact k' := by
  have hc := h.card_softBlocked hw fun q hq => hD q (h.mem_iff.mp hq)
  rw [SoftExact, h.data, hs, ← hc]
  push_cast
  omega

/-- NSYS3 on a semaphore of user memory. -/
theorem Blocked.softExact (h : Blocked key p k k') (hw : WF k)
    (hkey : isDeviceSemaphore key = false) (hs : SoftExact k) : SoftExact k' := by
  have hc := h.card_softBlocked hw
  rw [hkey, if_neg Bool.false_ne_true, Nat.add_zero] at hc
  rw [SoftExact, hc, ← hs]
  exact (congrArg KernelData.softBlockCount h.data :)

/-- NSYS5 and NSYS7 count before they block. -/
theorem Blocked.softExact_device
    (h : Blocked key p { k with softBlockCount := k.softBlockCount + 1 } k') (hw : WF k)
    (hkey : isDeviceSemaphore key = true) (hs : SoftExact k) : SoftExact k' := by
  have hc := h.card_softBlocked (hw.data rfl rfl)
  have heq : softBlocked { k with softBlockCount := k.softBlockCount + 1 } = softBlocked k := rfl
  have hcount : k'.softBlockCount = k.softBlockCount + 1 :=
    (congrArg KernelData.softBlockCount h.data :)
  rw [if_pos hkey, heq] at hc
  rw [SoftExact, hc, hcount, hs]
  rfl

/-- NSYS4 on a semaphore of user memory. -/
theorem Woken.softExact {s : ProcessorState} (h : Woken key p s k k') (hw : WF k)
    (hkey : isDeviceSemaphore key = false) (hd : k'.softBlockCount = k.softBlockCount)
    (hs : SoftExact k) : SoftExact k' := by
  have hc := h.card_softBlocked hw
  rw [hkey, if_neg Bool.false_ne_true, Nat.add_zero] at hc
  rw [SoftExact, hd, hs, hc]

theorem Woken.softExact_device {s : ProcessorState} (h : Woken key p s k k') (hw : WF k)
    (hkey : isDeviceSemaphore key = true) (hd : k'.softBlockCount = k.softBlockCount - 1)
    (hs : SoftExact k) : SoftExact k' := by
  have hc := h.card_softBlocked hw
  rw [if_pos hkey] at hc
  rw [SoftExact, hd, hs, hc]
  push_cast
  omega

theorem WokenAll.softExact (h : WokenAll key k k') (hw : WF k)
    (hkey : isDeviceSemaphore key = true) (hs : SoftExact k) : SoftExact k' := by
  induction h with
  | done => exact hs
  | wake h hd _ ih =>
      exact ih (h.wf hw) (h.softExact_device hw hkey (by rw [hd]) hs)

theorem Signalled.softExact {i : ℕ} {status : Word} (h : Signalled i status k k') (hw : WF k)
    (hi : i < nrSemaphores) (hs : SoftExact k) : SoftExact k' := by
  cases h with
  | empty => exact hs
  | wake h hd =>
      have hkey := isDeviceSemaphore_deviceSemaphore (Int.natCast_nonneg i) (Int.ofNat_lt.mpr hi)
      exact h.softExact_device hw hkey (by rw [hd]) hs

theorem isDeviceSemaphore_pseudoClockSem : isDeviceSemaphore pseudoClockSem = true :=
  isDeviceSemaphore_deviceSemaphore (by decide) (by decide)

theorem Effect.softExact {a : Action} (h : Effect a k k') (hw : WF k)
    (hdev : ∀ n, a = .device n → n ≤ 7)
    (hsem : ∀ a1, a = .passeren a1 ∨ a = .verhogen a1 → isDeviceSemaphore a1 = false)
    (hreg : ∀ a1 a2, a = .doio a1 a2 → 0 ≤ semIndex a1 ∧ semIndex a1 < nrSemaphores)
    (hkill : ∀ p, victim a k = some p → ∀ q, Descendant k.lists p q → SoftKilled k q →
      q ∈ k.lists.blocked)
    (hs : SoftExact k) : SoftExact k' := by
  cases h with
  | plt h hd | yield h hd => exact hd.softExact (h.softExact hs)
  | itIdle hc h hd => exact hd.softExact (h.softExact hw isDeviceSemaphore_pseudoClockSem hs)
  | it h hr hd =>
      have h1 := h.softExact hw isDeviceSemaphore_pseudoClockSem hs
      exact hd.softExact (hr.softExact h1)
  | deviceNone h hr => exact hr.softExact hs
  | device h hg hr =>
      have hi := (served_index (hdev _ rfl) h).trans (show nSuppSem < nrSemaphores by decide)
      exact hr.softExact (hg.softExact (hw.data rfl rfl) hi hs)
  | create h => exact h.softExact hw hs
  | term hv h hd => exact hd.softExact (h.softExact hw (hkill _ (victim_term hv)) hs)
  | die hc hn h hd =>
      exact hd.softExact (h.softExact hw (hkill _ (by simp [victim, hc, hn])) hs)
  | passeren _ h hd => exact hd.softExact (h.softExact hw (hsem _ (.inl rfl)) hs)
  | verhogen h hd =>
      exact h.softExact hw (hsem _ (.inr rfl)) (congrArg KernelData.softBlockCount hd :) hs
  | doio h hd =>
      obtain ⟨h0, h1⟩ := hreg _ _ rfl
      have hb := h.softExact_device hw (isDeviceSemaphore_deviceSemaphore h0 h1) hs
      exact hd.softExact hb
  | clockWait h hd =>
      exact hd.softExact (h.softExact_device hw isDeviceSemaphore_pseudoClockSem hs)
  | _ => exact hs

end Lists

section Processes
variable {k k' : Kernel Lists}

/-- `processCount` counts the PCBs that are not free. -/
def ProcessExact (k : Kernel Lists) : Prop := k.processCount + k.lists.free.length = maxProc

theorem ProcessExact.congr (h : ProcessExact k) (hf : k'.lists.free = k.lists.free)
    (hp : k'.processCount = k.processCount) : ProcessExact k' := by
  rw [ProcessExact, hf, hp]
  exact h

theorem Dispatched.processExact (h : Dispatched k k') (hk : ProcessExact k) :
    ProcessExact k' := hk.congr h.free (by cases h <;> rfl)

theorem Resumed.processExact (h : Resumed k k') (hk : ProcessExact k) : ProcessExact k' :=
  hk.congr h.free (by cases h with | ldst => rfl | dispatch _ hd => cases hd <;> rfl)

theorem Requeued.processExact {p : Pcb} {t : Word} (h : Requeued p t k k')
    (hk : ProcessExact k) : ProcessExact k' :=
  hk.congr h.free (congrArg KernelData.processCount h.data :)

theorem Blocked.processExact {key : Word} {p : Pcb} (h : Blocked key p k k')
    (hk : ProcessExact k) : ProcessExact k' :=
  hk.congr h.queues.free (congrArg KernelData.processCount h.data :)

theorem WokenAll.processExact {key : Word} (h : WokenAll key k k') (hk : ProcessExact k) :
    ProcessExact k' := by
  induction h with
  | done => exact hk
  | wake h hd _ ih => exact ih (hk.congr h.free (by rw [hd]))

theorem Created.processExact {a1 a2 a3 : Word} {p c : Pcb} (h : Created a1 a2 a3 p c k k')
    (hk : ProcessExact k) : ProcessExact k' := by
  have hl : k.lists.free.length = k'.lists.free.length + 1 := by rw [h.free, List.length_cons]
  have hp : k'.processCount = k.processCount + 1 := (congrArg KernelData.processCount h.data :)
  rw [ProcessExact, hl] at hk
  rw [ProcessExact, hp]
  push_cast at hk
  omega

theorem ProcessExact.ncard {live : Set Pcb} (h : ProcessExact k) (hw : WF k)
    (hl : ∀ q, q ∈ live ↔ q ∉ k.lists.free) : k.processCount = live.ncard := by
  have hn := hw.nodup.of_append_left.of_append_left.of_append_left
  have hlive : live = ↑(k.lists.free.toFinsetᶜ) := by
    ext q
    simp [hl]
  have hcard : k.lists.free.toFinset.card + (k.lists.free.toFinsetᶜ).card = maxProc :=
    (Finset.card_add_card_compl _).trans (Fintype.card_fin maxProc)
  rw [List.toFinset_card_of_nodup hn] at hcard
  rw [hlive, Set.ncard_coe_finset]
  rw [ProcessExact] at h
  omega

/-- The CPU runs a process, or `dispatch` has found none and has said why. -/
def Settled (k : Kernel Lists) : Prop :=
  k.cpu.isRunning = true ∨ k.lists.ready = [] ∧ k.cpu = idleCpu k.toKernelData

theorem Settled.halt (h : Settled k) (hc : k.cpu = .halt) : k.processCount = 0 := by
  rcases h with hr | ⟨-, hi⟩
  · exact absurd hr (by simp [hc, Cpu.isRunning])
  · rw [hc, idleCpu] at hi
    by_contra hp
    rw [if_neg hp] at hi
    split at hi <;> cases hi

theorem Settled.panic (h : Settled k) (hc : k.cpu = .panic) :
    k.lists.ready = [] ∧ k.processCount ≠ 0 ∧ k.softBlockCount ≤ 0 := by
  rcases h with hr | ⟨hready, hi⟩
  · exact absurd hr (by simp [hc, Cpu.isRunning])
  · rw [hc, idleCpu] at hi
    split at hi
    · cases hi
    · next hp =>
      split at hi
      · cases hi
      · next hs => exact ⟨hready, hp, Int.not_lt.mp hs⟩

theorem Dispatched.settled (h : Dispatched k k') : Settled k' := by
  cases h with
  | idle h => exact .inr ⟨h, rfl⟩
  | load p ps h => exact .inl rfl

theorem Resumed.settled (h : Resumed k k') : Settled k' := by
  cases h with
  | ldst => exact .inl rfl
  | dispatch _ hd => exact hd.settled

variable [Layout]

theorem Signalled.processExact {i : ℕ} {status : Word} (h : Signalled i status k k')
    (hk : ProcessExact k) : ProcessExact k' := by
  cases h with
  | empty => exact hk
  | wake h hd => exact hk.congr h.free (by rw [hd])

theorem Killed.processExact {p : Pcb} {D : Finset Pcb} (h : Killed p D k k')
    (hk : ProcessExact k) : ProcessExact k' := by
  obtain ⟨ds, hn, hds, hf⟩ := h.free
  have hl : ds.length = D.card := by
    rw [← List.toFinset_card_of_nodup hn]
    congr 1
    ext q
    rw [List.mem_toFinset, hds]
  rw [ProcessExact, hf, h.data, List.length_append, hl]
  rw [ProcessExact] at hk
  push_cast
  omega

theorem Effect.processExact {a : Action} (h : Effect a k k') (hk : ProcessExact k) :
    ProcessExact k' := by
  cases h with
  | plt h hd | yield h hd => exact hd.processExact (h.processExact hk)
  | itIdle hc h hd =>
      have h1 := h.processExact hk
      exact hd.processExact h1
  | it h hr hd =>
      have h1 := h.processExact hk
      exact hd.processExact (hr.processExact h1)
  | deviceNone h hr => exact hr.processExact hk
  | device h hg hr => exact hr.processExact (hg.processExact hk)
  | create h => exact h.processExact hk
  | term hv h hd => exact hd.processExact (h.processExact hk)
  | die hc hn h hd => exact hd.processExact (h.processExact hk)
  | passeren _ h hd => exact hd.processExact (h.processExact hk)
  | verhogen h hd => exact hk.congr h.free (congrArg KernelData.processCount hd :)
  | doio h hd =>
      have h1 := h.processExact hk
      exact hd.processExact h1
  | clockWait h hd =>
      have h1 := h.processExact hk
      exact hd.processExact h1
  | _ => exact hk

theorem Effect.settled {a : Action} (h : Effect a k k') : Settled k' := by
  cases h with
  | plt _ hd | itIdle _ _ hd | it _ _ hd | term _ _ hd | die _ _ _ hd | passeren _ _ hd
  | doio _ hd | clockWait _ hd | yield _ hd => exact hd.settled
  | deviceNone _ hr | device _ _ hr => exact hr.settled
  | _ => exact .inl rfl

end Processes

section Conditions
variable {Q : Type} [QueueApi Q] [Layout]

/-- A killed process whose `p_semAdd` is a device semaphore is queued, unless it
is on the CPU. -/
def KillsCharged (k : Kernel Q) (e : Entry) : Prop :=
  ∀ p, victim (action e) k = some p → ∀ q, InSubtree k p q → k.currProc ≠ some q →
    isDeviceSemaphore (k.pcb q).pSemAdd = true → IsBlocked k q

/-- NSYS3 and NSYS4 leave the device semaphores alone. -/
def SparesDevices (e : Entry) : Prop :=
  ∀ a1, action e = .passeren a1 ∨ action e = .verhogen a1 → isDeviceSemaphore a1 = false

/-- NSYS5 gets an address whose index is in `device_semaphores`. -/
def ValidIndex (e : Entry) : Prop :=
  ∀ a1 a2, action e = .doio a1 a2 → 0 ≤ semIndex a1 ∧ semIndex a1 < nrSemaphores

/-- The conditions under which the counters are exact. -/
structure Countable (k : Kernel Q) (e : Entry) : Prop where
  byPlace : KillsByPlace k e
  charged : KillsCharged k e
  index : ValidIndex e
  waitsAlone : WaitsAlone k e

end Conditions

section Exact
variable [Layout]

/-- The processes queued on device semaphores. -/
def onDevices (asl : List (Word × List Pcb)) : List Pcb :=
  (asl.filter fun x => isDeviceSemaphore x.1).flatMap Prod.snd

/-- Both counters are exact, and `dispatch` halts and panics for a reason. -/
def CountsExactly (k : Kernel Pointers) (live : Set Pcb) : Prop :=
  k.processCount = live.ncard ∧
    ∃ asl, Pointer.active k.store = some asl ∧ k.softBlockCount = (onDevices asl).length ∧
      (k.cpu = .halt → live = ∅) ∧
      (k.cpu = .panic → live.Nonempty ∧ QueueApi.ready k.store = some [] ∧ onDevices asl = [])

variable {k : Kernel Pointers} {l : Kernel Lists} {live : Set Pcb}

theorem length_onDevices (hw : WF l) :
    (onDevices (l.lists.asl.map fun d => (d.key, d.procq))).length = (softBlocked l).card := by
  have hsub : (onDevices (l.lists.asl.map fun d => (d.key, d.procq))).Sublist
      l.lists.blocked := by
    rw [onDevices, ← l.lists.queues_blocked]
    exact List.filter_sublist.flatMap _
  have hn := hsub.nodup hw.nodup.of_append_left.of_append_right
  rw [← List.toFinset_card_of_nodup hn]
  congr 1
  ext q
  rw [List.mem_toFinset, mem_softBlocked, onDevices, Lists.blocked]
  simp only [List.mem_flatMap, List.mem_filter, List.mem_map]
  constructor
  · rintro ⟨_, ⟨⟨d, hd, rfl⟩, hkey⟩, hq⟩
    refine ⟨⟨d, hd, hq⟩, ?_⟩
    rwa [hw.semAdd d.key q (by rwa [hw.active.waiters_mem hd])]
  · rintro ⟨⟨d, hd, hq⟩, hkey⟩
    rw [hw.semAdd d.key q (by rwa [hw.active.waiters_mem hd])] at hkey
    exact ⟨_, ⟨⟨d, hd, rfl⟩, hkey⟩, hq⟩

/-- What `CountsExactly` needs on lists. -/
structure Counted (l : Kernel Lists) : Prop where
  process : ProcessExact l
  soft : SoftExact l
  settled : Settled l

theorem Booted.counted {b : BootImage} {p : Pcb} (h : Booted b p l) : Counted l where
  process := by
    have hl := congrArg List.length h.free
    rw [List.length_cons, List.length_reverse, List.length_finRange] at hl
    have hp : l.processCount = 1 := (congrArg KernelData.processCount h.data :)
    rw [ProcessExact, hp]
    omega
  soft := by
    have hb : l.lists.blocked = [] := by rw [Lists.blocked, h.asl.1]; rfl
    have hs : softBlocked l = ∅ := by
      ext q
      simp [mem_softBlocked, hb]
    rw [SoftExact, hs]
    exact (congrArg KernelData.softBlockCount h.data :)
  settled := .inl (by rw [h.data]; rfl)

theorem KillsCharged.lists {e : Entry} (h : KernelRel k l) (hk : KillsCharged k e) :
    KillsCharged l e := by
  intro p hv q hq hc hs
  obtain ⟨ps, hps, hm⟩ := hk p (victim_pointers h hv) q (hq.pointers h)
    (fun he => hc ((congrArg KernelData.currProc h.data).symm.trans he)) (by rwa [h.pcb])
  exact ⟨ps, h.store.blocked.symm.trans hps, hm⟩

theorem Countable.lists {e : Entry} (h : KernelRel k l) (hc : Countable k e) : Countable l e :=
  ⟨hc.byPlace.lists h, hc.charged.lists h, hc.index, by
    rw [WaitsAlone, ← h.data]
    exact hc.waitsAlone⟩

theorem counted (h : ((nucleus Lists).restrict fun k e =>
    SparesDevices e ∧ Countable k e).Reachable l) : Counted l := by
  refine h.invariant (I := Counted) ?_ ?_
  · intro l hl
    obtain ⟨b, hb⟩ := init_booted hl
    exact hb.counted
  · intro l e l' hr hi hs
    have hsound := sound_of_reachable (fun _ _ hc => hc.2.byPlace) hr
    have he := (step_effect (fun _ _ hc => hc.2.byPlace) hsound hs).1
    refine ⟨he.processExact hi.process, ?_, he.settled⟩
    refine he.softExact (hsound.wf.data rfl rfl) (fun n hn => (action_device hn).2) hs.1.1
      hs.1.2.index (fun p hv q hq hsoft => ?_) hi.soft
    obtain ⟨ps, hps, hm⟩ := hs.1.2.charged p hv q (hsound.wf.inSubtree_iff.mpr hq) hsoft.1 hsoft.2
    exact Option.some.inj hps ▸ hm

theorem counts_exactly (h : (withLive ((nucleus Pointers).restrict fun k e =>
    SparesDevices e ∧ Countable k e)).Reachable (k, live)) : CountsExactly k live := by
  have hkill : ∀ (l : Kernel Lists) (e : Entry), SparesDevices e ∧ Countable l e →
      KillsByPlace l e := fun _ _ hc => hc.2.byPlace
  obtain ⟨⟨l, _⟩, hl, hr, rfl⟩ :=
    (live_refines hkill fun _ _ _ hr _ hc => ⟨hc.1, hc.2.lists hr⟩).reachable h
  have hw := (sound_of_reachable (fun _ _ hc => hc.2.byPlace) hl.fst).wf
  have hc := counted hl.fst
  have hp : l.processCount = live.ncard :=
    hc.process.ncard hw (live_iff (fun _ _ hc => hc.2.byPlace) hl)
  have hsoft : l.softBlockCount =
      (onDevices (l.lists.asl.map fun d => (d.key, d.procq))).length :=
    hc.soft.trans (congrArg Nat.cast (length_onDevices hw).symm)
  have hdata : k.toKernelData = l.toKernelData := hr.data
  refine ⟨by rw [hdata]; exact hp, _, hr.store.active, by rw [hdata]; exact hsoft, ?_, ?_⟩
  · intro hcpu
    have h0 := hc.settled.halt ((congrArg KernelData.cpu hdata).symm.trans hcpu)
    rw [hp] at h0
    exact (Set.ncard_eq_zero (Set.toFinite live)).mp (by exact_mod_cast h0)
  · intro hcpu
    obtain ⟨hready, hcount, hs⟩ :=
      hc.settled.panic ((congrArg KernelData.cpu hdata).symm.trans hcpu)
    refine ⟨?_, hr.store.ready.trans (congrArg some hready), ?_⟩
    · have hpos : live.ncard ≠ 0 := fun h0 => hcount (hp.trans (by rw [h0]; rfl))
      exact (Set.ncard_pos (Set.toFinite live)).mp (Nat.pos_of_ne_zero hpos)
    · have hle : l.softBlockCount ≤ 0 := hs
      refine List.length_eq_zero_iff.mp ?_
      change (onDevices (l.lists.asl.map fun d => (d.key, d.procq))).length = 0
      omega

end Exact

section Concrete

/-- A child waits for the clock, is woken, and is killed while it is ready:
`softBlock_count` is decremented a second time. -/
theorem charged_twice : ¬ ∀ (_ : Layout) (k : Kernel Pointers) (live : Set Pcb),
    (withLive ((nucleus Pointers).restrict fun _ e => SparesDevices e)).Reachable (k, live) →
      CountsExactly k live := by
  intro h
  let run := bareRun (fun _ e => match action e with
      | .passeren _ | .verhogen _ => false
      | _ => true)
    [request 0 createProcess 0, request 0 yield 0, request 0 clockWait 0, tick 0,
      request 0 yield 0, request 0 termProcess 0]
  have hrun : run.isSome = true := by decide +kernel
  have hcount : (run.all fun k =>
      k.softBlockCount = -1 ∧ Pointer.active k.store = some []) = true := by decide +kernel
  obtain ⟨k, hk⟩ := Option.isSome_iff_exists.mp hrun
  rw [hk] at hcount
  obtain ⟨hsoft, hactive⟩ := of_decide_eq_true hcount
  have hreach : ((@nucleus ramLayout Pointers _).restrict fun _ e =>
      @SparesDevices ramLayout e).Reachable k := by
    refine bareRun_restrict (fun k e hP a1 ha => ?_) hk
    rcases ha with ha | ha <;> rw [ha] at hP <;> cases hP
  obtain ⟨live, hlive⟩ := hreach.exists_history
  obtain ⟨-, asl, hasl, hs, -⟩ := h ramLayout k live hlive
  rw [hactive, Option.some.injEq] at hasl
  rw [hsoft, ← hasl] at hs
  cases hs

/-- At a kill, who has the `p_semAdd` of a device is current or waits there. -/
def onDeviceQueues (k : Kernel Pointers) (e : Entry) : Bool :=
  (victim (action e) k).isNone || (QueueApi.blocked k.store).any fun ps =>
    (List.finRange maxProc).all fun q =>
      k.currProc == some q || !@isDeviceSemaphore ramLayout (k.pcb q).pSemAdd || ps.contains q

theorem KillsCharged.of_charged {k : Kernel Pointers} {e : Entry} (h : onDeviceQueues k e = true) :
    @KillsCharged Pointers _ ramLayout k e := by
  rintro p hv q - hc hsem
  rw [onDeviceQueues, hv, Option.isNone_some, Bool.false_or] at h
  obtain ⟨ps, hps, hall⟩ := (Option.any_eq_true _ _).mp h
  have hq := List.all_eq_true.mp hall q (List.mem_finRange q)
  rw [hsem, Bool.not_true, Bool.or_false, Bool.or_eq_true, beq_iff_eq, List.contains_iff_mem] at hq
  exact ⟨ps, hps, hq.resolve_left hc⟩

/-- A process waits for the clock and is killed there, and its ready child with it. -/
theorem counts_exactly_run : ∃ k live, bareRun (fun k e =>
      tidy k && onDeviceQueues k e && match action e with
      | .createProcess _ _ _ | .yield | .clockWait | .termProcess _ | .it => true
      | _ => false) (killEvents (request 0 clockWait 0) ++ [tick 0]) = some k ∧
      @CountsExactly ramLayout k live := by
  let := ramLayout
  obtain ⟨k, hk⟩ := Option.isSome_iff_exists.mp (show (bareRun
    (fun k e => tidy k && onDeviceQueues k e && match action e with
      | .createProcess _ _ _ | .yield | .clockWait | .termProcess _ | .it => true
      | _ => false) (killEvents (request 0 clockWait 0) ++ [tick 0])).isSome = true
      by decide +kernel)
  have hreach : ((nucleus Pointers).restrict fun k e =>
      SparesDevices e ∧ Countable k e).Reachable k := by
    refine bareRun_restrict (fun k e hP => ?_) hk
    rw [Bool.and_eq_true, Bool.and_eq_true] at hP
    obtain ⟨⟨htidy, hcharged⟩, hact⟩ := hP
    obtain ⟨hplace, hwait⟩ := byPlace_of_tidy (e := e) htidy
    refine ⟨fun a1 ha => ?_, hplace, .of_charged hcharged, fun a1 a2 ha => ?_, hwait⟩
    · rcases ha with ha | ha <;> rw [ha] at hact <;> cases hact
    · rw [ha] at hact
      cases hact
  obtain ⟨live, hlive⟩ := hreach.exists_history
  exact ⟨k, live, hk, counts_exactly hlive⟩

end Concrete
end PandOSsh.Nucleus
