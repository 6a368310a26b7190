import PandOSsh.Nucleus.Counters
import PandOSsh.Nucleus.Scheduling
import PandOSsh.Nucleus.Waiting

/-!
# Context switches

The history of a run keeps, for each process, how it last left the CPU: the
action that took it, the state that the BIOS saved, and the device status that
it has been given since. Whatever happens in between, `p_s` of a process off
the CPU is that state: after a service the program counter is past the ECALL,
and after NSYS5 a0 is the status.
-/

namespace PandOSsh.Nucleus
open Library

/-- How a process last left the CPU. -/
structure Departure where
  action : Action
  exc : ProcessorState
  status : Option Word

/-- The timer interrupts, which return to the interrupted instruction. -/
def Action.isTimer : Action → Bool
  | .plt | .it => true
  | _ => false

namespace Departure

def viaDoio (x : Departure) : Bool :=
  match x.action with
  | .doio _ _ => true
  | _ => false

/-- The state to continue with. -/
def resumed (x : Departure) : ProcessorState :=
  let s := if x.action.isTimer then x.exc else { x.exc with pcEpc := x.exc.pcEpc + wordLen }
  x.status.elim s s.setA0

/-- The device status arrives. -/
def answer (status : Word) (x : Departure) : Departure := { x with status := some status }

theorem resumed_answer {x : Departure} {status : Word} (h : x.status = none) :
    (x.answer status).resumed = x.resumed.setA0 status := by
  unfold resumed answer
  rw [h]
  rfl

end Departure

/-- The last departure of each process. -/
abbrev Departures := Pcb → Option Departure

namespace Departures

def depart (a : Action) (exc : ProcessorState) (left : Departures) : Option Pcb → Departures
  | none => left
  | some p => Function.update left p (some ⟨a, exc, none⟩)

def answer (left : Departures) : Option (Pcb × Word) → Departures
  | none => left
  | some (q, status) => Function.update left q ((left q).map (Departure.answer status))

end Departures

/-- The process that an action takes the CPU from. -/
def taken {Q : Type} (a : Action) (k : Kernel Q) : Option Pcb :=
  if takesCpu a k then k.currProc else none

theorem taken_congr {Q Q' : Type} (a : Action) {k : Kernel Q} {l : Kernel Q'}
    (h : k.toKernelData = l.toKernelData) : taken a k = taken a l := by
  obtain ⟨d, s⟩ := k
  obtain ⟨d', s'⟩ := l
  obtain rfl : d = d' := h
  rfl

/-- The process that a device interrupt wakes, with the status. -/
def delivered [Layout] (a : Action) (d : KernelData) (qs : Queues) : Option (Pcb × Word) :=
  match a with
  | .device intLineNo => (served intLineNo d.dev).bind fun x =>
      (qs.waiters (deviceSemaphore x.2.1)).head?.map fun q => (q, x.2.2)
  | _ => none

section Decode

theorem service_isTimer (s : ProcessorState) : (service s).isTimer = false := by
  unfold service
  split_ifs <;> rfl

/-- The services that take the CPU are among those that advance the program counter. -/
theorem service_takesCpu {Q : Type} {k : Kernel Q} {s : ProcessorState}
    (h : takesCpu (service s) k) : -10 ≤ s.regA0.toInt ∧ s.regA0.toInt ≤ -1 := by
  unfold service at h
  split_ifs at h with h₁ h₂ h₃ h₄ h₅ h₆ h₇ h₈ h₉ h₁₀ <;>
    first
    | exact absurd h id
    | (rw [‹s.regA0 = _›]; decide)

theorem interrupt_isTimer {Q : Type} {k : Kernel Q} {code : Word}
    (h : takesCpu (interrupt code) k) : (interrupt code).isTimer = true := by
  unfold interrupt at *
  split_ifs at * <;> first | rfl | exact absurd h id

/-- What the handler of an entry that takes the CPU saves. -/
theorem decode_resumed {Q : Type} {k : Kernel Q} {e : Entry} (h : takesCpu (action e) k) :
    (decode e.exc).2 = (⟨action e, e.exc, none⟩ : Departure).resumed := by
  have hcases : ∀ a s, decode e.exc = (a, s) → takesCpu a k →
      s = if a.isTimer then e.exc else { e.exc with pcEpc := e.exc.pcEpc + wordLen } := by
    intro a s hd ha
    unfold decode at hd
    dsimp only at hd
    split at hd
    · obtain ⟨rfl, rfl⟩ := Prod.mk.inj hd
      rw [if_pos (interrupt_isTimer ha)]
    · split at hd
      · obtain ⟨rfl, rfl⟩ := Prod.mk.inj hd
        exact absurd ha id
      · split at hd
        · split at hd
          · obtain ⟨rfl, rfl⟩ := Prod.mk.inj hd
            exact absurd ha id
          · obtain ⟨rfl, rfl⟩ := Prod.mk.inj hd
            rw [if_pos (service_takesCpu ha), service_isTimer]
            rfl
        · obtain ⟨rfl, rfl⟩ := Prod.mk.inj hd
          exact absurd ha id
  exact hcases _ _ rfl h

end Decode

section Saved
variable [Layout] {k k' : Kernel Lists} {left : Departures} {p : Pcb} {key : Word} {a : Action}
  {exc : ProcessorState}

/-- `key` is the semaphore of a device. -/
def ofDevice (key : Word) : Prop := ∃ i : ℕ, i < nSuppSem ∧ key = deviceSemaphore i

/-- `p_s` of every process that has left the CPU is the state to continue with,
and a status comes to those who left through NSYS5, before they are ready. -/
structure Saved (left : Departures) (k : Kernel Lists) : Prop where
  state : ∀ q x, left q = some x → (k.pcb q).pS = x.resumed
  ready : ∀ q x, left q = some x → q ∉ k.lists.blocked → x.status.isSome = x.viaDoio
  waiting : ∀ key, ∀ q ∈ k.lists.waiters key, ∀ x, left q = some x →
    x.status = none ∧ (x.viaDoio = true ↔ ofDevice key)
  free : ∀ q ∈ k.lists.free, left q = none

theorem Saved.quiet (h : Saved left k) (hs : ∀ q, (k'.pcb q).pS = (k.pcb q).pS)
    (ha : k'.lists.asl = k.lists.asl) (hf : ∀ q ∈ k'.lists.free, q ∈ k.lists.free) :
    Saved left k' := by
  have hb : k'.lists.blocked = k.lists.blocked := congrArg (List.flatMap Desc.procq) ha
  constructor
  · intro q x hx
    rw [hs]
    exact h.state q x hx
  · rw [hb]
    exact h.ready
  · intro a
    rw [Lists.waiters_def, ha]
    exact h.waiting a
  · exact fun q hq => h.free q (hf q hq)

theorem Saved.globals (h : Saved left k) (hs : k'.store = k.store) : Saved left k' := by
  have hl : k'.lists = k.lists := congrArg Store.lists hs
  have hp : k'.pcb = k.pcb := congrArg (fun s : Store Lists => s.pcb) hs
  exact h.quiet (by simp [hp]) (by rw [hl]) (by simp [hl])

theorem Saved.dispatched (h : Saved left k) (hd : Dispatched k k') : Saved left k' := by
  cases hd with
  | idle => exact h.globals (by rfl)
  | load => exact h.quiet (fun _ => rfl) rfl fun _ hq => hq

/-- The current process `p` leaves the CPU, the others stay where they are. -/
theorem Saved.departed (h : Saved left k) (hw : WF k) (hp : k.currProc = some p)
    (hexc : k.exc = (⟨a, exc, none⟩ : Departure).resumed)
    (hs : ∀ q, (k'.pcb q).pS = if q = p then k.exc else (k.pcb q).pS)
    (hf : ∀ q ∈ k'.lists.free, q ∈ k.lists.free)
    (hb : ∀ q, q ≠ p → q ∈ k.lists.blocked → q ∈ k'.lists.blocked)
    (hwait : ∀ key q, q ≠ p → q ∈ k'.lists.waiters key → q ∈ k.lists.waiters key)
    (hready : p ∉ k'.lists.blocked → (⟨a, exc, none⟩ : Departure).viaDoio = false)
    (hkey : ∀ key, p ∈ k'.lists.waiters key →
      ((⟨a, exc, none⟩ : Departure).viaDoio = true ↔ ofDevice key)) :
    Saved (left.depart a exc (some p)) k' := by
  have hself : ∀ x, left.depart a exc (some p) p = some x → x = ⟨a, exc, none⟩ := by
    intro x hx
    rw [Departures.depart, Function.update_self, Option.some.injEq] at hx
    exact hx.symm
  have hother : ∀ q, q ≠ p → left.depart a exc (some p) q = left q := fun q hq =>
    Function.update_of_ne hq _ _
  constructor
  · intro q x hx
    rw [hs]
    by_cases hq : q = p
    · subst hq
      rw [if_pos rfl, hself x hx]
      exact hexc
    · rw [hother q hq] at hx
      rw [if_neg hq]
      exact h.state q x hx
  · intro q x hx hq
    by_cases hqp : q = p
    · subst hqp
      rw [hself x hx, hready hq]
      rfl
    · rw [hother q hqp] at hx
      exact h.ready q x hx fun hm => hq (hb q hqp hm)
  · intro key q hq x hx
    by_cases hqp : q = p
    · subst hqp
      rw [hself x hx]
      exact ⟨rfl, hkey key hq⟩
    · rw [hother q hqp] at hx
      exact h.waiting key q (hwait key q hqp hq) x hx
  · intro q hq
    have hqp : q ≠ p := fun he => hw.not_free hp (he ▸ hf q hq)
    rw [hother q hqp]
    exact h.free q (hf q hq)

theorem Saved.requeued {t : Word} (h : Saved left k) (hw : WF k) (hr : Requeued p t k k')
    (hexc : k.exc = (⟨a, exc, none⟩ : Departure).resumed)
    (hv : (⟨a, exc, none⟩ : Departure).viaDoio = false) :
    Saved (left.depart a exc (some p)) k' := by
  have hb : k'.lists.blocked = k.lists.blocked := congrArg (List.flatMap Desc.procq) hr.asl
  have hwait : ∀ key, k'.lists.waiters key = k.lists.waiters key := fun key => by
    rw [Lists.waiters_def, hr.asl]
    rfl
  refine h.departed hw hr.curr hexc ?_ ?_ ?_ ?_ (fun _ => hv) ?_
  · intro q
    rw [hr.pcb]
    split <;> rfl
  · intro q hq
    rwa [hr.free] at hq
  · intro q _ hq
    rwa [hb]
  · intro key q _ hq
    rwa [hwait] at hq
  · intro key hq
    rw [hwait] at hq
    exact absurd (hw.active.mem_blocked.mpr ⟨key, hq⟩) (hw.not_blocked hr.curr)

theorem Saved.blocked (h : Saved left k) (hw : WF k) (hb : Blocked key p k k')
    (hexc : k.exc = (⟨a, exc, none⟩ : Departure).resumed)
    (hv : (⟨a, exc, none⟩ : Departure).viaDoio = true ↔ ofDevice key) :
    Saved (left.depart a exc (some p)) k' := by
  have hmem : ∀ q, q ∈ k'.lists.blocked ↔ q = p ∨ q ∈ k.lists.blocked := fun q => by
    rw [hb.queues.blocked.mem_iff, List.mem_cons]
  refine h.departed hw hb.curr hexc ?_ ?_ ?_ ?_ ?_ ?_
  · intro q
    rw [hb.pcb]
    split <;> rfl
  · intro q hq
    rwa [hb.queues.free] at hq
  · exact fun q _ hq => (hmem q).mpr (.inr hq)
  · intro key' q hqp hq
    rw [hb.queues.waiters] at hq
    by_cases hkey : key' = key
    · rw [if_pos hkey, List.mem_append, List.mem_singleton] at hq
      rw [hkey]
      exact hq.resolve_right hqp
    · rwa [if_neg hkey] at hq
  · exact fun hp => absurd ((hmem p).mpr (.inl rfl)) hp
  · intro key' hq
    have hsem := (hb.wf hw).semAdd key' p hq
    rw [hb.pcb, if_pos rfl] at hsem
    exact hsem ▸ hv

/-- `p` wakes up with the state `s`, which is what `left'` says of it. -/
theorem Saved.woken {left' : Departures} {s : ProcessorState} (h : Saved left k) (hw : WF k)
    (hk : Woken key p s k k') (hother : ∀ q, q ≠ p → left' q = left q)
    (hself : ∀ x, left' p = some x → s = x.resumed ∧ x.status.isSome = x.viaDoio) :
    Saved left' k' := by
  have hpb : p ∉ k'.lists.blocked := hk.not_blocked hw
  have hmem : ∀ q, q ∈ k.lists.blocked ↔ q = p ∨ q ∈ k'.lists.blocked := by
    intro q
    obtain ⟨v, hv, hl⟩ := hk.queues
    have hb : k'.lists.blocked = v.blocked := by rw [hl]; rfl
    rw [hb, hv.blocked.mem_iff, List.mem_cons]
  constructor
  · intro q x hx
    rw [hk.pcb]
    by_cases hq : q = p
    · subst hq
      rw [if_pos rfl]
      exact (hself x hx).1
    · rw [hother q hq] at hx
      rw [if_neg hq]
      exact h.state q x hx
  · intro q x hx hq
    by_cases hqp : q = p
    · subst hqp
      exact (hself x hx).2
    · rw [hother q hqp] at hx
      exact h.ready q x hx fun hm => ((hmem q).mp hm).elim hqp hq
  · intro key' q hq x hx
    have hqp : q ≠ p := by
      rintro rfl
      exact hpb ((hk.wf hw).active.mem_blocked.mpr ⟨key', hq⟩)
    rw [hother q hqp] at hx
    rw [hk.waiters] at hq
    by_cases hkey : key' = key
    · rw [if_pos hkey] at hq
      exact h.waiting key' q (hkey ▸ List.mem_of_mem_tail hq) x hx
    · rw [if_neg hkey] at hq
      exact h.waiting key' q hq x hx
  · intro q hq
    rw [hk.free] at hq
    have hp : p ∈ k.lists.blocked := (hmem p).mpr (.inl rfl)
    have hqp : q ≠ p := fun he => hw.not_free_of_blocked hp (he ▸ hq)
    rw [hother q hqp]
    exact h.free q hq

/-- A wake-up from a semaphore that is of no device changes no state. -/
theorem Saved.woken_plain (h : Saved left k) (hw : WF k) (hk : Woken key p (k.pcb p).pS k k')
    (hkey : ¬ ofDevice key) : Saved left k' := by
  apply h.woken hw hk fun _ _ => rfl
  intro x hx
  obtain ⟨hnone, hvia⟩ := h.waiting key p (List.mem_of_mem_head? hk.head) x hx
  constructor
  · exact h.state p x hx
  · have hfalse : x.viaDoio = false := by simpa [hkey] using hvia
    rw [hnone, hfalse]
    rfl

theorem Saved.wokenAll (h : Saved left k) (hw : WF k) (hk : WokenAll key k k')
    (hkey : ¬ ofDevice key) : Saved left k' := by
  induction hk with
  | done => exact h
  | wake hk _ _ ih => exact ih (h.woken_plain hw hk hkey) (hk.wf hw)

/-- A device interrupt gives its status to the process that it wakes. -/
theorem Saved.signalled {i : ℕ} {status : Word} (h : Saved left k) (hw : WF k)
    (hs : Signalled i status k k') (hi : i < nSuppSem) :
    Saved (left.answer ((k.lists.waiters (deviceSemaphore i)).head?.map fun q => (q, status))) k' := by
  cases hs with
  | empty hq =>
      rw [hq]
      exact h.globals (by rfl)
  | wake hk hd =>
      rw [hk.head, Option.map_some]
      apply h.woken hw hk fun q hq => Function.update_of_ne hq _ _
      intro x hx
      rw [Departures.answer, Function.update_self] at hx
      obtain ⟨y, hy, rfl⟩ := Option.map_eq_some_iff.mp hx
      obtain ⟨hnone, hvia⟩ := h.waiting _ _ (List.mem_of_mem_head? hk.head) y hy
      constructor
      · rw [Departure.resumed_answer hnone, h.state _ y hy]
      · exact (hvia.mpr ⟨i, hi, rfl⟩).symm

theorem Saved.created {a1 a2 a3 : Word} {c : Pcb} (h : Saved left k)
    (hc : Created a1 a2 a3 p c k k') : Saved left k' := by
  have hp : left p = none := h.free p (by simp [hc.free])
  constructor
  · intro q x hx
    have hqp : q ≠ p := by
      rintro rfl
      rw [hp] at hx
      cases hx
    rw [hc.pcb, if_neg hqp]
    exact h.state q x hx
  · intro q x hx hq
    rw [hc.blocked] at hq
    exact h.ready q x hx hq
  · intro key q hq
    rw [hc.waiters] at hq
    exact h.waiting key q hq
  · intro q hq
    exact h.free q (by simp [hc.free, hq])

theorem not_ofDevice (h : isDeviceSemaphore key = false) : ¬ ofDevice key := by
  rintro ⟨i, hi, rfl⟩
  have hlt : (i : ℤ) < nrSemaphores := by
    unfold nSuppSem at hi
    unfold nrSemaphores
    omega
  rw [isDeviceSemaphore_deviceSemaphore (by omega) hlt] at h
  cases h

theorem not_ofDevice_pseudoClockSem : ¬ ofDevice pseudoClockSem := by
  rintro ⟨i, hi, he⟩
  have hlt : (i : ℤ) < nrSemaphores := by
    unfold nSuppSem at hi
    unfold nrSemaphores
    omega
  have heq := deviceSemaphore_injective (by decide) (by decide) (by omega) hlt he
  omega

theorem ofDevice_deviceSemaphore {i : ℤ} (h : 0 ≤ i ∧ i < nSuppSem) :
    ofDevice (deviceSemaphore i) := by
  lift i to ℕ using h.1
  exact ⟨i, by exact_mod_cast h.2, rfl⟩

end Saved

section Step
variable [Layout] {k k' : Kernel Lists} {left : Departures} {a : Action} {exc : ProcessorState}

omit [Layout] in
theorem WokenAll.exc_eq {key : Word} (h : WokenAll key k k') : k'.exc = k.exc := by
  induction h with
  | done => rfl
  | wake _ hd _ ih => exact ih.trans (by rw [hd])

theorem delivered_served {n i : ℕ} {ackAddr status : Word}
    (h : served n k.dev = some (ackAddr, i, status)) :
    delivered (.device n) k.toKernelData k.lists.queues =
      (k.lists.waiters (deviceSemaphore i)).head?.map fun q => (q, status) := by
  rw [delivered, h, Option.bind_some, Lists.queues_waiters]

/-- Entries that take the CPU from nobody and wake nobody from a device. -/
theorem Saved.stay (h : Saved left k') (ht : ¬ takesCpu a k)
    (hd : delivered a k.toKernelData k.lists.queues = none) :
    Saved ((left.depart a exc (taken a k)).answer
      (delivered a k.toKernelData k.lists.queues)) k' := by
  rw [hd, taken, if_neg ht]
  exact h

/-- Entries that take the CPU from `p`. -/
theorem Saved.leave {p : Pcb} (h : Saved (left.depart a exc (some p)) k') (ht : takesCpu a k)
    (hp : k.currProc = some p) (hd : delivered a k.toKernelData k.lists.queues = none) :
    Saved ((left.depart a exc (taken a k)).answer
      (delivered a k.toKernelData k.lists.queues)) k' := by
  rw [hd, taken, if_pos ht, hp]
  exact h

theorem Effect.saved (he : Effect a k k') (hw : WF k) (h : Saved left k) (hv : victim a k = none)
    (hexc : takesCpu a k → k.exc = (⟨a, exc, none⟩ : Departure).resumed)
    (hspare : ∀ a1, a = .passeren a1 ∨ a = .verhogen a1 → isDeviceSemaphore a1 = false)
    (hindex : ∀ a1 a2, a = .doio a1 a2 → 0 ≤ semIndex a1 ∧ semIndex a1 < nSuppSem)
    (hline : ∀ n, a = .device n → n ≤ 7) :
    Saved ((left.depart a exc (taken a k)).answer
      (delivered a k.toKernelData k.lists.queues)) k' := by
  cases he with
  | plt hr hd | yield hr hd =>
      exact Saved.leave ((h.requeued hw hr (hexc trivial) rfl).dispatched hd) trivial hr.curr rfl
  | itIdle hc hall hd =>
      have h₁ := h.wokenAll hw hall not_ofDevice_pseudoClockSem
      have ht : taken .it k = none := (if_pos trivial).trans hc
      rw [ht]
      exact Saved.dispatched (h₁.globals (by rfl)) hd
  | it hall hr hd =>
      have h₁ := h.wokenAll hw hall not_ofDevice_pseudoClockSem
      have hw₁ := hall.wf hw
      have h₂ := Saved.requeued (h₁.globals (by rfl)) (hw₁.data (by rfl) (by rfl)) hr
        (hall.exc_eq.trans (hexc trivial)) rfl
      exact Saved.leave (h₂.dispatched hd) trivial (hall.curr.symm.trans hr.curr) rfl
  | deviceNone hn hr =>
      have hk : Saved left k' := by
        cases hr with
        | ldst => exact h.globals (by rfl)
        | dispatch _ hd => exact h.dispatched hd
      apply hk.stay id
      rw [delivered, hn]
      rfl
  | device hs hsig hr =>
      have hi := served_index (hline _ rfl) hs
      have h₁ := Saved.signalled (h.globals (by rfl)) (hw.data (by rfl) (by rfl)) hsig hi
      rw [delivered_served hs]
      cases hr with
      | ldst => exact h₁.globals (by rfl)
      | dispatch _ hdis => exact h₁.dispatched hdis
  | create hc => exact Saved.stay ((h.created hc).globals (by rfl)) id rfl
  | term hvt _ _ => exact absurd (hv.symm.trans (victim_term hvt)) (by simp)
  | die hc hn _ _ => exact absurd hv (by simp [victim, hc, hn])
  | passerenTake hm => exact Saved.stay (h.globals (by rfl)) (not_not.mpr hm) rfl
  | passeren hm hb hd =>
      have hno := not_ofDevice (hspare _ (.inl rfl))
      have hb' := h.blocked hw hb (hexc hm) (by simp [Departure.viaDoio, hno])
      exact Saved.leave (hb'.dispatched hd) hm hb.curr rfl
  | verhogenEmpty => exact Saved.stay (h.globals (by rfl)) id rfl
  | verhogen hk hd =>
      have h₁ := h.woken_plain hw hk (not_ofDevice (hspare _ (.inr rfl)))
      exact Saved.stay (h₁.globals (by rfl)) id rfl
  | doio hb hd =>
      have hof := ofDevice_deviceSemaphore (hindex _ _ rfl)
      have hb' := Saved.blocked (h.globals (by rfl)) (hw.data (by rfl) (by rfl)) hb (hexc trivial) ⟨fun _ => hof, fun _ => rfl⟩
      exact Saved.leave (Saved.dispatched (hb'.globals (by rfl)) hd) trivial hb.curr rfl
  | clockWait hb hd =>
      have hb' := Saved.blocked (h.globals (by rfl)) (hw.data (by rfl) (by rfl)) hb (hexc trivial)
        (by simp [Departure.viaDoio, not_ofDevice_pseudoClockSem])
      exact Saved.leave (hb'.dispatched hd) trivial hb.curr rfl
  | _ => exact Saved.stay (h.globals (by rfl)) id rfl

end Step

section Runs
variable [Layout]

/-- NSYS5 gets an address whose index is that of a device. -/
def DeviceIndex (e : Entry) : Prop :=
  ∀ a1 a2, action e = .doio a1 a2 → 0 ≤ semIndex a1 ∧ semIndex a1 < nSuppSem

/-- The conditions under which context switches are transparent. -/
structure Switchable {Q : Type} [QueueApi Q] (k : Kernel Q) (e : Entry) : Prop where
  unkilled : Unkilled k e
  spares : SparesDevices e
  index : DeviceIndex e

/-- The departures after an entry. -/
def updateDepartures {Q : Type} (walk : Store Q → Option Queues) (k : Kernel Q) (e : Entry)
    (left : Departures) : Departures :=
  (left.depart (action e) e.exc (taken (action e) (prepared e k))).answer
    ((walk k.store).bind (delivered (action e) (prepared e k).toKernelData))

/-- A run with the departures from the CPU. -/
def withDepartures {Q : Type} (walk : Store Q → Option Queues) (S : System (Kernel Q) Entry) :
    System (Kernel Q × Departures) Entry :=
  S.withHistory (fun _ _ => none) fun k e _ left => updateDepartures walk k e left

theorem switchable_byPlace (l : Kernel Lists) (e : Entry) (h : Switchable l e) :
    KillsByPlace l e := .of_victim h.unkilled

theorem saved_step {k k' : Kernel Lists} {e : Entry} {left : Departures} (h : Sound k)
    (hs : Saved left k) (hstep : ((nucleus Lists).restrict Switchable).step k e k') :
    Saved (updateDepartures listWalk k e left) k' := by
  have he := (step_effect switchable_byPlace h hstep).1
  have hs' : Saved left (prepared e k) := hs.globals rfl
  exact he.saved (h.wf.data rfl rfl) hs' hstep.1.unkilled decode_resumed hstep.1.spares
    hstep.1.index fun n hn => (action_device hn).2

theorem saved_of_reachable {x : Kernel Lists × Departures} (h : (withDepartures listWalk
    ((nucleus Lists).restrict Switchable)).Reachable x) : Saved x.2 x.1 := by
  refine h.invariant (I := fun x => Saved x.2 x.1) ?_ ?_
  · intro x hx
    rw [hx.2]
    constructor
    · intro q x hx
      cases hx
    · intro q x hx
      cases hx
    · intro key q _ x hx
      cases hx
    · exact fun _ _ => rfl
  · intro x e x' hr hi hs
    rw [hs.2]
    exact saved_step (sound_of_reachable switchable_byPlace hr.fst) hi hs.1

theorem updateDepartures_eq {k : Kernel Pointers} {l : Kernel Lists} (h : KernelRel k l) (e : Entry)
    (left : Departures) :
    updateDepartures Pointer.queues k e left = updateDepartures listWalk l e left := by
  have hd : (prepared e k).toKernelData = (prepared e l).toKernelData := (enter_refines _ h).data
  rw [updateDepartures, updateDepartures, taken_congr _ hd, hd, h.store.queues]
  rfl

theorem departures_refines : (withDepartures Pointer.queues ((nucleus Pointers).restrict
    Switchable)).Refines (withDepartures listWalk ((nucleus Lists).restrict Switchable))
    (fun x y => KernelRel x.1 y.1 ∧ x.2 = y.2) := by
  refine (nucleus_refines switchable_byPlace fun _ _ _ hr hl hc =>
    ⟨hc.unkilled.lists hr hl.wf, hc.spares, hc.index⟩).withHistory (fun _ _ => rfl)
    fun {s t e s' t' left} _ hr _ => ?_
  exact updateDepartures_eq hr e left

end Runs

section Transparent
variable [Layout] {k : Kernel Pointers} {left : Departures}

/-- When `dispatch` selects a process that has left the CPU before, the process
goes on with the state that it had then; a0 is a device status if and only if it
left through NSYS5. -/
def Transparent (C : Kernel Pointers → Entry → Prop) (k : Kernel Pointers) (left : Departures) :
    Prop :=
  ∀ e, Possible k e → C k e → ∃ k', kernelEntry e k = some k' ∧
    (takesCpu (action e) (prepared e k) ∨ k.currProc = none → k'.cpu.isRunning = true →
      ∀ q x, k'.currProc = some q → updateDepartures Pointer.queues k e left q = some x →
        k'.cpu = .run x.resumed ∧ x.status.isSome = x.viaDoio)

omit [Layout] in
/-- `dispatch` loads somebody who does not wait. -/
theorem Selected.unblocked {mid : List Pcb} {l' : Kernel Lists} {q : Pcb} (h : Selected mid l')
    (hw : WF l') (hc : l'.currProc = some q) (hr : l'.cpu.isRunning = true) :
    l'.cpu = .run (l'.pcb q).pS ∧ q ∉ l'.lists.blocked := by
  refine ⟨?_, hw.not_blocked hc⟩
  cases h with
  | idle _ _ hcpu => rw [hcpu] at hr; cases hr
  | load p _ hp hcpu =>
      rw [hc, Option.some.injEq] at hp
      rw [hcpu, hp]

theorem transparent (h : (withDepartures Pointer.queues ((nucleus Pointers).restrict
    Switchable)).Reachable (k, left)) : Transparent Switchable k left := by
  obtain ⟨⟨l, _⟩, hl, hr, rfl⟩ := departures_refines.reachable h
  have hs : Saved left l := saved_of_reachable hl
  have hsound : Sound l := sound_of_reachable switchable_byPlace hl.fst
  intro e hp hc
  have hc' : Switchable l e := ⟨hc.unkilled.lists hr hsound.wf, hc.spares, hc.index⟩
  obtain ⟨l', hl', he⟩ := kernelEntry_spec hsound (hp.lists hr) (switchable_byPlace l e hc')
  obtain ⟨k', hk', hr'⟩ := kernelEntry_refines e hr l' hl'
  refine ⟨k', hk', fun hd hrun q x hq hx => ?_⟩
  have hw : WF (prepared e l) := hsound.wf.data rfl rfl
  have hsaved : Saved (updateDepartures listWalk l e left) l' :=
    saved_step hsound hs ⟨hc', hp.lists hr, hl'⟩
  have hsel := (perform_rescheduled hw hc'.unkilled ((kernelEntry_eq e l).symm.trans hl')
    (fun ha => hsound.current (hp.lists hr) ha) he).selected
  have hdata : (prepared e k).toKernelData = (prepared e l).toKernelData :=
    (enter_refines _ hr).data
  have hd' : takesCpu (action e) (prepared e l) ∨ (prepared e l).currProc = none := by
    unfold takesCpu at hd ⊢
    rw [← hdata]
    exact hd
  have hq' : l'.currProc = some q := (congrArg KernelData.currProc hr'.data).symm.trans hq
  have hrun' : l'.cpu.isRunning = true := by
    rw [← hr'.data]
    exact hrun
  obtain ⟨hcpu, hb⟩ := (hsel hd').unblocked (hsound.step (hp.lists hr) he).wf hq' hrun'
  rw [updateDepartures_eq hr] at hx
  constructor
  · rw [hr'.data, hcpu, hsaved.state q x hx]
  · exact hsaved.ready q x hx hb

end Transparent

section Concrete

/-- The runs without kills in which NSYS3 and NSYS4 spare the device semaphores. -/
def Sparing [Layout] (_ : Kernel Pointers) (e : Entry) : Prop :=
  killFree (action e) = true ∧ SparesDevices e

/-- NSYS5 on an address behind the device registers: the process waits on the
pseudo-clock, and a tick brings it back without a status. -/
theorem doio_unanswered : ¬ ∀ (_ : Layout) (k : Kernel Pointers) (left : Departures),
    (withDepartures Pointer.queues ((nucleus Pointers).restrict Sparing)).Reachable (k, left) →
      Transparent Sparing k left := by
  intro h
  let := ramLayout
  let e := request 0 doio 0x10000354
  let run := main bareImage bareLinks
  let left₀ : Departures := fun _ => none
  have hsome : (run.bind (kernelEntry e)).isSome = true := by decide +kernel
  have hposs : (run.all fun k => Possible k e) = true := by decide +kernel
  have htick : ((run.bind (kernelEntry e)).all fun k => Possible k (tick 0) ∧ k.currProc = none) =
      true := by decide +kernel
  have hback : (((run.bind (kernelEntry e)).bind (kernelEntry (tick 0))).all fun k =>
      k.cpu.isRunning = true ∧ k.currProc = some firstPcb) = true := by decide +kernel
  have hleft : (run.all fun k₀ => (kernelEntry e k₀).all fun k =>
      (updateDepartures Pointer.queues k (tick 0) (updateDepartures Pointer.queues k₀ e left₀)
        firstPcb).any fun x => x.status.isSome ≠ x.viaDoio) = true := by decide +kernel
  obtain ⟨k, hk⟩ := Option.isSome_iff_exists.mp hsome
  obtain ⟨k₀, hk₀, hstep⟩ := Option.bind_eq_some_iff.mp hk
  rw [hk] at htick hback
  rw [hk₀] at hposs hleft
  have h₀ : (nucleus Pointers).init k₀ := ⟨bareImage, bareLinks, hk₀⟩
  have hinit : (withDepartures Pointer.queues ((nucleus Pointers).restrict Sparing)).Reachable
      (k₀, left₀) := .init ⟨h₀, rfl⟩
  have hact : action e = .doio 0x10000354 0 := by decide
  have hspare : Sparing k₀ e := ⟨by rw [hact]; rfl, fun a1 ha => by
    rw [hact] at ha
    rcases ha with ha | ha <;> cases ha⟩
  have hit : action (tick 0) = .it := by decide
  have hspare' : Sparing k (tick 0) := ⟨by rw [hit]; rfl, fun a1 ha => by
    rw [hit] at ha
    rcases ha with ha | ha <;> cases ha⟩
  obtain ⟨hp, hc⟩ := of_decide_eq_true htick
  obtain ⟨k', hk', hload⟩ := h ramLayout k _
    (.step hinit ⟨⟨hspare, of_decide_eq_true hposs, hstep⟩, rfl⟩) (tick 0) hp hspare'
  rw [Option.bind_some, hk'] at hback
  obtain ⟨hrun, hc'⟩ := of_decide_eq_true hback
  rw [Option.all_some, hstep, Option.all_some] at hleft
  obtain ⟨x, hx, hne⟩ := (Option.any_eq_true _ _).mp hleft
  exact absurd (hload (.inr hc) hrun firstPcb x hc' hx).2 (of_decide_eq_true hne)

/-- Entries that neither kill nor name a semaphore, with NSYS5 on a device. -/
def isPlain (e : Entry) : Bool :=
  match action e with
  | .createProcess _ _ _ | .yield | .clockWait | .it => true
  | .doio a1 _ => decide (0 ≤ semIndex a1 ∧ semIndex a1 < nSuppSem)
  | _ => false

theorem switchable_of_isPlain [Layout] {k : Kernel Pointers} {e : Entry} (h : isPlain e = true) :
    Switchable k e := by
  unfold isPlain at h
  constructor
  · unfold Unkilled
    cases ha : action e with
    | termProcess | passUp => rw [ha] at h; cases h
    | _ => rfl
  · intro a1 ha
    rcases ha with ha | ha <;> rw [ha] at h <;> cases h
  · intro a1 a2 ha
    rw [ha] at h
    exact of_decide_eq_true h

theorem transparent_run : ∃ k left, bareRun (fun _ e => isPlain e)
    [request 0 createProcess 0, request 0 yield 0, request 0 doio 0x10000260,
      request 0 clockWait 0, tick 0] = some k ∧ @Transparent ramLayout (@Switchable ramLayout _ _)
        k left := by
  let := ramLayout
  obtain ⟨k, hk⟩ := Option.isSome_iff_exists.mp (show (bareRun (fun _ e => isPlain e)
    [request 0 createProcess 0, request 0 yield 0, request 0 doio 0x10000260,
      request 0 clockWait 0, tick 0]).isSome = true by decide +kernel)
  have hreach : ((nucleus Pointers).restrict Switchable).Reachable k :=
    bareRun_restrict (fun _ _ hP => switchable_of_isPlain hP) hk
  obtain ⟨left, hleft⟩ := hreach.exists_history
  exact ⟨k, left, hk, transparent hleft⟩

end Concrete
end PandOSsh.Nucleus
