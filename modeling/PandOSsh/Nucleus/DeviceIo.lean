import PandOSsh.Nucleus.Counters
import PandOSsh.Nucleus.Waiting

/-!
# Device input and output

NSYS5 computes the semaphore from the address of a command register, the
interrupt handler from the line, the bitmap and the status. Both agree on every
sub-device, so an interrupt serves the first process that asked for the very
sub-device whose operation is complete, provided that the handler recognises
the status: of a terminal it recognises 5 only.
-/

namespace PandOSsh.Nucleus
open Library

/-- What a command register belongs to: a device of the lines 3 to 6, or half a
terminal. -/
inductive SubDevice where
  | block (line : Fin 4) (dev : Fin 8)
  | receiver (dev : Fin 8)
  | transmitter (dev : Fin 8)
deriving DecidableEq

namespace SubDevice

def line : SubDevice → ℕ
  | block l _ => l + 3
  | receiver _ | transmitter _ => 7

def dev : SubDevice → Fin 8
  | block _ d | receiver d | transmitter d => d

/-- The address of the status register. -/
def status : SubDevice → Word
  | block l d => devAddr (l + 3) d
  | receiver d => devAddr 7 d
  | transmitter d => devAddr 7 d + 8

/-- The address of the command register. -/
def command : SubDevice → Word
  | block l d => devAddr (l + 3) d + 4
  | receiver d => devAddr 7 d + 4
  | transmitter d => devAddr 7 d + 0xC

/-- The index of the semaphore. -/
def index : SubDevice → ℕ
  | block l d => l * 8 + d
  | receiver d => 32 + d
  | transmitter d => 40 + d

/-- A device of the lines 3 to 6 interrupts on completion only. Half a terminal
has completed an operation unless it is not installed, ready or busy. -/
def Completed (s : SubDevice) (devs : Word → Word) : Prop :=
  match s with
  | block _ _ => True
  | receiver _ | transmitter _ => statusCode (devs s.status) ∉ [0, 1, 3]

/-- The handler recognises the status. -/
def Recognised (s : SubDevice) (devs : Word → Word) : Prop :=
  match s with
  | block _ _ => True
  | receiver _ | transmitter _ => statusCode (devs s.status) = 5

instance (s : SubDevice) (devs : Word → Word) : Decidable (s.Completed devs) :=
  match s with
  | block _ _ => .isTrue trivial
  | receiver d => inferInstanceAs (Decidable (statusCode (devs (receiver d).status) ∉ [0, 1, 3]))
  | transmitter d =>
      inferInstanceAs (Decidable (statusCode (devs (transmitter d).status) ∉ [0, 1, 3]))

theorem index_lt (s : SubDevice) : s.index < nSuppSem := by
  unfold nSuppSem
  cases s <;> simp only [index] <;> omega

theorem index_injective {s t : SubDevice} (h : s.index = t.index) : s = t := by
  cases s <;> cases t <;> simp only [index, block.injEq, receiver.injEq, transmitter.injEq,
    reduceCtorEq, Fin.ext_iff] at h ⊢ <;> omega

/-- NSYS5 finds the semaphore of the sub-device. -/
theorem semIndex_command (s : SubDevice) : semIndex s.command = s.index := by
  cases s with
  | block l d => revert l d; decide
  | receiver d => revert d; decide
  | transmitter d => revert d; decide

theorem Recognised.completed {s : SubDevice} {devs : Word → Word} (h : s.Recognised devs) :
    s.Completed devs := by
  cases s with
  | block => trivial
  | receiver d | transmitter d =>
      have h : statusCode _ = 5 := h
      simp only [Completed, h]
      decide

theorem Recognised.congr {s : SubDevice} {devs devs' : Word → Word}
    (h : devs' s.status = devs s.status) (hr : s.Recognised devs') : s.Recognised devs := by
  cases s with
  | block => trivial
  | receiver d | transmitter d => exact (congrArg statusCode h).symm.trans hr

theorem eq_of_line_dev {s t : SubDevice} (hl : t.line = s.line) (hd : t.dev = s.dev)
    (hne : t ≠ s) : ∃ d, t = receiver d ∧ s = transmitter d ∨ t = transmitter d ∧ s = receiver d := by
  cases s with
  | block l d =>
      cases t with
      | block l' d' =>
          have hl : (l' : ℕ) + 3 = l + 3 := hl
          exact absurd (congrArg₂ block (Fin.ext (by omega)) hd) hne
      | receiver d' | transmitter d' => simp only [line] at hl; omega
  | receiver d =>
      cases t with
      | block l' d' => simp only [line] at hl; omega
      | receiver d' => exact absurd (congrArg receiver hd) hne
      | transmitter d' => exact ⟨d, .inr ⟨congrArg transmitter hd, rfl⟩⟩
  | transmitter d =>
      cases t with
      | block l' d' => simp only [line] at hl; omega
      | receiver d' => exact ⟨d, .inl ⟨congrArg receiver hd, rfl⟩⟩
      | transmitter d' => exact absurd (congrArg transmitter hd) hne

theorem halves_apart : ∀ d : Fin 8, (receiver d).status ≠ (transmitter d).status ∧
    bitmapAddr 7 ≠ (receiver d).status ∧ bitmapAddr 7 ≠ (transmitter d).status := by
  decide

/-- The two halves of a terminal have registers of their own. -/
theorem apart {s t : SubDevice} (hl : t.line = s.line) (hd : t.dev = s.dev) (hne : t ≠ s) :
    t.status ≠ s.status ∧ bitmapAddr t.line ≠ s.status := by
  obtain ⟨d, ⟨rfl, rfl⟩ | ⟨rfl, rfl⟩⟩ := eq_of_line_dev hl hd hne
  · exact ⟨(halves_apart d).1, (halves_apart d).2.2⟩
  · exact ⟨(halves_apart d).1.symm, (halves_apart d).2.1⟩

/-- A half that is ready has completed nothing. -/
theorem not_completed {s t : SubDevice} {devs : Word → Word} (hl : t.line = s.line)
    (hd : t.dev = s.dev) (hne : t ≠ s) (hs : devs s.status = 1) : ¬ s.Completed devs := by
  obtain ⟨d, ⟨rfl, rfl⟩ | ⟨rfl, rfl⟩⟩ := eq_of_line_dev hl hd hne <;>
  · intro hc
    have hc : statusCode (devs _) ∉ [0, 1, 3] := hc
    rw [hs] at hc
    exact hc (by decide)

/-- A terminal has two halves. -/
theorem eq_or_eq {s t r : SubDevice} (hl : t.line = s.line) (hd : t.dev = s.dev) (hne : t ≠ s)
    (hrl : r.line = s.line) (hrd : r.dev = s.dev) : r = s ∨ r = t := by
  by_cases hrs : r = s
  · exact .inl hrs
  · obtain ⟨d, h⟩ := eq_of_line_dev hl hd hne
    obtain ⟨d', h'⟩ := eq_of_line_dev hrl hrd hrs
    grind

end SubDevice

section Served
variable {n : ℕ} {d : Fin 8} {devs : Word → Word}

theorem served_block (l : Fin 4) (h : devNo (devs (bitmapAddr (l + 3))) = some d.val) :
    served (l + 3) devs = some ((SubDevice.block l d).command, (SubDevice.block l d).index,
      devs (SubDevice.block l d).status) := by
  have h7 : (l : ℕ) + 3 ≠ 7 := by omega
  rw [served, h, Option.bind_some]
  simp only [if_neg h7, Nat.add_sub_cancel]
  rfl

theorem served_transmitter (h : devNo (devs (bitmapAddr 7)) = some d.val)
    (ht : (SubDevice.transmitter d).Recognised devs) :
    served 7 devs = some ((SubDevice.transmitter d).command, (SubDevice.transmitter d).index,
      devs (SubDevice.transmitter d).status) := by
  have ht : statusCode (devs (devAddr 7 d + 8)) = okCharTrans := ht
  rw [served, h, Option.bind_some]
  simp only [if_true, if_pos ht, Option.some.injEq, Prod.mk.injEq, SubDevice.index]
  exact ⟨rfl, by omega, rfl⟩

theorem served_receiver (h : devNo (devs (bitmapAddr 7)) = some d.val)
    (ht : ¬ (SubDevice.transmitter d).Recognised devs)
    (hr : (SubDevice.receiver d).Recognised devs) :
    served 7 devs = some ((SubDevice.receiver d).command, (SubDevice.receiver d).index,
      devs (SubDevice.receiver d).status) := by
  have ht : ¬ statusCode (devs (devAddr 7 d + 8)) = okCharTrans := ht
  have hr : statusCode (devs (devAddr 7 d)) = charRecv := hr
  rw [served, h, Option.bind_some]
  simp only [if_true, if_neg ht, if_pos hr, Option.some.injEq, Prod.mk.injEq, SubDevice.index]
  exact ⟨rfl, trivial, rfl⟩

theorem served_none (h : devNo (devs (bitmapAddr 7)) = some d.val)
    (ht : ¬ (SubDevice.transmitter d).Recognised devs)
    (hr : ¬ (SubDevice.receiver d).Recognised devs) : served 7 devs = none := by
  have ht : ¬ statusCode (devs (devAddr 7 d + 8)) = okCharTrans := ht
  have hr : ¬ statusCode (devs (devAddr 7 d)) = charRecv := hr
  rw [served, h, Option.bind_some]
  simp only [if_true, if_neg ht, if_neg hr]

/-- The handler serves one of the operations that it recognises, if there is one. -/
theorem served_eq (s : SubDevice) (h : devNo (devs (bitmapAddr s.line)) = some s.dev.val) :
    (∃ t : SubDevice, t.line = s.line ∧ t.dev = s.dev ∧ t.Recognised devs ∧
      served s.line devs = some (t.command, t.index, devs t.status)) ∨
    served s.line devs = none ∧
      ∀ t : SubDevice, t.line = s.line → t.dev = s.dev → ¬ t.Recognised devs := by
  cases s with
  | block l d => exact .inl ⟨_, rfl, rfl, trivial, served_block l h⟩
  | receiver d | transmitter d =>
      by_cases ht : (SubDevice.transmitter d).Recognised devs
      · exact .inl ⟨.transmitter d, rfl, rfl, ht, served_transmitter h ht⟩
      · by_cases hr : (SubDevice.receiver d).Recognised devs
        · exact .inl ⟨.receiver d, rfl, rfl, hr, served_receiver h ht hr⟩
        · refine .inr ⟨served_none h ht hr, fun t htl htd htr => ?_⟩
          cases t with
          | block l d => simp only [SubDevice.line] at htl; omega
          | receiver d' =>
              obtain rfl : d' = d := htd
              exact hr htr
          | transmitter d' =>
              obtain rfl : d' = d := htd
              exact ht htr

end Served

section Serve
variable {k k₁ k' : Kernel Lists} {log : List (Word × Pcb)}

theorem Dispatched.dev (h : Dispatched k k') : k'.dev = k.dev := by
  cases h <;> rfl

theorem Resumed.dev (h : Resumed k k') : k'.dev = k.dev := by
  cases h with
  | ldst => rfl
  | dispatch _ hd => exact hd.dev

theorem Resumed.pcb (h : Resumed k k') : k'.pcb = k.pcb := by
  cases h with
  | ldst => rfl
  | dispatch _ hd => cases hd <;> rfl

theorem Resumed.softBlockCount (h : Resumed k k') : k'.softBlockCount = k.softBlockCount := by
  cases h with
  | ldst => rfl
  | dispatch _ hd => cases hd <;> rfl

/-- Whoever is ready before the handler resumes still is, or has the CPU. -/
theorem Resumed.ready {p : Pcb} (h : Resumed k k') (hp : p ∈ k.lists.ready) :
    p ∈ k'.lists.ready ∨ k.currProc = none ∧ k'.currProc = some p := by
  cases h with
  | ldst => exact .inl hp
  | dispatch hc hd =>
      cases hd with
      | idle hr => exact absurd hp (by simp [hr])
      | load q ps hr =>
          rw [hr, List.mem_cons] at hp
          rcases hp with rfl | hp
          · exact .inr ⟨hc, rfl⟩
          · exact .inl hp

/-- The device interrupt has served `s`: it has acknowledged the operation of
`s` and nothing else, and has made the first waiter of `s` ready, with the
status in a0. All other waiters stay where they are. -/
structure Serves (s : SubDevice) [Layout] (k : Kernel Pointers) (log : List (Word × Pcb))
    (e : Entry) (k' : Kernel Pointers) : Prop where
  acknowledged : k'.dev = Function.update e.dev s.command ack
  queues : ∃ qs qs', Pointer.queues k.store = some qs ∧ Pointer.queues k'.store = some qs' ∧
    qs.waiters (deviceSemaphore s.index) = cameFor s.command log ∧
    ∀ key, qs'.waiters key =
      if key = deviceSemaphore s.index then (qs.waiters key).tail else qs.waiters key
  woken : ∀ p, (cameFor s.command log).head? = some p →
    (k'.pcb p).pS.regA0 = e.dev s.status ∧ k'.softBlockCount = k.softBlockCount - 1 ∧
      (IsReady k' p ∨ k.currProc = none ∧ k'.currProc = some p)
  unclaimed : cameFor s.command log = [] → k'.softBlockCount = k.softBlockCount

variable [Layout]

theorem Signalled.dev {i : ℕ} {status : Word} (h : Signalled i status k k') : k'.dev = k.dev := by
  cases h with
  | empty => rfl
  | wake _ hd => rw [hd]

theorem Signalled.waiters {i : ℕ} {status : Word} (h : Signalled i status k k') (key : Word) :
    k'.lists.waiters key = if key = deviceSemaphore i then (k.lists.waiters key).tail
      else k.lists.waiters key := by
  cases h with
  | empty hn =>
      split
      · next hkey =>
        subst hkey
        rw [hn]
        exact hn
      · rfl
  | wake hwk _ =>
      rw [hwk.waiters]
      split
      · next hkey => rw [hkey]
      · rfl

theorem Signalled.curr {i : ℕ} {status : Word} (h : Signalled i status k k') :
    k'.currProc = k.currProc := by
  cases h with
  | empty => rfl
  | wake _ hd => rw [hd]

/-- What V does to the first waiter. -/
theorem Signalled.head {i : ℕ} {status : Word} (h : Signalled i status k k') {p : Pcb}
    (hp : (k.lists.waiters (deviceSemaphore i)).head? = some p) :
    (k'.pcb p).pS.regA0 = status ∧ k'.softBlockCount = k.softBlockCount - 1 ∧
      p ∈ k'.lists.ready := by
  cases h with
  | empty hn => rw [hn] at hp; cases hp
  | @wake _ q hwk hd =>
      rw [hwk.head, Option.some.injEq] at hp
      subst hp
      obtain ⟨v, hv, hl⟩ := hwk.queues
      refine ⟨?_, by rw [hd], ?_⟩
      · rw [hwk.pcb, if_pos rfl]
        simp [ProcessorState.regA0, ProcessorState.setA0]
      · rw [hl]
        exact (byPrio_perm _ q v.ready).mem_iff.mpr (List.mem_cons_self ..)

theorem Signalled.unclaimed {i : ℕ} {status : Word} (h : Signalled i status k k')
    (hn : k.lists.waiters (deviceSemaphore i) = []) : k'.softBlockCount = k.softBlockCount := by
  cases h with
  | empty => rfl
  | wake hwk _ =>
      have hh := hwk.head
      rw [hn] at hh
      cases hh

end Serve

section Conditions

/-- The processes that NSYS5 puts to sleep, under the register they asked for. -/
def asked (a : Action) (d : KernelData) : Option (Word × Pcb) :=
  match a with
  | .doio a1 _ => d.currProc.map fun p => (a1, p)
  | _ => none

theorem asked_doio (a1 a2 : Word) (d : KernelData) :
    asked (.doio a1 a2) d = d.currProc.map fun p => (a1, p) := rfl

variable {Q : Type} [QueueApi Q] [Layout]

/-- NSYS5 gets the command register of a sub-device. -/
def ValidRegister (e : Entry) : Prop :=
  ∀ a1 a2, action e = .doio a1 a2 → ∃ s : SubDevice, a1 = s.command

/-- The kills go by place, the device semaphores are left to the Nucleus, and
NSYS5 is used on command registers. -/
structure Orderly (k : Kernel Q) (e : Entry) : Prop where
  byPlace : KillsByPlace k e
  waitsAlone : WaitsAlone k e
  spares : SparesDevices e
  register : ValidRegister e

omit [QueueApi Q] in
/-- Different sub-devices have different semaphores. -/
theorem SubDevice.deviceSemaphore_injective {s t : SubDevice}
    (h : deviceSemaphore s.index = deviceSemaphore t.index) : s = t := by
  have hlt : ∀ s : SubDevice, (s.index : ℤ) < nrSemaphores := fun s =>
    Int.ofNat_lt.mpr (s.index_lt.trans (show nSuppSem < nrSemaphores by decide))
  have hi := PandOSsh.deviceSemaphore_injective (Int.natCast_nonneg _) (hlt s)
    (Int.natCast_nonneg _) (hlt t) h
  exact SubDevice.index_injective (Int.ofNat_inj.mp hi)

/-- NSYS5 logs who enters the queue of a sub-device under its register. -/
theorem cameFor_asked (s : SubDevice) {e : Entry} (hs : SparesDevices e) (hr : ValidRegister e)
    (d : KernelData) : cameFor (deviceSemaphore s.index) (entered (action e) d).toList =
      cameFor s.command (asked (action e) d).toList := by
  have hlt : (s.index : ℤ) < nrSemaphores :=
    Int.ofNat_lt.mpr (s.index_lt.trans (show nSuppSem < nrSemaphores by decide))
  have h0 : (0 : ℤ) ≤ s.index := Int.natCast_nonneg _
  cases ha : action e with
  | passeren a1 =>
      have hne : a1 ≠ deviceSemaphore s.index := fun he => by
        have hsp := hs a1 (.inl ha)
        rw [he, isDeviceSemaphore_deviceSemaphore h0 hlt] at hsp
        cases hsp
      rw [entered_passeren, cameFor_toList, if_neg hne]
      rfl
  | doio a1 a2 =>
      obtain ⟨t, rfl⟩ := hr a1 a2 ha
      rw [entered_doio, asked_doio, cameFor_toList, cameFor_toList, t.semIndex_command]
      refine if_congr ⟨fun he => ?_, fun he => ?_⟩ rfl rfl
      · rw [SubDevice.deviceSemaphore_injective he]
      · have hi : semIndex t.command = semIndex s.command := congrArg semIndex he
        rw [t.semIndex_command, s.semIndex_command] at hi
        rw [hi]
  | clockWait =>
      have hne : pseudoClockSem ≠ deviceSemaphore s.index := fun he => by
        have hi := deviceSemaphore_injective (by decide) (by decide) h0 hlt he
        exact absurd (Int.ofNat_inj.mp hi) (ne_of_gt s.index_lt)
      rw [entered_clockWait, cameFor_toList, if_neg hne]
      rfl
  | _ => rfl

theorem Orderly.lists {k : Kernel Pointers} {l : Kernel Lists} {e : Entry} (h : KernelRel k l)
    (ho : Orderly k e) : Orderly l e :=
  ⟨ho.byPlace.lists h, by rw [WaitsAlone, ← h.data]; exact ho.waitsAlone, ho.spares, ho.register⟩

end Conditions

section Interrupt
variable [Layout] {k : Kernel Pointers} {log : List (Word × Pcb)} {e : Entry} {s : SubDevice}

/-- On lists: the effect of the interrupt that serves `s`. -/
theorem Effect.serves {l l' : Kernel Lists} (h : Effect (.device s.line) l l')
    (hs : served s.line l.dev = some (s.command, s.index, l.dev s.status)) :
    ∃ l₁, Signalled s.index (l.dev s.status) (l.setDev s.command ack) l₁ ∧ Resumed l₁ l' := by
  cases h with
  | deviceNone hn hr => rw [hs] at hn; cases hn
  | device hd hsig hr =>
      rw [hs, Option.some.injEq, Prod.mk.injEq, Prod.mk.injEq] at hd
      obtain ⟨rfl, rfl, rfl⟩ := hd
      exact ⟨_, hsig, hr⟩

/-- The device interrupt on lists, where the queues are the log. -/
theorem device_lists (h : (withLog asked ((nucleus Pointers).restrict Orderly)).Reachable (k, log))
    (hp : Possible k e) {n : ℕ} (ha : action e = .device n) :
    ∃ k' l l', kernelEntry e k = some k' ∧ KernelRel k l ∧ KernelRel k' l' ∧
      Effect (.device n) (prepared e l) l' ∧
        ∀ s : SubDevice, l.lists.waiters (deviceSemaphore s.index) = cameFor s.command log := by
  have hkill : ∀ (l : Kernel Lists) (e : Entry), Orderly l e → KillsByPlace l e :=
    fun _ _ ho => ho.byPlace
  obtain ⟨⟨l, _⟩, hl, hr, rfl⟩ := (log_refines hkill fun _ _ _ hr _ ho => ho.lists hr).reachable h
  have hsound := sound_of_reachable hkill hl.fst
  have hv : victim (action e) l = none := by rw [ha]; rfl
  obtain ⟨l', hrun, he⟩ := kernelEntry_spec hsound (hp.lists hr) (.of_victim hv)
  obtain ⟨k', hrun', hr'⟩ := kernelEntry_refines e hr l' hrun
  exact ⟨k', l, l', hrun', hr, hr', ha ▸ he, fun s =>
    waiters_eq_cameFor hkill (fun _ _ ho => cameFor_asked s ho.spares ho.register _) hl⟩

theorem serves_of_served
    (h : (withLog asked ((nucleus Pointers).restrict Orderly)).Reachable (k, log))
    (hp : Possible k e) (ha : action e = .device s.line)
    (hs : served s.line e.dev = some (s.command, s.index, e.dev s.status)) :
    ∃ k', kernelEntry e k = some k' ∧ Serves s k log e k' := by
  obtain ⟨k', l, l', hrun', hr, hr', he, hlogs⟩ := device_lists h hp ha
  have hlog := hlogs s
  obtain ⟨l₁, hsig, hres⟩ := he.serves hs
  refine ⟨k', hrun', ?_, ⟨_, _, hr.store.queues, hr'.store.queues, ?_, fun key => ?_⟩,
    fun p hp => ?_, fun hn => ?_⟩
  · rw [hr'.data, hres.dev, hsig.dev]
    rfl
  · rw [Lists.queues_waiters]
    exact hlog
  · rw [Lists.queues_waiters, Lists.queues_waiters]
    have hw : l'.lists.waiters key = l₁.lists.waiters key := by
      rw [Lists.waiters_def, Lists.waiters_def, hres.asl]
    exact hw.trans (hsig.waiters key)
  · rw [← hlog] at hp
    obtain ⟨ha0, hsoft, hready⟩ := hsig.head hp
    refine ⟨?_, ?_, ?_⟩
    · rw [hr'.pcb, hres.pcb]
      exact ha0
    · rw [hr'.data, hr.data, hres.softBlockCount]
      exact hsoft
    · rw [hr.data, hr'.data]
      rcases hres.ready hready with hin | ⟨hc, hc'⟩
      · exact .inl ⟨_, hr'.store.ready.trans rfl, hin⟩
      · exact .inr ⟨hsig.curr.symm.trans hc, hc'⟩
  · rw [← hlog] at hn
    rw [hr'.data, hr.data, hres.softBlockCount]
    exact hsig.unclaimed hn

/-- The entry is the interrupt of the device of `s`. -/
def Interrupts (s : SubDevice) (e : Entry) : Prop :=
  action e = .device s.line ∧ devNo (e.dev (bitmapAddr s.line)) = some s.dev.val

/-- The handler serves a completed sub-device. When another one of the device is
complete and stays so until it is acknowledged, the next interrupt serves that. -/
def ServesOne (k : Kernel Pointers) (log : List (Word × Pcb)) (e : Entry) : Prop :=
  ∃ s k', Interrupts s e ∧ s.Completed e.dev ∧ kernelEntry e k = some k' ∧ Serves s k log e k' ∧
    ∀ t, t ≠ s → Interrupts t e → t.Completed e.dev → ∀ e', Possible k' e' →
      Interrupts t e' → ¬ s.Completed e'.dev → e'.dev t.status = e.dev t.status →
      ∃ k'', kernelEntry e' k' = some k'' ∧ Serves t k' (updateLog asked k e k' log) e' k''

/-- Every interrupt for a completed operation is served. -/
def ServesCompleted (k : Kernel Pointers) (log : List (Word × Pcb)) (e : Entry) : Prop :=
  ∀ s, Interrupts s e → s.Completed e.dev → ServesOne k log e

omit [Layout] in
theorem Interrupts.same {t : SubDevice} (hs : Interrupts s e) (ht : Interrupts t e) :
    t.line = s.line ∧ t.dev = s.dev := by
  have hl : t.line = s.line := Action.device.inj (ht.1.symm.trans hs.1)
  have hd := ht.2
  rw [hl, hs.2, Option.some.injEq] at hd
  exact ⟨hl, Fin.ext hd.symm⟩

/-- The transmitter comes first. -/
theorem transmitter_served
    (h : (withLog asked ((nucleus Pointers).restrict Orderly)).Reachable (k, log))
    (hp : Possible k e) (ho : Orderly k e)
    (hrec : ∀ s, Interrupts s e → s.Completed e.dev → s.Recognised e.dev) {d : Fin 8}
    (hi : Interrupts (.transmitter d) e) (hc : (SubDevice.transmitter d).Completed e.dev) :
    ServesOne k log e := by
  obtain ⟨k', hrun, hserves⟩ :=
    serves_of_served h hp hi.1 (served_transmitter hi.2 (hrec _ hi hc))
  refine ⟨_, k', hi, hc, hrun, hserves, fun t hne hti htc e' hp' hi' hnc hst => ?_⟩
  obtain ⟨d', ⟨rfl, hs⟩ | ⟨-, hs⟩⟩ :=
    SubDevice.eq_of_line_dev (hi.same hti).1 (hi.same hti).2 hne
  · obtain rfl := SubDevice.transmitter.inj hs
    have hr : (SubDevice.receiver d).Recognised e'.dev := by
      have hrr : statusCode (e.dev _) = 5 := hrec _ hti htc
      exact (congrArg statusCode hst).trans hrr
    have hreach : (withLog asked ((nucleus Pointers).restrict Orderly)).Reachable
        (k', updateLog asked k e k' log) := .step h ⟨⟨ho, hp, hrun⟩, rfl⟩
    exact serves_of_served hreach hp' hi'.1
      (served_receiver hi'.2 (fun hrt => hnc hrt.completed) hr)
  · cases hs

/-- When the handler recognises all that has completed, it serves it. -/
theorem serves_recognised
    (h : (withLog asked ((nucleus Pointers).restrict Orderly)).Reachable (k, log))
    (hp : Possible k e) (ho : Orderly k e)
    (hrec : ∀ s, Interrupts s e → s.Completed e.dev → s.Recognised e.dev) :
    ServesCompleted k log e := by
  intro s₀ hi₀ hc₀
  cases s₀ with
  | block l d =>
      obtain ⟨k', hrun, hserves⟩ := serves_of_served h hp hi₀.1 (served_block l hi₀.2)
      refine ⟨_, k', hi₀, hc₀, hrun, hserves, fun t hne hti => ?_⟩
      obtain ⟨d', ⟨-, hs⟩ | ⟨-, hs⟩⟩ :=
        SubDevice.eq_of_line_dev (hi₀.same hti).1 (hi₀.same hti).2 hne <;> cases hs
  | transmitter d => exact transmitter_served h hp ho hrec hi₀ hc₀
  | receiver d =>
      have hit : Interrupts (.transmitter d) e := hi₀
      by_cases hct : (SubDevice.transmitter d).Completed e.dev
      · exact transmitter_served h hp ho hrec hit hct
      · obtain ⟨k', hrun, hserves⟩ := serves_of_served h hp hi₀.1
          (served_receiver hi₀.2 (fun hrt => hct hrt.completed) (hrec _ hi₀ hc₀))
        refine ⟨_, k', hi₀, hc₀, hrun, hserves, fun t hne hti htc => ?_⟩
        obtain ⟨d', ⟨-, hs⟩ | ⟨rfl, hs⟩⟩ :=
          SubDevice.eq_of_line_dev (hi₀.same hti).1 (hi₀.same hti).2 hne
        · cases hs
        · obtain rfl := SubDevice.receiver.inj hs
          exact absurd htc hct

omit [Layout] in
theorem ne_tail {α : Type*} {l : List α} (h : l ≠ []) : l ≠ l.tail := fun he => by
  have hlen := congrArg List.length he
  have hpos := List.length_pos_iff.mpr h
  rw [List.length_tail] at hlen
  omega

/-- One interrupt serves one sub-device for which a process waits. -/
theorem Serves.unique {t : SubDevice} {k' : Kernel Pointers} (hs : Serves s k log e k')
    (ht : Serves t k log e k') (hw : cameFor s.command log ≠ []) : t = s := by
  by_contra hne
  obtain ⟨qs, qs', hqs, hqs', hcame, htail⟩ := hs.queues
  obtain ⟨rs, rs', hrs, hrs', -, htail'⟩ := ht.queues
  obtain rfl : qs = rs := Option.some.inj (hqs.symm.trans hrs)
  obtain rfl : qs' = rs' := Option.some.inj (hqs'.symm.trans hrs')
  have hkey : deviceSemaphore s.index ≠ deviceSemaphore t.index := fun he =>
    hne (SubDevice.deviceSemaphore_injective he).symm
  have h1 := htail (deviceSemaphore s.index)
  have h2 := htail' (deviceSemaphore s.index)
  rw [if_pos rfl, hcame] at h1
  rw [if_neg hkey, hcame] at h2
  exact ne_tail hw (h2.symm.trans h1)

/-- What the handler does not recognise keeps its waiters. -/
theorem not_serves
    (h : (withLog asked ((nucleus Pointers).restrict Orderly)).Reachable (k, log))
    (hp : Possible k e) (ha : action e = .device s.line) (hs : served s.line e.dev = none)
    {k' : Kernel Pointers} (hk' : kernelEntry e k = some k') (hw : cameFor s.command log ≠ []) :
    ¬ Serves s k log e k' := by
  intro hserves
  obtain ⟨k₁, l, l', hrun', hr, hr', he, -⟩ := device_lists h hp ha
  obtain rfl : k' = k₁ := Option.some.inj (hk'.symm.trans hrun')
  obtain ⟨qs, qs', hqs, hqs', hcame, htail⟩ := hserves.queues
  obtain rfl : l.lists.queues = qs := Option.some.inj (hr.store.queues.symm.trans hqs)
  obtain rfl : l'.lists.queues = qs' := Option.some.inj (hr'.store.queues.symm.trans hqs')
  have hsame : l'.lists.asl = l.lists.asl := by
    cases he with
    | deviceNone _ hres => exact hres.asl
    | device hd => exact absurd (hs.symm.trans hd) (Option.some_ne_none _).symm
  have h1 := htail (deviceSemaphore s.index)
  rw [if_pos rfl, hcame, Lists.queues_waiters, Lists.waiters_def, hsame, ← Lists.waiters_def,
    ← Lists.queues_waiters, hcame] at h1
  exact ne_tail hw h1

/-- After the V that wakes somebody the CPU runs. -/
theorem running_of_served
    (h : (withLog asked ((nucleus Pointers).restrict Orderly)).Reachable (k, log))
    (hp : Possible k e) (ha : action e = .device s.line)
    (hs : served s.line e.dev = some (s.command, s.index, e.dev s.status))
    {k' : Kernel Pointers} (hk' : kernelEntry e k = some k') (hw : cameFor s.command log ≠ []) :
    k'.cpu.isRunning = true := by
  obtain ⟨k₁, l, l', hrun', hr, hr', he, hlogs⟩ := device_lists h hp ha
  obtain rfl : k' = k₁ := Option.some.inj (hk'.symm.trans hrun')
  obtain ⟨l₁, hsig, hres⟩ := he.serves hs
  obtain ⟨p, hp⟩ := Option.ne_none_iff_exists'.mp (mt List.head?_eq_none_iff.mp hw)
  rw [← hlogs s] at hp
  have hready := (hsig.head hp).2.2
  rw [congrArg KernelData.cpu hr'.data]
  cases hres with
  | ldst => rfl
  | dispatch _ hd =>
      cases hd with
      | idle hn => exact absurd hready (by simp [hn])
      | load => rfl

/-- What the handler serves is what it recognises. -/
theorem Serves.recognised
    (h : (withLog asked ((nucleus Pointers).restrict Orderly)).Reachable (k, log))
    (hp : Possible k e) (hi : Interrupts s e) {k' : Kernel Pointers}
    (hk' : kernelEntry e k = some k') (hs : Serves s k log e k') (hw : cameFor s.command log ≠ []) :
    s.Recognised e.dev ∧ served s.line e.dev = some (s.command, s.index, e.dev s.status) := by
  rcases served_eq s hi.2 with ⟨t, htl, htd, htr, hserved⟩ | ⟨hnone, -⟩
  · rw [← htl] at hserved
    obtain ⟨k₁, hk₁, ht⟩ := serves_of_served h hp (htl ▸ hi.1) hserved
    obtain rfl : k' = k₁ := Option.some.inj (hk'.symm.trans hk₁)
    obtain rfl := hs.unique ht hw
    exact ⟨htr, hserved⟩
  · exact absurd hs (not_serves h hp hi.1 hnone hk' hw)

/-- Who waits for another sub-device still does so at the next interrupt. -/
theorem Serves.cameFor_of_ne {e' : Entry} {t : SubDevice} {k' : Kernel Pointers}
    {log' : List (Word × Pcb)}
    (h : (withLog asked ((nucleus Pointers).restrict Orderly)).Reachable (k, log))
    (hp : Possible k e) (ha : action e = .device s.line)
    (h' : (withLog asked ((nucleus Pointers).restrict Orderly)).Reachable (k', log'))
    (hp' : Possible k' e') (ha' : action e' = .device t.line) (hs : Serves s k log e k')
    (hne : t ≠ s) : cameFor t.command log' = cameFor t.command log := by
  obtain ⟨-, l, -, -, hr, -, -, hlogs⟩ := device_lists h hp ha
  obtain ⟨-, l', -, -, hr', -, -, hlogs'⟩ := device_lists h' hp' ha'
  obtain ⟨qs, qs', hqs, hqs', -, htail⟩ := hs.queues
  obtain rfl : l.lists.queues = qs := Option.some.inj (hr.store.queues.symm.trans hqs)
  obtain rfl : l'.lists.queues = qs' := Option.some.inj (hr'.store.queues.symm.trans hqs')
  have hkey := htail (deviceSemaphore t.index)
  rwa [if_neg fun he => hne (SubDevice.deviceSemaphore_injective he), Lists.queues_waiters,
    Lists.queues_waiters, hlogs, hlogs'] at hkey

/-- When a process waits for all that has completed, and all is served, the handler
recognises it. -/
theorem recognised_of_serves
    (h : (withLog asked ((nucleus Pointers).restrict Orderly)).Reachable (k, log))
    (hp : Possible k e) (ho : Orderly k e)
    (hreq : ∀ s, Interrupts s e → s.Completed e.dev → cameFor s.command log ≠ [])
    (hall : ServesCompleted k log e) :
    ∀ s, Interrupts s e → s.Completed e.dev → s.Recognised e.dev := by
  intro s₀ hi₀ hc₀
  by_contra hu₀
  obtain ⟨s, k', hi, hc, hk', hserves, hnext⟩ := hall s₀ hi₀ hc₀
  have hw := hreq s hi hc
  have hw₀ := hreq s₀ hi₀ hc₀
  have hrec := hserves.recognised h hp hi hk' hw
  have hne : s₀ ≠ s := fun he => hu₀ (he ▸ hrec.1)
  obtain ⟨hl, hd⟩ := hi.same hi₀
  obtain ⟨hstatus, hbitmap⟩ := SubDevice.apart hl hd hne
  -- the next interrupt finds only the other half, with the same status
  let e' : Entry := { e with dev := Function.update e.dev s.status 1 }
  have hready : ¬ s.Completed e'.dev :=
    SubDevice.not_completed hl hd hne (Function.update_self ..)
  have hsame : e'.dev s₀.status = e.dev s₀.status := Function.update_of_ne hstatus ..
  have hi' : Interrupts s₀ e' :=
    ⟨hi₀.1, (congrArg devNo (Function.update_of_ne hbitmap ..)).trans hi₀.2⟩
  have hp' : Possible k' e' :=
    possible_of_running (running_of_served h hp hi.1 hrec.2 hk' hw) (by rw [hi'.1]; exact nofun)
  obtain ⟨k'', hk'', hserves₀⟩ := hnext s₀ hne hi₀ hc₀ e' hp' hi' hready hsame
  have hreach : (withLog asked ((nucleus Pointers).restrict Orderly)).Reachable
      (k', updateLog asked k e k' log) := .step h ⟨⟨ho, hp, hk'⟩, rfl⟩
  have hnone : served s₀.line e'.dev = none := by
    rcases served_eq s₀ hi'.2 with ⟨t, htl, htd, htr, -⟩ | ⟨hnone, -⟩
    · rcases SubDevice.eq_or_eq hl hd hne (htl.trans hl) (htd.trans hd) with rfl | rfl
      · exact absurd htr.completed hready
      · exact absurd (htr.congr hsame) hu₀
    · exact hnone
  have hlog := hserves.cameFor_of_ne h hp hi.1 hreach hp' hi'.1 hne
  exact not_serves hreach hp' hi'.1 hnone hk'' (hlog ▸ hw₀) hserves₀

/-- The handler serves the interrupts for completed operations when it recognises all that has
completed, and, where a process waits for all of it, only then. -/
theorem device_served
    (h : (withLog asked ((nucleus Pointers).restrict Orderly)).Reachable (k, log))
    (hp : Possible k e) (ho : Orderly k e) :
    ((∀ s, Interrupts s e → s.Completed e.dev → s.Recognised e.dev) → ServesCompleted k log e) ∧
    ((∀ s, Interrupts s e → s.Completed e.dev → cameFor s.command log ≠ []) →
      ServesCompleted k log e → ∀ s, Interrupts s e → s.Completed e.dev → s.Recognised e.dev) :=
  ⟨serves_recognised h hp ho, recognised_of_serves h hp ho⟩

end Interrupt

section Concrete

/-- The interrupt of the terminal 0, with the given status of its transmitter. -/
def terminalInterrupt (transmStatus : Word) : Entry :=
  { request 0 0 0 with
    exc := { machineState with cause := 0x80000015 }
    dev := fun a => if a = 0x10000050 ∨ a = 0x10000254 then 1
      else if a = 0x1000025C then transmStatus else 0 }

/-- NSYS5 on the transmitter of the terminal 0. -/
def transmit : Entry := request 0 doio 0x10000260

/-- The actions of the examples. -/
def transmits (a : Action) : Bool :=
  match a with
  | .createProcess _ _ _ | .yield | .termProcess _ => true
  | .doio a1 _ => a1 = 0x10000260
  | _ => false

theorem orderly_of_transmits [Layout] {k : Kernel Pointers} {e : Entry}
    (h : (tidy k && transmits (action e)) = true) : Orderly k e := by
  obtain ⟨htidy, ha⟩ := Bool.and_eq_true_iff.mp h
  obtain ⟨hplace, hwait⟩ := byPlace_of_tidy (e := e) htidy
  refine ⟨hplace, hwait, fun a1 hact => ?_, fun a1 a2 hact => ?_⟩
  · rcases hact with hact | hact <;> rw [hact] at ha <;> cases ha
  · rw [hact] at ha
    exact ⟨.transmitter 0, (of_decide_eq_true ha).trans (by decide)⟩

theorem orderly_of_device [Layout] {k : Kernel Pointers} {e : Entry} {n : ℕ}
    (htidy : tidy k = true) (ha : action e = .device n) : Orderly k e := by
  obtain ⟨hplace, hwait⟩ := byPlace_of_tidy (e := e) htidy
  refine ⟨hplace, hwait, fun a1 hact => ?_, fun a1 a2 hact => ?_⟩
  · rw [ha] at hact
    rcases hact with hact | hact <;> cases hact
  · cases ha.symm.trans hact

theorem action_terminalInterrupt (w : Word) : action (terminalInterrupt w) = .device 7 := by
  have h : (decode { machineState with cause := 0x80000015 }).1 = .device 7 := by decide
  exact h

theorem interrupts_terminalInterrupt (w : Word) {s : SubDevice} :
    Interrupts s (terminalInterrupt w) ↔ s = .receiver 0 ∨ s = .transmitter 0 := by
  have haddr : bitmapAddr 7 = 0x10000050 := by decide
  have hbitmap : devNo ((terminalInterrupt w).dev (bitmapAddr 7)) = some 0 := by
    rw [haddr, show (terminalInterrupt w).dev 0x10000050 = 1 by simp [terminalInterrupt]]
    decide
  have hi : ∀ s : SubDevice, s.line = 7 → s.dev = 0 → Interrupts s (terminalInterrupt w) :=
    fun s hl hd => ⟨by rw [hl]; exact action_terminalInterrupt w, by rw [hl, hd]; exact hbitmap⟩
  constructor
  · intro hs
    by_cases hne : s = .transmitter 0
    · exact .inr hne
    · have ht := hi (.transmitter 0) rfl rfl
      obtain ⟨d, ⟨rfl, hd⟩ | ⟨rfl, hd⟩⟩ :=
        SubDevice.eq_of_line_dev (ht.same hs).1 (ht.same hs).2 hne
      · rw [← SubDevice.transmitter.inj hd]
        exact .inl rfl
      · cases hd
  · rintro (rfl | rfl) <;> exact hi _ rfl rfl

/-- A transmission that ends in an error is not acknowledged, and nobody is
woken. -/
theorem error_unserved : ¬ ∀ (_ : Layout) (k : Kernel Pointers) (log : List (Word × Pcb))
    (e : Entry), (withLog asked ((nucleus Pointers).restrict Orderly)).Reachable (k, log) →
      Possible k e → Orderly k e → ServesCompleted k log e := by
  intro h
  let := ramLayout
  let run := bareRun (fun k e => tidy k && transmits (action e))
    [request 0 createProcess 0, transmit]
  have hrun : run.isSome = true := by decide +kernel
  have hposs : (run.all fun k => Possible k (terminalInterrupt 4) ∧ tidy k) = true := by
    decide +kernel
  have hdev : (run.all fun k => (kernelEntry (terminalInterrupt 4) k).all fun k =>
      k.dev 0x10000258 = 0 ∧ k.dev 0x10000260 = 0) = true := by decide +kernel
  obtain ⟨k, hk⟩ := Option.isSome_iff_exists.mp hrun
  rw [hk] at hposs hdev
  obtain ⟨hp, htidy⟩ := of_decide_eq_true hposs
  obtain ⟨log, hlog⟩ := (bareRun_restrict (fun _ _ => orderly_of_transmits) hk).exists_history
  have horderly := orderly_of_device htidy (action_terminalInterrupt 4)
  obtain ⟨s, k', hi, -, hk', hs, -⟩ := h ramLayout k log (terminalInterrupt 4) hlog hp horderly
    (.transmitter 0) ((interrupts_terminalInterrupt 4).mpr (.inr rfl)) (by decide)
  simp only [Option.all, hk'] at hdev
  obtain ⟨hrecv, htransm⟩ := of_decide_eq_true hdev
  rcases (interrupts_terminalInterrupt 4).mp hi with rfl | rfl
  · have hack := congrFun hs.acknowledged 0x10000258
    rw [hrecv] at hack
    exact absurd hack (by decide)
  · have hack := congrFun hs.acknowledged 0x10000260
    rw [htransm] at hack
    exact absurd hack (by decide)

/-- A process that waits for the transmitter is killed, then another one waits for it. Its
transmission succeeds; the receiver is idle. -/
theorem device_served_run : ∃ k log, bareRun (fun k e => tidy k && transmits (action e))
    (killEvents transmit ++ [transmit]) = some k ∧
      @ServesCompleted ramLayout k log (terminalInterrupt 5) := by
  let := ramLayout
  have hany : (bareRun (fun k e => tidy k && transmits (action e))
      (killEvents transmit ++ [transmit])).any (fun k =>
        Possible k (terminalInterrupt 5) ∧ tidy k) = true := by decide +kernel
  obtain ⟨k, hk, hcheck⟩ := (Option.any_eq_true _ _).mp hany
  obtain ⟨hp, htidy⟩ := of_decide_eq_true hcheck
  obtain ⟨log, hlog⟩ := (bareRun_restrict (fun _ _ => orderly_of_transmits) hk).exists_history
  have horderly := orderly_of_device htidy (action_terminalInterrupt 5)
  refine ⟨k, log, hk, (device_served hlog hp horderly).1 fun s hi hc => ?_⟩
  rcases (interrupts_terminalInterrupt 5).mp hi with rfl | rfl
  · exact absurd hc (by decide)
  · exact (by decide : statusCode ((terminalInterrupt 5).dev
      (SubDevice.transmitter 0).status) = 5)

end Concrete
end PandOSsh.Nucleus
