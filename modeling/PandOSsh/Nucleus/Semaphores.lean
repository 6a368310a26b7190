import PandOSsh.Library.Semaphore
import PandOSsh.Nucleus.CpuTime
import PandOSsh.Nucleus.DeviceIo

/-!
# The semaphore law

NSYS3 and NSYS4 on an address outside `device_semaphores` are P and V of a
counting semaphore with a queue: the value is in user memory, the waiters are in
the active semaphore list. Nothing else that the Nucleus does touches either,
and the law follows from what P and V do to a semaphore, as long as no V
overflows the value.
-/

namespace PandOSsh.Nucleus
open Library

section Lists
variable {k k₁ k' : Kernel Lists} {a key : Word} {p : Pcb}

/-- The semaphore at an address. -/
def semaphore (a : Word) (k : Kernel Lists) : Semaphore Pcb := ⟨(k.mem a).toInt, k.lists.waiters a⟩

/-- What an action of the process `curr` does to the semaphore at `a`. -/
def Action.apply (act : Action) (a : Word) (curr : Option Pcb) (s : Semaphore Pcb) :
    Semaphore Pcb :=
  match act with
  | .passeren a1 => if a1 = a then curr.elim s fun p => s.passeren p else s
  | .verhogen a1 => if a1 = a then s.verhogen else s
  | _ => s

theorem semaphore_congr (hm : k'.mem a = k.mem a) (hw : k'.lists.waiters a = k.lists.waiters a) :
    semaphore a k' = semaphore a k := by
  rw [semaphore, semaphore, hm, hw]

theorem Lists.waiters_congr {v v' : Lists} (h : v'.asl = v.asl) (a : Word) :
    v'.waiters a = v.waiters a := by
  rw [Lists.waiters_def, Lists.waiters_def, h]

theorem Dispatched.semaphore (h : Dispatched k k') (a : Word) :
    semaphore a k' = semaphore a k :=
  semaphore_congr (by cases h <;> rfl) (Lists.waiters_congr h.asl a)

theorem Resumed.semaphore (h : Resumed k k') (a : Word) : semaphore a k' = semaphore a k := by
  cases h with
  | ldst => rfl
  | dispatch _ hd => exact hd.semaphore a

theorem Requeued.semaphore {t : Word} (h : Requeued p t k k') (a : Word) :
    semaphore a k' = semaphore a k :=
  semaphore_congr (congrFun (congrArg KernelData.mem h.data :) a) (Lists.waiters_congr h.asl a)

theorem Blocked.mem (h : Blocked key p k k') : k'.mem = k.mem :=
  (congrArg KernelData.mem h.data :)

theorem Blocked.semaphore_ne (h : Blocked key p k k') (hne : key ≠ a) :
    semaphore a k' = semaphore a k := by
  refine semaphore_congr (congrFun h.mem a) ?_
  rw [h.queues.waiters, if_neg hne.symm]

theorem WokenAll.semaphore_ne (h : WokenAll key k k') (hne : key ≠ a) :
    semaphore a k' = semaphore a k := by
  induction h with
  | done => rfl
  | wake h hd _ ih =>
      refine ih.trans (semaphore_congr (by rw [hd]) ?_)
      rw [h.waiters, if_neg hne.symm]

theorem Created.semaphore {a1 a2 a3 : Word} {c : Pcb} (h : Created a1 a2 a3 p c k k') (a : Word) :
    semaphore a k' = semaphore a k :=
  semaphore_congr (congrFun (congrArg KernelData.mem h.data :) a) (h.waiters a)

theorem semaphore_setMem_ne (w : Word) (hne : key ≠ a) :
    semaphore a (k.setMem key w) = semaphore a k :=
  semaphore_congr (Function.update_of_ne hne.symm _ _) rfl

theorem toInt_add_one {w : Word} (h : w.toInt < 2 ^ 31 - 1) : (w + 1).toInt = w.toInt + 1 := by
  have h1 := w.toInt_lt
  have h2 := w.le_toInt
  rw [BitVec.toInt_add, show (1 : Word).toInt = 1 by decide, Int.bmod_eq_of_le] <;> omega

theorem toInt_sub_one {w : Word} (h : 0 < w.toInt) : (w - 1).toInt = w.toInt - 1 := by
  have h1 := w.toInt_lt
  rw [BitVec.toInt_sub, show (1 : Word).toInt = 1 by decide, Int.bmod_eq_of_le] <;> omega

theorem semaphore_passeren_take (h : 0 < (k.mem a).toInt) :
    semaphore a (k.setMem a (k.mem a - 1)) = (semaphore a k).passeren p := by
  have hm : (k.setMem a (k.mem a - 1)).mem a = k.mem a - 1 := Function.update_self ..
  rw [Semaphore.passeren, semaphore, semaphore, hm, toInt_sub_one h, if_pos h]
  rfl

theorem semaphore_passeren_wait (h : ¬ 0 < (k.mem a).toInt) (hb : Blocked a p k k') :
    semaphore a k' = (semaphore a k).passeren p := by
  rw [Semaphore.passeren, semaphore, semaphore, hb.mem, hb.queues.waiters, if_pos rfl, if_neg h]

theorem semaphore_verhogen_empty (h : k.lists.waiters a = []) (hm : (k.mem a).toInt < 2 ^ 31 - 1) :
    semaphore a (k.setMem a (k.mem a + 1)) = (semaphore a k).verhogen := by
  have hm' : (k.setMem a (k.mem a + 1)).mem a = k.mem a + 1 := Function.update_self ..
  have hw : (k.setMem a (k.mem a + 1)).lists.waiters a = [] := h
  rw [Semaphore.verhogen, semaphore, semaphore, hm', hw, h, toInt_add_one hm]

theorem semaphore_verhogen_wake {s : ProcessorState} (h : Woken a p s k k')
    (hd : k'.toKernelData = k.toKernelData) : semaphore a k' = (semaphore a k).verhogen := by
  obtain ⟨ps, hps⟩ := List.head?_eq_some_iff.mp h.head
  have hm : k'.mem = k.mem := (congrArg KernelData.mem hd :)
  rw [Semaphore.verhogen, semaphore, semaphore, hm, h.waiters, if_pos rfl, hps]
  rfl

variable [Layout]

theorem Signalled.semaphore_ne {i : ℕ} {status : Word} (h : Signalled i status k k')
    (hne : deviceSemaphore i ≠ a) : semaphore a k' = semaphore a k := by
  cases h with
  | empty => exact semaphore_setMem_ne _ hne
  | wake h hd =>
      refine semaphore_congr (by rw [hd]) ?_
      rw [h.waiters, if_neg hne.symm]

theorem ne_of_device {i : ℤ} (h0 : 0 ≤ i) (h1 : i < nrSemaphores)
    (ha : isDeviceSemaphore a = false) : deviceSemaphore i ≠ a := fun he => by
  rw [← he, isDeviceSemaphore_deviceSemaphore h0 h1] at ha
  cases ha

/-- Apart from P and V, an entry leaves a semaphore outside `device_semaphores`
as it is. -/
theorem Effect.semaphore {act : Action} (h : Effect act k k') (hv : victim act k = none)
    (hc : act.isDevice = false → ∃ p, k.currProc = some p) (ha : isDeviceSemaphore a = false)
    (hline : ∀ n, act = .device n → n ≤ 7)
    (hidx : ∀ a1 a2, act = .doio a1 a2 → 0 ≤ semIndex a1 ∧ semIndex a1 < nrSemaphores)
    (hmax : act = .verhogen a → (k.mem a).toInt < 2 ^ 31 - 1) :
    semaphore a k' = act.apply a k.currProc (semaphore a k) := by
  have hclock : deviceSemaphore nSuppSem ≠ a := ne_of_device (by decide) (by decide) ha
  cases h with
  | plt h hd | yield h hd => exact (hd.semaphore a).trans (h.semaphore a)
  | itIdle _ h hd =>
      exact (hd.semaphore a).trans ((semaphore_setMem_ne 0 hclock).trans (h.semaphore_ne hclock))
  | it h hr hd =>
      exact (hd.semaphore a).trans ((hr.semaphore a).trans
        ((semaphore_setMem_ne 0 hclock).trans (h.semaphore_ne hclock)))
  | deviceNone h hr => exact hr.semaphore a
  | device h hs hr =>
      have hi := Int.ofNat_lt.mpr
        ((served_index (hline _ rfl) h).trans (show nSuppSem < nrSemaphores by decide))
      exact (hr.semaphore a).trans
        (hs.semaphore_ne (ne_of_device (Int.natCast_nonneg _) hi ha))
  | create h => exact h.semaphore a
  | term hvt h hd => exact absurd (hv.symm.trans (victim_term hvt)) nofun
  | die hp hn h hd => exact absurd hv (by simp [victim, hp, hn])
  | @passerenTake _ a1 hval =>
      rw [Action.apply]
      by_cases he : a1 = a
      · subst he
        obtain ⟨p, hp⟩ := hc rfl
        rw [if_pos rfl, hp]
        exact semaphore_passeren_take hval
      · rw [if_neg he]
        exact semaphore_setMem_ne _ he
  | @passeren _ _ _ a1 p hval h hd =>
      rw [Action.apply, hd.semaphore]
      by_cases he : a1 = a
      · subst he
        rw [if_pos rfl, h.curr]
        exact semaphore_passeren_wait hval h
      · rw [if_neg he]
        exact h.semaphore_ne he
  | @verhogenEmpty _ a1 hw =>
      rw [Action.apply]
      by_cases he : a1 = a
      · subst he
        rw [if_pos rfl]
        exact semaphore_verhogen_empty hw (hmax rfl)
      · rw [if_neg he]
        exact semaphore_setMem_ne _ he
  | @verhogen _ k₁ a1 p h hd =>
      rw [Action.apply]
      by_cases he : a1 = a
      · subst he
        rw [if_pos rfl]
        change Nucleus.semaphore a1 k₁ = _
        exact semaphore_verhogen_wake h hd
      · rw [if_neg he]
        refine semaphore_congr (congrFun (congrArg KernelData.mem hd :) a) ?_
        exact (h.waiters a).trans (if_neg fun he' => he he'.symm)
  | doio h hd =>
      obtain ⟨h0, h1⟩ := hidx _ _ rfl
      exact (hd.semaphore a).trans (h.semaphore_ne (ne_of_device h0 h1 ha))
  | clockWait h hd => exact (hd.semaphore a).trans (h.semaphore_ne hclock)
  | _ => rfl

end Lists

section History

/-- The past of a semaphore: its value when it was first used, and the P and V
operations on it. -/
structure SemCount where
  initial : Word
  ps : ℕ
  vs : ℕ

namespace SemCount

def Used (c : SemCount) : Prop := 0 < c.ps + c.vs

instance (c : SemCount) : Decidable c.Used := inferInstanceAs (Decidable (0 < _))

/-- The count of the semaphore at `a` after an action that found the value `w`. -/
def record (a : Word) (act : Action) (w : Word) (c : SemCount) : SemCount where
  initial := if c.Used then c.initial else w
  ps := c.ps + if act = .passeren a then 1 else 0
  vs := c.vs + if act = .verhogen a then 1 else 0

/-- No V can have overflowed the value. -/
def Bounded (c : SemCount) : Prop := 0 ≤ c.initial.toInt ∧ c.initial.toInt + c.vs ≤ 2 ^ 31 - 1

instance (c : SemCount) : Decidable c.Bounded := inferInstanceAs (Decidable (_ ∧ _))

end SemCount

/-- What the counts say about a semaphore. -/
structure Obeys (s : Semaphore Pcb) (c : SemCount) : Prop where
  unused : ¬ c.Used → s.queue = []
  sane : c.Bounded → s.Sane
  waiting : c.Bounded → s.queue.length ≤ c.ps
  balance : c.Bounded → s.balance = c.initial.toInt + c.vs - c.ps

variable {s : Semaphore Pcb} {c : SemCount} {a w : Word} {act : Action}

theorem Obeys.value_le (h : Obeys s c) (hb : c.Bounded) : s.value ≤ c.initial.toInt + c.vs := by
  have hbal := h.balance hb
  have hlen := h.waiting hb
  rw [Semaphore.balance] at hbal
  omega

/-- An unused semaphore starts with whatever value it has. -/
theorem Obeys.start (h : Obeys s c) (hw : c.Used → w.toInt = s.value) :
    Obeys ⟨w.toInt, s.queue⟩ { c with initial := if c.Used then c.initial else w } := by
  by_cases hu : c.Used
  · rw [if_pos hu, hw hu]
    exact h
  · have hq := h.unused hu
    have hps : c.ps = 0 ∧ c.vs = 0 := by
      unfold SemCount.Used at hu
      omega
    rw [if_neg hu, hq]
    refine ⟨fun _ => rfl, fun hb => ⟨hb.1, fun hne => absurd rfl hne⟩, fun _ => ?_, fun _ => ?_⟩
    · simp
    · simp [Semaphore.balance, hps]

theorem Obeys.apply (h : Obeys s c) {p : Option Pcb} (hp : act = .passeren a → ∃ q, p = some q) :
    Obeys (act.apply a p s) { c with
      ps := c.ps + if act = .passeren a then 1 else 0
      vs := c.vs + if act = .verhogen a then 1 else 0 } := by
  by_cases hP : act = .passeren a
  · subst hP
    obtain ⟨q, rfl⟩ := hp rfl
    rw [if_pos rfl, if_neg nofun, show Action.apply (.passeren a) a (some q) s = s.passeren q from
      if_pos rfl]
    refine ⟨fun hu => absurd (Nat.zero_lt_of_lt (Nat.lt_add_right _ (Nat.lt_succ_self _))) hu,
      fun hb => (h.sane hb).passeren q, fun hb => ?_, fun hb => ?_⟩
    · exact (s.length_passeren q).trans (Nat.add_le_add_right (h.waiting hb) 1)
    · have hbal := h.balance hb
      rw [s.balance_passeren, hbal]
      push_cast
      omega
  · by_cases hV : act = .verhogen a
    · subst hV
      have hb' {n : ℕ} (hb : SemCount.Bounded ⟨c.initial, n, c.vs + 1⟩) : c.Bounded := by
        obtain ⟨h0, hmax⟩ := hb
        exact ⟨h0, by push_cast at hmax; omega⟩
      rw [if_neg nofun, if_pos rfl, show Action.apply (.verhogen a) a p s = s.verhogen from
        if_pos rfl]
      refine ⟨fun hu => absurd (Nat.succ_pos _) hu, fun hb => (h.sane (hb' hb)).verhogen,
        fun hb => s.length_verhogen.trans (h.waiting (hb' hb)), fun hb => ?_⟩
      have hbal := h.balance (hb' hb)
      rw [s.balance_verhogen, hbal]
      push_cast
      omega
    · have hs : act.apply a p s = s := by
        cases act with
        | passeren a1 => exact if_neg fun he => hP (by rw [he])
        | verhogen a1 => exact if_neg fun he => hV (by rw [he])
        | _ => rfl
      rw [hs, if_neg hP, if_neg hV]
      exact h

end History

section Runs

/-- The P operations, under their semaphores. -/
def passed (a : Action) (d : KernelData) : Option (Word × Pcb) :=
  match a with
  | .passeren a1 => d.currProc.map fun p => (a1, p)
  | _ => none

variable {Q : Type} [QueueApi Q] [Layout]

/-- Nobody is killed, and NSYS5 stays in `device_semaphores`. -/
structure Peaceful (k : Kernel Q) (e : Entry) : Prop where
  unkilled : Unkilled k e
  index : ValidIndex e

/-- The peaceful runs, with those who wait and with the counts of all
semaphores. -/
def countedRuns (Q : Type) [QueueApi Q] :
    System ((Kernel Q × List (Word × Pcb)) × (Word → SemCount)) Entry :=
  (withLog passed ((nucleus Q).restrict Peaceful)).withHistory
    (fun x a => ⟨x.1.mem a, 0, 0⟩) fun _ e _ c a => (c a).record a (action e) (e.mem a)

/-- The runs in which the semaphores `sems` are left to NSYS3 and NSYS4 from
their first use on. -/
def semaphoreRuns (Q : Type) [QueueApi Q] (sems : Set Word) :
    System ((Kernel Q × List (Word × Pcb)) × (Word → SemCount)) Entry :=
  (countedRuns Q).restrict fun x e => ∀ a ∈ sems, (x.2 a).Used → e.mem a = x.1.1.mem a

variable {sems : Set Word} {a : Word}

theorem semaphoreRuns_init {k : Kernel Q} (h : (nucleus Q).init k) :
    (semaphoreRuns Q sems).Reachable ((k, []), fun a => ⟨k.mem a, 0, 0⟩) := .init ⟨⟨h, rfl⟩, rfl⟩

theorem semaphoreRuns_step {k k' : Kernel Q} {e : Entry} {log : List (Word × Pcb)}
    {c : Word → SemCount} (h : (semaphoreRuns Q sems).Reachable ((k, log), c))
    (hc : Peaceful k e) (hmem : ∀ a ∈ sems, (c a).Used → e.mem a = k.mem a) (hp : Possible k e)
    (hrun : kernelEntry e k = some k') :
    (semaphoreRuns Q sems).Reachable ((k', updateLog passed k e k' log),
      fun a => (c a).record a (action e) (e.mem a)) :=
  .step h ⟨hmem, ⟨⟨⟨hc, hp, hrun⟩, rfl⟩, rfl⟩⟩

/-- Outside `device_semaphores`, only NSYS3 queues processes. -/
theorem cameFor_passed (ha : isDeviceSemaphore a = false) {e : Entry} (hi : ValidIndex e)
    (d : KernelData) : cameFor a (entered (action e) d).toList =
      cameFor a (passed (action e) d).toList := by
  cases hact : action e with
  | doio a1 a2 =>
      obtain ⟨h0, h1⟩ := hi a1 a2 hact
      rw [entered_doio, cameFor_toList, if_neg (ne_of_device h0 h1 ha)]
      rfl
  | clockWait =>
      have hne : pseudoClockSem ≠ a := ne_of_device (by decide) (by decide) ha
      rw [entered_clockWait, cameFor_toList, if_neg hne]
      rfl
  | _ => rfl

omit [Layout] in
theorem peaceful_kills (l : Kernel Lists) (e : Entry) (h : Peaceful l e) : KillsByPlace l e :=
  .of_victim h.unkilled

omit [QueueApi Q] in
theorem prepared_mem (ha : isDeviceSemaphore a = false) (e : Entry) (k : Kernel Q) :
    (prepared e k).mem a = e.mem a := by
  change (if isDeviceSemaphore a then k.mem a else e.mem a) = _
  rw [ha]
  rfl

/-- On lists: one entry of a run keeps the law. -/
theorem Obeys.step {l l' : Kernel Lists} {e : Entry} {c : SemCount}
    (h : Obeys (semaphore a l) c) (hl : Sound l) (hp : Possible l e) (hpeace : Peaceful l e)
    (ha : isDeviceSemaphore a = false) (hmem : c.Used → e.mem a = l.mem a)
    (he : Effect (action e) (prepared e l) l') :
    Obeys (semaphore a l') (c.record a (action e) (e.mem a)) := by
  have hc : (action e).isDevice = false → ∃ p, (prepared e l).currProc = some p := fun hd =>
    hl.current hp hd
  have hmem' := prepared_mem ha e l
  have hstart := h.start fun hu => congrArg BitVec.toInt (hmem hu)
  have hs : semaphore a (prepared e l) = ⟨(e.mem a).toInt, l.lists.waiters a⟩ := by
    rw [semaphore, hmem']
    rfl
  by_cases hmax : action e = .verhogen a → ((prepared e l).mem a).toInt < 2 ^ 31 - 1
  · have hline : ∀ n, action e = .device n → n ≤ 7 := fun n hn => (action_device hn).2
    rw [he.semaphore hpeace.unkilled hc ha hline hpeace.index hmax, hs]
    exact hstart.apply fun hP => hc (by rw [hP]; rfl)
  · obtain ⟨hV, hfull⟩ := Classical.not_imp.mp hmax
    rw [hmem'] at hfull
    have hb : ¬ (c.record a (action e) (e.mem a)).Bounded := fun ⟨h0, hb⟩ => by
      simp only [SemCount.record, if_pos hV] at h0 hb
      push_cast at hb
      have hb' : (if c.Used then c.initial else e.mem a).toInt + (c.vs : ℤ) ≤ 2 ^ 31 - 1 := by
        omega
      have hle := hstart.value_le ⟨h0, hb'⟩
      simp only at hle
      exact hfull (by omega)
    refine ⟨fun hu => absurd ?_ hu, fun h => absurd h hb, fun h => absurd h hb,
      fun h => absurd h hb⟩
    rw [SemCount.record, if_pos hV]
    exact Nat.succ_pos _

theorem obeys {x : (Kernel Lists × List (Word × Pcb)) × (Word → SemCount)}
    (h : (semaphoreRuns Lists sems).Reachable x) (hmem : a ∈ sems)
    (ha : isDeviceSemaphore a = false) : Obeys (semaphore a x.1.1) (x.2 a) := by
  refine h.invariant (I := fun x => Obeys (semaphore a x.1.1) (x.2 a)) ?_ ?_
  · intro x hx
    obtain ⟨b, hb⟩ := init_booted hx.1.1
    have hq : (semaphore a x.1.1).queue = [] := by
      rw [semaphore, Lists.waiters_def, hb.asl.1]
      rfl
    have hc : x.2 a = ⟨x.1.1.mem a, 0, 0⟩ := by rw [hx.2]
    rw [hc]
    refine ⟨fun _ => hq, fun hbd => ⟨hbd.1, fun hne => absurd hq hne⟩, fun _ => ?_, fun _ => ?_⟩
    · rw [hq]
      rfl
    · rw [Semaphore.balance, hq]
      simp [semaphore]
  · intro x e x' hr hi hs
    have hsound := sound_of_reachable peaceful_kills hr.of_restrict.fst.fst
    have he := (step_effect peaceful_kills hsound hs.2.1.1).1
    rw [hs.2.2]
    exact hi.step hsound hs.2.1.1.2.1 hs.2.1.1.1 ha (hs.1 a hmem) he

end Runs

section Law
variable [Layout] {sems : Set Word} {a : Word} {k : Kernel Pointers} {l l' : Kernel Lists}
  {e : Entry} {p : Pcb} {log : List (Word × Pcb)} {c : Word → SemCount}

/-- V has made `p` ready, the first waiter of `a`, and changed nothing else. -/
structure Released (a : Word) (p : Pcb) (e : Entry) (k k' : Kernel Pointers) : Prop where
  value : k'.mem a = e.mem a
  current : k'.currProc = k.currProc
  queues : ∃ qs qs', Pointer.queues k.store = some qs ∧ Pointer.queues k'.store = some qs' ∧
    qs'.ready.Perm (p :: qs.ready) ∧ ∀ key, qs'.waiters key =
      if key = a then (qs.waiters key).tail else qs.waiters key

/-- The law of the semaphore at `a`, with its count and the log of those who
wait. A P operation is complete unless its process waits. -/
structure SemaphoreLaw (a : Word) (k : Kernel Pointers) (log : List (Word × Pcb))
    (c : SemCount) : Prop where
  waiting : (cameFor a log).length ≤ c.ps
  value : (k.mem a).toInt = c.initial.toInt + c.vs - (c.ps - (cameFor a log).length)
  nonneg : 0 ≤ (k.mem a).toInt
  zero : cameFor a log ≠ [] → k.mem a = 0
  queue : ∃ qs, Pointer.queues k.store = some qs ∧ qs.waiters a = cameFor a log
  release : ∀ e p ps, Possible k e → action e = .verhogen a → cameFor a log = p :: ps →
    ∃ k', kernelEntry e k = some k' ∧ Released a p e k k'
  wait : ∀ e p, Possible k e → action e = .passeren a → k.currProc = some p →
    ¬ 0 < (e.mem a).toInt → ∃ k' qs', kernelEntry e k = some k' ∧
      Pointer.queues k'.store = some qs' ∧ qs'.waiters a = cameFor a log ++ [p]
  descriptors : ∀ p key f, k.currProc = some p →
    ∃ s, QueueApi.insertBlocked key p (k.store.setPcb p f) = some (s, false)

omit [Layout] in
/-- There is a descriptor for whoever blocks. -/
theorem WF.insertBlocked (hw : WF l) (hc : l.currProc = some p) (key : Word) (f : PcbFields) :
    ∃ v, Lists.insertBlocked key p (l.store.setPcb p f) = some (v, false) := by
  have hq := hw.not_queued hc
  have hb := hw.blocked_length (p := p) fun hm => hq (by simp [Lists.queued, hm])
  obtain ⟨v, hv, -⟩ := Lists.Active.insertBlocked_spec (s := l.store.setPcb p f) hw.active hq hb key
  exact ⟨_, hv⟩

theorem Effect.woken (h : Effect (.verhogen a) l l') {ps : List Pcb}
    (hq : l.lists.waiters a = p :: ps) :
    Woken a p (l.pcb p).pS l l' ∧ l'.mem = l.mem := by
  cases h with
  | verhogenEmpty hn => rw [hq] at hn; cases hn
  | @verhogen _ k₁ _ p' h hd =>
      have hh := h.head
      rw [hq, List.head?_cons, Option.some.injEq] at hh
      subst hh
      exact ⟨⟨h.head, h.curr, h.nextPid, h.pcb, h.queues⟩, (congrArg KernelData.mem hd :)⟩

theorem released (hr : KernelRel k l) (hl : Sound l) (hp : Possible k e)
    (ha : isDeviceSemaphore a = false) (hV : action e = .verhogen a) {ps : List Pcb}
    (hq : l.lists.waiters a = p :: ps) : ∃ k', kernelEntry e k = some k' ∧ Released a p e k k' := by
  have hv : victim (action e) l = none := by rw [hV]; rfl
  obtain ⟨l', hrun, he⟩ := kernelEntry_spec hl (hp.lists hr) (.of_victim hv)
  obtain ⟨k', hrun', hr'⟩ := kernelEntry_refines e hr l' hrun
  rw [hV] at he
  obtain ⟨hw, hm⟩ := he.woken hq
  refine ⟨k', hrun', ?_, ?_, _, _, hr.store.queues, hr'.store.queues, ?_, fun key => ?_⟩
  · rw [hr'.data, hm]
    exact prepared_mem ha e l
  · rw [hr'.data, hr.data]
    exact hw.curr
  · obtain ⟨v, hv, hl'⟩ := hw.queues
    have hready : l'.lists.ready = Lists.byPrio l'.store.toPcbData p v.ready := by rw [hl']
    change l'.lists.ready.Perm (p :: l.lists.ready)
    rw [hready, show l.lists.ready = v.ready from hv.ready.symm]
    exact byPrio_perm _ p v.ready
  · rw [Lists.queues_waiters, Lists.queues_waiters]
    refine (hw.waiters key).trans ?_
    split
    · next hkey => rw [hkey]; rfl
    · rfl

theorem queued (hr : KernelRel k l) (hl : Sound l) (hp : Possible k e)
    (ha : isDeviceSemaphore a = false) (hP : action e = .passeren a) (hc : l.currProc = some p)
    (hv : ¬ 0 < (e.mem a).toInt) : ∃ k' qs', kernelEntry e k = some k' ∧
      Pointer.queues k'.store = some qs' ∧ qs'.waiters a = l.lists.waiters a ++ [p] := by
  have hvictim : victim (action e) l = none := by rw [hP]; rfl
  obtain ⟨l', hrun, he⟩ := kernelEntry_spec hl (hp.lists hr) (.of_victim hvictim)
  obtain ⟨k', hrun', hr'⟩ := kernelEntry_refines e hr l' hrun
  refine ⟨k', _, hrun', hr'.store.queues, ?_⟩
  have hm := prepared_mem ha e l
  rw [hP] at he
  have hs := he.semaphore (a := a) rfl (fun _ => ⟨p, hc⟩) ha nofun nofun nofun
  rw [Lists.queues_waiters]
  have hval : ¬ 0 < (semaphore a (prepared e l)).value := by
    rw [semaphore, hm]
    exact hv
  have hap : Action.apply (.passeren a) a (prepared e l).currProc (semaphore a (prepared e l)) =
      (semaphore a (prepared e l)).passeren p := by
    rw [Action.apply, if_pos rfl, show (prepared e l).currProc = some p from hc]
    rfl
  rw [hap, Semaphore.passeren, if_neg hval] at hs
  exact congrArg Semaphore.queue hs

theorem semaphoreRuns_refines : (semaphoreRuns Pointers sems).Refines (semaphoreRuns Lists sems)
    (fun x y => (KernelRel x.1.1 y.1.1 ∧ x.1.2 = y.1.2) ∧ x.2 = y.2) := by
  have hlog : (withLog passed ((nucleus Pointers).restrict Peaceful)).Refines
      (withLog passed ((nucleus Lists).restrict Peaceful))
      (fun x y => KernelRel x.1 y.1 ∧ x.2 = y.2) :=
    log_refines peaceful_kills fun k l e hr hl hp => ⟨hp.unkilled.lists hr hl.wf, hp.index⟩
  have hcount : (countedRuns Pointers).Refines (countedRuns Lists)
      (fun x y => (KernelRel x.1.1 y.1.1 ∧ x.1.2 = y.1.2) ∧ x.2 = y.2) := by
    refine hlog.withHistory (fun _ hr => ?_) fun _ _ _ => rfl
    funext a
    rw [hr.1.data]
  refine hcount.restrict fun {s t e} hr hP a ha hu => ?_
  rw [← hr.1.1.data]
  exact hP a ha (hr.2 ▸ hu)

theorem semaphore_law (h : (semaphoreRuns Pointers sems).Reachable ((k, log), c)) (hmem : a ∈ sems)
    (ha : isDeviceSemaphore a = false) (hb : (c a).Bounded) : SemaphoreLaw a k log (c a) := by
  obtain ⟨⟨⟨l, _⟩, _⟩, hl, ⟨hr, rfl⟩, rfl⟩ := semaphoreRuns_refines.reachable h
  have hobeys : Obeys (semaphore a l) (c a) := obeys hl hmem ha
  have hlogged := hl.of_restrict.fst
  have hsound : Sound l := sound_of_reachable peaceful_kills hlogged.fst
  have hq : l.lists.waiters a = cameFor a log := waiters_eq_cameFor peaceful_kills
    (fun _ _ hp => cameFor_passed ha hp.index _) hlogged
  have hcurr : k.currProc = l.currProc := congrArg KernelData.currProc hr.data
  have hvalue : (k.mem a).toInt = (semaphore a l).value := by
    rw [hr.data]
    rfl
  have hwaiting := hobeys.waiting hb
  have hsane := hobeys.sane hb
  have hbal := hobeys.balance hb
  rw [Semaphore.balance, ← hvalue] at hbal
  rw [show (semaphore a l).queue = cameFor a log from hq] at hwaiting hbal
  refine ⟨hwaiting, by omega, hvalue ▸ hsane.nonneg, fun hne => ?_,
    ⟨_, hr.store.queues, (Lists.queues_waiters _ a).trans hq⟩, fun e p ps hp hV hps => ?_,
    fun e p hp hP hc hv => ?_, fun p key f hc => ?_⟩
  · rw [← BitVec.toInt_inj, hvalue]
    exact hsane.zero (by rw [show (semaphore a l).queue = cameFor a log from hq]; exact hne)
  · exact released hr hsound hp ha hV (hq.trans hps)
  · obtain ⟨k', qs', hrun, hqs, hw⟩ := queued hr hsound hp ha hP (hcurr ▸ hc) hv
    exact ⟨k', qs', hrun, hqs, hw.trans (by rw [hq])⟩
  · obtain ⟨v, hv⟩ := hsound.wf.insertBlocked (hcurr ▸ hc) key f
    obtain ⟨⟨s, b⟩, hs, -, hb⟩ := (hr.store.setPcb p rfl).insertBlocked key p _ hv
    simp only at hb
    exact ⟨s, hb ▸ hs⟩

end Law

section Concrete

/-- V on a semaphore with the value `w`. -/
def signalEntry (w : Word) : Entry := { request 0 verhogen 0x20002000 with mem := fun _ => w }

/-- One V on a semaphore that starts with the greatest integer. -/
theorem value_overflows : ¬ ∀ (_ : Layout) (sems : Set Word) (k : Kernel Pointers)
    (log : List (Word × Pcb)) (c : Word → SemCount) (a : Word),
    (semaphoreRuns Pointers sems).Reachable ((k, log), c) → a ∈ sems →
      isDeviceSemaphore a = false → 0 ≤ (c a).initial.toInt → (c a).vs < 2 ^ 31 - 1 →
        SemaphoreLaw a k log (c a) := by
  intro h
  let := ramLayout
  let e := signalEntry 0x7FFFFFFF
  have hrun : ((main bareImage bareLinks).bind (kernelEntry e)).isSome = true := by decide +kernel
  have hposs : ((main bareImage bareLinks).all fun k => Possible k e) = true := by decide +kernel
  have hneg : (((main bareImage bareLinks).bind (kernelEntry e)).all fun k =>
      (k.mem 0x20002000).toInt < 0) = true := by decide +kernel
  have hact : action e = .verhogen 0x20002000 := by decide
  obtain ⟨k', hk'⟩ := Option.isSome_iff_exists.mp hrun
  obtain ⟨k, hk, hstep⟩ := Option.bind_eq_some_iff.mp hk'
  rw [hk'] at hneg
  rw [hk] at hposs
  have h₀ : (nucleus Pointers).init k := ⟨bareImage, bareLinks, hk⟩
  have hpeace : Peaceful k e := ⟨by rw [Unkilled, hact]; rfl, fun _ _ hd => by
    rw [hact] at hd
    cases hd⟩
  let c (a : Word) : SemCount := (⟨k.mem a, 0, 0⟩ : SemCount).record a (action e) (e.mem a)
  have hreach : (semaphoreRuns Pointers {0x20002000}).Reachable
      ((k', updateLog passed k e k' []), c) :=
    semaphoreRuns_step (semaphoreRuns_init h₀) hpeace
      (fun a _ hu => absurd hu (Nat.lt_irrefl 0)) (of_decide_eq_true hposs) hstep
  have hc : c 0x20002000 = ⟨0x7FFFFFFF, 0, 1⟩ := by
    simp only [c, SemCount.record, hact]
    rfl
  have hlaw := h ramLayout _ _ _ _ 0x20002000 hreach rfl (by decide) (by rw [hc]; decide)
    (by rw [hc]; decide)
  exact absurd hlaw.nonneg (not_le.mpr (of_decide_eq_true hneg))

/-- The first process blocks on a semaphore of value 0. -/
theorem semaphore_law_run : letI := ramLayout
    ∃ k log c, (main bareImage bareLinks).bind (kernelEntry (request 0 passeren 0x20002000)) =
      some k ∧ SemaphoreLaw 0x20002000 k log c := by
  let := ramLayout
  let e := request 0 passeren 0x20002000
  have hrun : ((main bareImage bareLinks).bind (kernelEntry e)).isSome = true := by decide +kernel
  have hposs : ((main bareImage bareLinks).all fun k => Possible k e) = true := by decide +kernel
  have hact : action e = .passeren 0x20002000 := by decide
  obtain ⟨k', hk'⟩ := Option.isSome_iff_exists.mp hrun
  obtain ⟨k, hk, hstep⟩ := Option.bind_eq_some_iff.mp hk'
  rw [hk] at hposs
  have h₀ : (nucleus Pointers).init k := ⟨bareImage, bareLinks, hk⟩
  have hpeace : Peaceful k e := ⟨by rw [Unkilled, hact]; rfl, fun _ _ hd => by
    rw [hact] at hd
    cases hd⟩
  let c (a : Word) : SemCount := (⟨k.mem a, 0, 0⟩ : SemCount).record a (action e) (e.mem a)
  have hreach : (semaphoreRuns Pointers {0x20002000}).Reachable
      ((k', updateLog passed k e k' []), c) :=
    semaphoreRuns_step (semaphoreRuns_init h₀) hpeace
      (fun a _ hu => absurd hu (Nat.lt_irrefl 0)) (of_decide_eq_true hposs) hstep
  have hc : c 0x20002000 = ⟨0, 1, 0⟩ := by
    simp only [c, SemCount.record, hact]
    rfl
  exact ⟨k', _, _, hk', semaphore_law hreach rfl (by decide) (by rw [hc]; decide)⟩

end Concrete
end PandOSsh.Nucleus
