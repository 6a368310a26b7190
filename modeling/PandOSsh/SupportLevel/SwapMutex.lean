import PandOSsh.SupportLevel.Coherence
import PandOSsh.SupportLevel.Steps

/-!
# Mutual exclusion over the Swap Pool

A U-proc is past its P on `swapSemaphore` in the pager and in `freeSwapFrames`;
`holdingSwapMutex` is set in between only, so that `sys2` never finds it set. An
ASID is vacant when no U-proc has it, the last one having executed TERMPROCESS;
`createUProc` is to be given vacant ASIDs only.
-/

namespace PandOSsh.SupportLevel
open Library

namespace State
variable (s : State)

/-- The ASID that the process is executing `createUProc` for. -/
def prepares (p : ℕ) : Option Asid :=
  (s.proc p).bind fun r =>
    match r.body with
    | .uproc _ (.sys6 child .init) | .uproc _ (.sys6 child .create) => some child
    | .test .init | .test .create => some shellIdx
    | _ => none

/-- The ASIDs that no U-proc has. -/
def unused : Set Asid := {a | ∀ p c, s.uproc p ≠ some (a, c)}

/-- The vacant ASIDs after a step. -/
def vacancy (e : Event) (_ : State) (vacant : Set Asid) : Set Asid :=
  match s.service e with
  | .create a true => vacant \ {a}
  | .term => {a | a ∈ vacant ∨ ∃ c, s.uproc e.1 = some (a, c)}
  | _ => vacant

end State

/-- The runs in which no ASID is given out again before its last U-proc has executed
TERMPROCESS. -/
def supportRuns (init : State → Prop) : System (State × Set Asid) Event :=
  ((system init).withHistory State.unused State.vacancy).restrict
    fun x e => ∀ a, x.1.prepares e.1 = some a → a ∈ x.2

/-- A U-proc dies only through its own `sys2`: nobody who ends has children. -/
def DiesAlone (x : State × Set Asid) (e : Event) : Prop :=
  x.1.service e = .term → ∀ q r, x.1.proc q = some r → r.parent ≠ e.1

/-- The pager has set `holdingSwapMutex`. -/
def Control.flagged : Control → Bool
  | pager _ _ pt =>
      match pt with
      | .choose | .evict _ | .write .. | .read _ | .clearFlagFailed | .record _ | .install _ |
        .clearFlag => true
      | .cause _ | .passeren | .setFlag | .verhogenFailed | .verhogen => false
  | run _ | sys2 _ | sys6 _ _ => false

/-- The P on `swapSemaphore` is the last thing that was done. -/
def Control.entering : Control → Bool
  | pager _ _ .setFlag | sys2 .sweep => true
  | _ => false

section Moves
variable {a : Asid} {vm vm' : Vm} {c c' : Control} {inp : Input} {svc : Service}

/-- Only the U-proc with an ASID touches the flag of the ASID. -/
theorem Changes.flag_of_ne {b : Asid} (h : Changes a vm vm') (hb : b ≠ a) :
    vm'.holdingSwapMutex b = vm.holdingSwapMutex b := by
  cases h with
  | same | refill | record | init => rfl
  | store hv =>
      obtain ⟨_, _, _, rfl⟩ := Vm.store_eq hv
      rfl
  | flag => exact Function.update_of_ne hb ..
  | transfer => rw [Vm.readWriteFlashdrive_frame.2.2.1]
  | choose | evict | install | sweep => simp

/-- The flag is set while the pager says so. -/
theorem Moves.flag_self (h : Moves a vm c inp c' vm' svc)
    (hf : vm.holdingSwapMutex a = true → c.flagged = true)
    (hf' : vm'.holdingSwapMutex a = true) : c'.flagged = true := by
  cases h with
  | store _ hv =>
      obtain ⟨_, _, _, rfl⟩ := Vm.store_eq hv
      exact hf hf'
  | clearFlag | clearFlagFailed | checkHeld => simp [Vm.setFlag] at hf'
  | write | read | readFailed =>
      rw [Vm.readWriteFlashdrive_frame.2.2.1] at hf'
      exact hf hf'
  | evict | install | sweep =>
      simp only [Vm.evict_flag, Vm.install_flag, Vm.freeSwapFrames_flag] at hf'
      exact hf hf'
  | setFlag | choose => rfl
  | code | refill | fault | trap | terminate | terminal | execute | codePasseren | codeVerhogen |
    cause | causeMod | passeren | evictFree | verhogenFailed | record | verhogen | check |
    releaseMutex | signal | sys2Passeren | sys2Verhogen | term | init | create | createFailed |
    sys6Passeren => exact hf hf'

theorem past_swap_code (code : Code) : code.past .swapSemaphore = false := by
  cases code <;> rfl

/-- The critical section is entered with P and left with V only, unless `sys2` finds
the flag set. -/
theorem Moves.crosses_swap (h : Moves a vm c inp c' vm' svc)
    (hf : c = .sys2 .checkFlag → vm.holdingSwapMutex a = false) :
    State.Crosses .swapSemaphore svc (c.past .swapSemaphore) (c'.past .swapSemaphore) := by
  cases h with
  | checkHeld h =>
      rw [hf rfl] at h
      exact absurd h (by simp)
  | codePasseren hx =>
      simp only [Control.past, past_swap_code]
      exact .stays (fun he => hx.1 (by simpa using he)) (by simp) (by simp)
  | codeVerhogen hx =>
      simp only [Control.past, past_swap_code]
      exact .stays (by simp) (fun he => hx.1 (by simpa using he)) (by simp)
  | signal =>
      refine .stays (by simp) (fun he => ?_) (by simp)
      simp only [Service.verhogen.injEq] at he
      split at he <;> exact absurd he (by simp)
  | passeren | sys2Passeren =>
      simp only [Control.past, past_swap_code]
      exact .passeren
  | verhogen | verhogenFailed | releaseMutex | sys2Verhogen =>
      simp only [Control.past, past_swap_code, programTrapHandler]
      exact .verhogen
  | code | store | refill | fault | trap | terminate | terminal | execute | cause | causeMod |
    setFlag | choose | evictFree | evict | write | read | readFailed | clearFlagFailed | record |
    install | clearFlag | check | sweep | term | init | create | createFailed | sys6Passeren =>
      simp only [Control.past, past_swap_code, programTrapHandler]
      exact .stays (by simp) (by simp) (by simp)

theorem TestMoves.crosses_swap {pt pt' : TestPoint} (h : TestMoves vm pt inp pt' vm' svc) :
    State.Crosses .swapSemaphore svc (pt.past .swapSemaphore) (pt'.past .swapSemaphore) := by
  cases h with
  | initSwapPool => exact .verhogen
  | initSemaphores | init | create | createFailed | passeren | term =>
      exact .stays (by simp) (by simp) (by simp)

theorem TestMoves.flag {pt pt' : TestPoint} (h : TestMoves vm pt inp pt' vm' svc) :
    vm'.holdingSwapMutex = vm.holdingSwapMutex := by
  cases h <;> rfl

end Moves

/-- What holds in every run: who may be in the critical section, and which U-proc an
ASID and its flag belong to. -/
structure Orderly (s : State) (vacant : Set Asid) : Prop where
  bound : ∀ p r, s.proc p = some r → p < s.nextPid
  mutex : (s.sem .swapSemaphore).Mutex (s.past .swapSemaphore)
  inUse : ∀ p a c, s.uproc p = some (a, c) → a ∉ vacant
  distinct : ∀ p q a c c', s.uproc p = some (a, c) → s.uproc q = some (a, c') → p = q
  flag : ∀ a, s.vm.holdingSwapMutex a = true → a ∉ vacant ∧
    ∀ p c, s.uproc p = some (a, c) → c.flagged = true
  waiting : ∀ p ∈ (s.sem .swapSemaphore).queue, ∃ a c, s.uproc p = some (a, c) ∧ c.entering = true

namespace Orderly
variable {s s' : State} {vacant : Set Asid} {p q : ℕ} {inp : Input} {a b : Asid} {c : Control}

theorem fresh (h : Orderly s vacant) : s.proc s.nextPid = none := by
  cases hp : s.proc s.nextPid with
  | none => rfl
  | some r => exact absurd (h.bound _ _ hp) (lt_irrefl _)

/-- `sys2` never finds the flag set. -/
theorem flag_of_checkFlag (h : Orderly s vacant) (hp : s.uproc p = some (a, .sys2 .checkFlag)) :
    s.vm.holdingSwapMutex a = false := by
  rw [Bool.eq_false_iff]
  intro hf
  exact absurd ((h.flag a hf).2 p _ hp) (by simp [Control.flagged])

end Orderly

section Initial
variable {s : State}

theorem uproc_fresh {r : Proc} {p : ℕ} {a : Asid} {c : Control} (hp : s.proc p = some r)
    (hf : Fresh r.body) (h : s.uproc p = some (a, c)) : r.body = .uproc a (.run .user) ∧
      c = .run .user := by
  obtain ⟨parent, hp'⟩ := State.uproc_eq_some.mp h
  rw [hp, Option.some.injEq] at hp'
  subst hp'
  cases hf
  exact ⟨rfl, rfl⟩

theorem Started.orderly (h : Started s) : Orderly s s.unused := by
  have huser : ∀ p a c, s.uproc p = some (a, c) →
      ∃ r, s.proc p = some r ∧ r.body = .uproc a (.run .user) := by
    intro p a c hp
    obtain ⟨parent, hp'⟩ := State.uproc_eq_some.mp hp
    exact ⟨_, hp', (uproc_fresh hp' (h.fresh p _ hp').1 hp).1⟩
  constructor
  · intro p r hp
    exact (h.fresh p r hp).2.2
  · have hnone : ∀ p, ¬ s.past .swapSemaphore p := by
      rintro p ⟨r, hr, hpast⟩
      have hf := (h.fresh p r hr).1
      generalize r.body = body at hf hpast
      cases hf <;> simp [Body.past, Control.past, Code.past, TestPoint.past] at hpast
    rw [h.swapSemaphore]
    constructor
    · intro p hm
      exact absurd hm List.not_mem_nil
    · exact List.nodup_nil
    · intro p q hp
      exact absurd hp.1 (hnone p)
    · exact .inr ⟨rfl, hnone⟩
  · intro p a c hp hu
    exact hu p c hp
  · intro p q a c c' hp hq
    obtain ⟨r, hr, hb⟩ := huser p a c hp
    obtain ⟨r', hr', hb'⟩ := huser q a c' hq
    exact h.distinct p q r r' a hr hr' hb hb'
  · intro a hf
    rw [h.flag] at hf
    exact absurd hf (by simp)
  · intro p hm
    rw [h.swapSemaphore] at hm
    exact absurd hm List.not_mem_nil

/-- At the start there is only the Instantiator. -/
theorem Boot.proc_eq {r : Proc} {p : ℕ} (h : Boot s) (hp : s.proc p = some r) :
    p = 1 ∧ r = ⟨0, .test .initSemaphores⟩ := by
  rw [h.proc] at hp
  by_cases hp1 : p = 1
  · subst hp1
    rw [Function.update_self, Option.some.injEq] at hp
    exact ⟨rfl, hp.symm⟩
  · rw [Function.update_of_ne hp1] at hp
    exact absurd hp (by simp)

theorem Boot.uproc_ne (h : Boot s) (p : ℕ) (a : Asid) (c : Control) : s.uproc p ≠ some (a, c) := by
  intro hp
  obtain ⟨parent, hp'⟩ := State.uproc_eq_some.mp hp
  exact absurd (h.proc_eq hp').2 (by simp)

theorem Boot.orderly (h : Boot s) : Orderly s s.unused := by
  have hproc := fun p r (hp : s.proc p = some r) => h.proc_eq hp
  have hnone := h.uproc_ne
  constructor
  · intro p r hp
    rw [(hproc p r hp).1, h.nextPid]
    decide
  · rw [h.sem]
    constructor
    · intro p hm
      exact absurd hm List.not_mem_nil
    · exact List.nodup_nil
    · rintro p q ⟨⟨r, hr, _⟩, _⟩ ⟨⟨r', hr', _⟩, _⟩
      rw [(hproc p r hr).1, (hproc q r' hr').1]
    · exact .inl rfl
  · intro p a c hp
    exact absurd hp (hnone p a c)
  · intro p q a c c' hp
    exact absurd hp (hnone p a c)
  · intro a hf
    rw [h.flag] at hf
    exact absurd hf (by simp)
  · intro p hm
    rw [h.sem] at hm
    exact absurd hm List.not_mem_nil

end Initial

section Run
variable {s s' : State} {vacant : Set Asid} {p p₁ q : ℕ} {inp : Input} {a b : Asid}
  {c c' : Control} {vm : Vm} {svc : Service} {parent : ℕ}

/-- The U-procs after the step of a U-proc. -/
theorem uproc_after (hlt : p < s.nextPid)
    (h : ((s.move p ⟨parent, .uproc a c'⟩ vm).serve p svc).uproc q = some (b, c)) :
    q = p ∧ b = a ∧ c = c' ∧ svc ≠ .term ∨ q ≠ p ∧ s.uproc q = some (b, c) ∨
      svc = .create b true ∧ q = s.nextPid ∧ c = .run .user := by
  obtain ⟨par, hq⟩ := State.uproc_eq_some.mp h
  rcases State.proc_after hlt hq with ⟨he, hr, ht⟩ | ⟨hne, hr⟩ | ⟨b', hc, hn, hr⟩
  · simp only [Proc.mk.injEq, Body.uproc.injEq] at hr
    exact .inl ⟨he, hr.2.1, hr.2.2, ht⟩
  · exact .inr (.inl ⟨hne, State.uproc_of_proc hr⟩)
  · simp only [Proc.mk.injEq, Body.uproc.injEq] at hr
    rw [hr.2.1]
    exact .inr (.inr ⟨hc, hn, hr.2.2⟩)

/-- The U-procs after the step of the Instantiator. -/
theorem uproc_after_test {pt' : TestPoint} (hlt : p < s.nextPid)
    (h : ((s.move p ⟨parent, .test pt'⟩ vm).serve p svc).uproc q = some (b, c)) :
    q ≠ p ∧ s.uproc q = some (b, c) ∨
      svc = .create b true ∧ q = s.nextPid ∧ c = .run .user := by
  obtain ⟨par, hq⟩ := State.uproc_eq_some.mp h
  rcases State.proc_after hlt hq with ⟨he, hr, ht⟩ | ⟨hne, hr⟩ | ⟨b', hc, hn, hr⟩
  · simp at hr
  · exact .inl ⟨hne, State.uproc_of_proc hr⟩
  · simp only [Proc.mk.injEq, Body.uproc.injEq] at hr
    rw [hr.2.1]
    exact .inr ⟨hc, hn, hr.2.2⟩

theorem Moves.of_create {vm' : Vm} (h : Moves a vm c inp c' vm' (.create b true)) :
    c = .sys6 b .create := by
  cases h
  rfl

theorem Moves.of_term {vm' : Vm} (h : Moves a vm c inp c' vm' .term) :
    c = .sys2 .term ∧ c' = .sys2 .term := by
  cases h
  exact ⟨rfl, rfl⟩

theorem TestMoves.of_create {vm' : Vm} {pt pt' : TestPoint}
    (h : TestMoves vm pt inp pt' vm' (.create b true)) : pt = .create ∧ b = shellIdx := by
  cases h
  exact ⟨rfl, rfl⟩

/-- A new U-proc gets the ASID that `createUProc` was called with. -/
theorem Steps.prepares (h : Steps s p inp s') (hc : s.service (p, inp) = .create b true) :
    s.prepares p = some b := by
  cases h with
  | test hp hb hs hm =>
      rw [hs] at hc
      subst hc
      obtain ⟨rfl, rfl⟩ := hm.of_create
      simp [State.prepares, hp]
  | uproc hp hb hs hm =>
      rw [hs] at hc
      subst hc
      obtain rfl := hm.of_create
      simp [State.prepares, hp]

theorem mem_vacancy (h : b ∈ s.vacancy (p, inp) s' vacant) :
    b ∈ vacant ∧ s.service (p, inp) ≠ .create b true ∨
      s.service (p, inp) = .term ∧ ∃ c, s.uproc p = some (b, c) := by
  unfold State.vacancy at h
  split at h
  · next a hs =>
    rw [hs]
    refine .inl ⟨h.1, fun he => h.2 ?_⟩
    simp only [Service.create.injEq, and_true] at he
    exact he.symm
  · next hs =>
    rw [hs]
    rcases h with h | h
    · exact .inl ⟨h, by simp⟩
    · exact .inr ⟨rfl, h⟩
  · next hc ht => exact .inl ⟨h, hc b⟩

theorem nextPid_le_serve {t : State} : t.nextPid ≤ (t.serve p svc).nextPid := by
  cases svc with
  | create a ok => cases ok <;> simp [State.serve]
  | none | initSemaphores | passeren | verhogen | term => exact le_refl _

/-- The PIDs stay below the counter. -/
theorem bound_step {r' : Proc} (hb : ∀ p r, s.proc p = some r → p < s.nextPid)
    (hlt : p < s.nextPid) (q : ℕ) (r : Proc)
    (h : ((s.move p r' vm).serve p svc).proc q = some r) :
    q < ((s.move p r' vm).serve p svc).nextPid := by
  have hle : s.nextPid ≤ ((s.move p r' vm).serve p svc).nextPid :=
    nextPid_le_serve (t := s.move p r' vm)
  rcases State.proc_after hlt h with ⟨rfl, _⟩ | ⟨_, hq⟩ | ⟨a, rfl, rfl, _⟩
  · omega
  · have := hb q r hq
    omega
  · exact Nat.lt_succ_self s.nextPid

theorem Moves.entering {vm' : Vm} (h : Moves a vm c inp c' vm' (.passeren .swapSemaphore)) :
    c'.entering = true := by
  cases h with
  | codePasseren hx => exact absurd rfl hx.1
  | passeren | sys2Passeren => rfl

theorem uproc_congr {s s' : State} (h : s'.proc q = s.proc q) : s'.uproc q = s.uproc q := by
  rw [State.uproc, State.uproc, h]

/-- What is true of everybody who waits goes through every step, if it is true of who
requests the P. -/
theorem waiting_after {x : Sem} {W : Asid → Control → Prop} {r' : Proc}
    (hw : ∀ q ∈ (s.sem x).queue, ∃ a c, s.uproc q = some (a, c) ∧ W a c)
    (hbound : ∀ p r, s.proc p = some r → p < s.nextPid) (hb : ¬ s.Blocked p)
    (hself : svc = .passeren x → ∃ a c, r'.body = .uproc a c ∧ W a c) (hlt : p < s.nextPid)
    (hq : q ∈ (((s.move p r' vm).serve p svc).sem x).queue) :
    ∃ a c, ((s.move p r' vm).serve p svc).uproc q = some (a, c) ∧ W a c := by
  rcases State.mem_queue_after hq with ⟨hq, hd⟩ | ⟨rfl, rfl⟩
  · obtain ⟨a, c, hu, hc⟩ := hw q hq
    have hqp : q ≠ p := fun he => hb ⟨x, he ▸ hq⟩
    obtain ⟨parent, hp⟩ := State.uproc_eq_some.mp hu
    have hqn : q ≠ s.nextPid := Nat.ne_of_lt (hbound q _ hp)
    refine ⟨a, c, ?_, hc⟩
    rw [uproc_congr (State.proc_keep hqn hqp hd), hu]
  · obtain ⟨a, c, hr, hc⟩ := hself rfl
    refine ⟨a, c, State.uproc_eq_some.mpr ⟨r'.parent, ?_⟩, hc⟩
    rw [State.proc_self (Nat.ne_of_lt hlt) (by simp), ← hr]

/-- The U-procs after a step: the one that took it unless it is gone, the others, and a
new one. -/
theorem Steps.uproc_after (h : Steps s p inp s') (hlt : p < s.nextPid)
    (hq : s'.uproc q = some (b, c)) :
    q = p ∧ (∃ d, s.uproc p = some (b, d)) ∧ s.service (p, inp) ≠ .term ∨
      q ≠ p ∧ s.uproc q = some (b, c) ∨
      s.service (p, inp) = .create b true ∧ q = s.nextPid ∧ c = .run .user := by
  cases h with
  | test hp hb hs hm =>
      rw [hs]
      exact .inr (uproc_after_test hlt hq)
  | uproc hp hb hs hm =>
      rw [hs]
      rcases SupportLevel.uproc_after hlt hq with ⟨he, rfl, _, ht⟩ | hother | hnew
      · exact .inl ⟨he, ⟨_, State.uproc_of_proc hp⟩, ht⟩
      · exact .inr (.inl hother)
      · exact .inr (.inr hnew)

theorem Orderly.inUse_step (h : Orderly s vacant) (hs : Steps s p inp s') (hlt : p < s.nextPid)
    (hq : s'.uproc q = some (b, c)) : b ∉ s.vacancy (p, inp) s' vacant := by
  intro hv
  rcases mem_vacancy hv with ⟨hv, hcr⟩ | ⟨ht, d, hd⟩
  · rcases hs.uproc_after hlt hq with ⟨_, ⟨d, hd⟩, _⟩ | ⟨_, hq⟩ | ⟨hc, _, _⟩
    · exact h.inUse p b d hd hv
    · exact h.inUse q b c hq hv
    · exact hcr hc
  · rcases hs.uproc_after hlt hq with ⟨_, _, hterm⟩ | ⟨hne, hq⟩ | ⟨hc, _, _⟩
    · exact hterm ht
    · exact hne (h.distinct q p b c d hq hd)
    · rw [ht] at hc
      exact absurd hc (by simp)

theorem Orderly.distinct_step (h : Orderly s vacant) (hs : Steps s p inp s') (hlt : p < s.nextPid)
    (hnew : s.service (p, inp) = .create b true → b ∈ vacant) (hq : s'.uproc p₁ = some (b, c))
    (hq' : s'.uproc q = some (b, c')) : p₁ = q := by
  have hold : ∀ {q c}, s'.uproc q = some (b, c) →
      (∃ d, s.uproc q = some (b, d)) ∨ s.service (p, inp) = .create b true ∧ q = s.nextPid := by
    intro q c hq
    rcases hs.uproc_after hlt hq with ⟨rfl, hd, _⟩ | ⟨_, hd⟩ | ⟨hc, hn, _⟩
    · exact .inl hd
    · exact .inl ⟨c, hd⟩
    · exact .inr ⟨hc, hn⟩
  rcases hold hq with ⟨d, hd⟩ | ⟨hc, rfl⟩ <;> rcases hold hq' with ⟨d', hd'⟩ | ⟨hc', rfl⟩
  · exact h.distinct p₁ q b d d' hd hd'
  · exact absurd (hnew hc') (h.inUse p₁ b d hd)
  · exact absurd (hnew hc) (h.inUse q b d' hd')
  · rfl

/-- What the flag of an ASID says goes through every step that leaves the flag alone. -/
theorem Orderly.flag_step (h : Orderly s vacant) (hs : Steps s p inp s') (hlt : p < s.nextPid)
    (hnew : s.service (p, inp) = .create b true → b ∈ vacant)
    (hf : s.vm.holdingSwapMutex b = true) (hp : ∀ d, s.uproc p ≠ some (b, d)) :
    b ∉ s.vacancy (p, inp) s' vacant ∧ ∀ q c, s'.uproc q = some (b, c) → c.flagged = true := by
  obtain ⟨hb, hall⟩ := h.flag b hf
  constructor
  · intro hv
    rcases mem_vacancy hv with ⟨hv, _⟩ | ⟨_, d, hd⟩
    · exact hb hv
    · exact hp d hd
  · intro q c hq
    rcases hs.uproc_after hlt hq with ⟨_, ⟨d, hd⟩, _⟩ | ⟨_, hq⟩ | ⟨hc, _, _⟩
    · exact absurd hd (hp d)
    · exact hall q c hq
    · exact absurd (hnew hc) hb

/-- What the flag of the U-proc that takes the step says. -/
theorem Orderly.flag_self (h : Orderly s vacant) (hp : s.proc p = some ⟨parent, .uproc a c⟩)
    (hsvc : s.service (p, inp) = svc) (hm : Moves a s.vm c inp c' vm svc)
    (hnew : svc = .create a true → a ∈ vacant) (hf : vm.holdingSwapMutex a = true) :
    a ∉ s.vacancy (p, inp) ((s.move p ⟨parent, .uproc a c'⟩ vm).serve p svc) vacant ∧
      ∀ q d, ((s.move p ⟨parent, .uproc a c'⟩ vm).serve p svc).uproc q = some (a, d) →
        d.flagged = true := by
  have hu := State.uproc_of_proc hp
  have hfl : c'.flagged = true := hm.flag_self (fun hf => (h.flag a hf).2 p c hu) hf
  constructor
  · intro hv
    rcases mem_vacancy hv with ⟨hv, _⟩ | ⟨ht, _⟩
    · exact h.inUse p a c hu hv
    · rw [hsvc] at ht
      subst ht
      rw [hm.of_term.2] at hfl
      exact absurd hfl (by simp [Control.flagged])
  · intro q d hq
    rcases uproc_after (h.bound _ _ hp) hq with ⟨_, _, rfl, _⟩ | ⟨hne, hq⟩ | ⟨hc, _, _⟩
    · exact hfl
    · exact absurd (h.distinct q p a d c hq hu) hne
    · exact absurd (hnew hc) (h.inUse p a c hu)

theorem Orderly.step (h : Orderly s vacant) (hs : Steps s p inp s')
    (hprep : ∀ a, s.prepares p = some a → a ∈ vacant) :
    Orderly s' (s.vacancy (p, inp) s' vacant) := by
  have hnew : ∀ b, s.service (p, inp) = .create b true → b ∈ vacant := fun b hc =>
    hprep b (hs.prepares hc)
  have hlt : p < s.nextPid := by
    cases hs with
    | test hp | uproc hp => exact h.bound _ _ hp
  have hinUse : ∀ q b c, s'.uproc q = some (b, c) → b ∉ s.vacancy (p, inp) s' vacant :=
    fun q b c hq => h.inUse_step hs hlt hq
  have hdistinct : ∀ q q' b c c', s'.uproc q = some (b, c) → s'.uproc q' = some (b, c') → q = q' :=
    fun q q' b c c' hq hq' => h.distinct_step hs hlt (hnew b) hq hq'
  have hs₁ := hs
  cases hs with
  | @test parent pt pt' vm svc hp hb hsvc hm =>
      refine ⟨bound_step h.bound hlt, State.mutex_step h.mutex h.fresh hp hb hm.crosses_swap, hinUse,
        hdistinct, fun b hf => ?_, fun q hq => waiting_after h.waiting h.bound hb (fun hs => ?_) hlt hq⟩
      · rw [State.serve_vm, State.move_vm, hm.flag] at hf
        refine h.flag_step hs₁ hlt (hnew b) hf fun d hd => ?_
        obtain ⟨par, hp'⟩ := State.uproc_eq_some.mp hd
        rw [hp] at hp'
        exact absurd hp' (by simp)
      · subst hs
        cases hm
  | @uproc parent a c c' vm svc hp hb hsvc hm =>
      have hu := State.uproc_of_proc hp
      refine ⟨bound_step h.bound hlt, State.mutex_step h.mutex h.fresh hp hb
        (hm.crosses_swap fun hc => h.flag_of_checkFlag (hc ▸ hu)), hinUse, hdistinct, fun b hf => ?_,
        fun q hq => waiting_after h.waiting h.bound hb (fun hs => ?_) hlt hq⟩
      · rw [State.serve_vm, State.move_vm] at hf
        by_cases hba : b = a
        · subst hba
          exact h.flag_self hp hsvc hm (fun hc => hnew b (hsvc.trans hc)) hf
        · rw [hm.changes.flag_of_ne hba] at hf
          refine h.flag_step hs₁ hlt (hnew b) hf fun d hd => hba ?_
          rw [hu, Option.some.injEq, Prod.mk.injEq] at hd
          exact hd.1.symm
      · subst hs
        exact ⟨a, c', rfl, hm.entering⟩

theorem orderly_reachable {init : State → Prop} (hinit : ∀ s, init s → Orderly s s.unused)
    {x : State × Set Asid} (h : (supportRuns init).Reachable x) : Orderly x.1 x.2 := by
  refine h.invariant (I := fun x => Orderly x.1 x.2) (fun x hx => ?_) fun x e x' _ ih hs => ?_
  · rw [hx.2]
    exact hinit x.1 hx.1
  · have hstep := ih.step (State.steps_of_exec hs.2.1) hs.1
    rw [hs.2.2]
    exact hstep

/-- A run in which nobody executes `createUProc`. -/
theorem supportRuns_run {init : State → Prop} {ok : State → Event → Bool}
    {P : State × Set Asid → Event → Prop}
    (hok : ∀ x e, ok x.1 e = true → x.1.prepares e.1 = none ∧ P x e) {es : List Event}
    {x : State × Set Asid} (hx : ((supportRuns init).restrict P).Reachable x)
    (h : x.1.run ok es = some s') : ∃ g, ((supportRuns init).restrict P).Reachable (s', g) := by
  induction es generalizing x with
  | nil =>
      simp only [State.run, Option.some.injEq] at h
      exact ⟨x.2, h ▸ hx⟩
  | cons e es ih =>
      simp only [State.run] at h
      split at h
      · next hoke =>
        simp only [Option.bind_eq_some_iff] at h
        obtain ⟨s₁, h1, h2⟩ := h
        obtain ⟨hprep, hP⟩ := hok _ _ hoke
        have hstep : ((supportRuns init).restrict P).step x e (s₁, x.1.vacancy e s₁ x.2) := by
          refine ⟨hP, fun a ha => ?_, h1, rfl⟩
          rw [hprep] at ha
          exact absurd ha (by simp)
        exact ih (hx.step hstep) h2
      · exact absurd h (by simp)

end Run

section Concrete
variable {γ : Type*}

/-- The ASIDs that are free after a step. -/
def State.freed (s : State) (e : Event) (free : Finset Asid) : Finset Asid :=
  match s.service e with
  | .create a true => free.erase a
  | .term => (s.uproc e.1).elim free fun x => insert x.1 free
  | _ => free

theorem coe_freed (s s' : State) (e : Event) (free : Finset Asid) :
    s.vacancy e s' (free : Set Asid) = (s.freed e free : Set Asid) := by
  unfold State.vacancy State.freed
  generalize s.service e = svc
  cases svc with
  | create a ok =>
      cases ok with
      | true => exact (Finset.coe_erase a free).symm
      | false => rfl
  | term =>
      cases hu : s.uproc e.1 with
      | none => simp
      | some x =>
          ext b
          simp only [Option.elim_some, Finset.coe_insert, Set.mem_insert_iff, Finset.mem_coe,
            Option.some.injEq, Set.mem_ofPred_eq]
          refine or_comm.trans (or_congr_left ⟨?_, ?_⟩)
          · rintro ⟨c, rfl⟩
            rfl
          · rintro rfl
            exact ⟨x.2, rfl⟩
  | none | initSemaphores | passeren | verhogen => rfl

/-- The run with a history that takes these steps, each of which must be admissible and
gives out free ASIDs only. -/
def State.track (record : State → Event → State → γ → γ) (ok : State → Event → Bool) :
    List Event → (State × Finset Asid) × γ → Option ((State × Finset Asid) × γ)
  | [], y => some y
  | e :: es, y =>
      if ok y.1.1 e = true ∧ ∀ a, y.1.1.prepares e.1 = some a → a ∈ y.1.2 then
        (y.1.1.exec e.1 e.2).bind fun s' =>
          track record ok es ((s', y.1.1.freed e y.1.2), record y.1.1 e s' y.2)
      else none

theorem track_reachable {init : State → Prop} {start : State × Set Asid → γ}
    {record : State → Event → State → γ → γ} {P : (State × Set Asid) × γ → Event → Prop}
    {ok : State → Event → Bool} (hok : ∀ x e, ok x.1.1 e = true → P x e) {es : List Event}
    {y y' : (State × Finset Asid) × γ}
    (hy : (((supportRuns init).withHistory start fun x e x' => record x.1 e x'.1).restrict
      P).Reachable ((y.1.1, (y.1.2 : Set Asid)), y.2))
    (h : State.track record ok es y = some y') :
    (((supportRuns init).withHistory start fun x e x' => record x.1 e x'.1).restrict
      P).Reachable ((y'.1.1, (y'.1.2 : Set Asid)), y'.2) := by
  induction es generalizing y with
  | nil =>
      rw [State.track, Option.some.injEq] at h
      exact h ▸ hy
  | cons e es ih =>
      rw [State.track] at h
      split at h
      · next hcond =>
        obtain ⟨s', hexec, hrest⟩ := Option.bind_eq_some_iff.mp h
        refine ih (y := ((s', y.1.1.freed e y.1.2), record y.1.1 e s' y.2)) (hy.step (e := e) ?_) hrest
        exact ⟨hok _ _ hcond.1, ⟨hcond.2, hexec, (coe_freed y.1.1 s' e y.1.2).symm⟩, rfl⟩
      · exact absurd h.symm (Option.some_ne_none y')

/-- At the start of `test` all ASIDs are free. -/
theorem Boot.unused_eq {s : State} (h : Boot s) :
    s.unused = ((Finset.univ : Finset Asid) : Set Asid) := by
  rw [Finset.coe_univ]
  exact Set.eq_univ_of_forall fun a p c => h.uproc_ne p a c

/-- A run from the start of `test`. -/
theorem track_boot {record : State → Event → State → γ → γ} {g : γ}
    {P : (State × Set Asid) × γ → Event → Prop} {ok : State → Event → Bool}
    (hok : ∀ x e, ok x.1.1 e = true → P x e) {flash : Word → BitVec 24 → Page} {es : List Event}
    {y : (State × Finset Asid) × γ}
    (h : State.track record ok es ((bootState flash, Finset.univ), g) = some y) :
    (((supportRuns Boot).withHistory (fun _ => g) fun x e x' => record x.1 e x'.1).restrict
      P).Reachable ((y.1.1, (y.1.2 : Set Asid)), y.2) := by
  have hboot := bootState_boot flash
  refine track_reachable hok ?_ h
  exact .init ⟨⟨hboot, hboot.unused_eq.symm⟩, rfl⟩

end Concrete
end PandOSsh.SupportLevel
