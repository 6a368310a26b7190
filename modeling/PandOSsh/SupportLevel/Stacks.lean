import PandOSsh.SupportLevel.Execute

/-!
# The stack of the general exceptions (syscalls.c, sysSupport.c)

`sup_stackGen` is part of the support structure, which `createUProc` takes from
`supportPool` by ASID: two U-procs with one ASID have one such stack, and each
exception is handled from its top. `sys2`, `sys4` and `sys5` are called by
`pos_syscallHandler`, and at `-O0` their frames are equally long: `freeSwapFrames`,
`writeTerminal` and `readTerminal` save their return addresses at one place. Of all
that two such U-procs share this place is added to the system here; `sys6` is the
shell's, whose ASID no other U-proc gets. A U-proc alone with its ASID finds its own
return address there.
-/

namespace PandOSsh.SupportLevel
open Library

/-- Who has called `freeSwapFrames`, `writeTerminal` or `readTerminal`. -/
inductive Caller where
  | sys2
  | sys4
  | sys5
deriving DecidableEq, Repr

structure Stacks where
  /-- The return address in the frame that was laid last. -/
  saved : Asid → Caller
  /-- `pos_syscallHandler` has called the `sys2` that the U-proc executes. -/
  direct : ℕ → Bool
  /-- The U-proc has done the V that ends the function and has not returned yet. -/
  returning : ℕ → Bool

/-- TERMPROCESS follows in `sys2`, and LDST in `sys4` and `sys5`. -/
def Caller.goesOn : Caller → Control
  | sys2 => .sys2 .term
  | sys4 | sys5 => .run .user

namespace Control

/-- The statements of `freeSwapFrames`. -/
def freeing : Control → Bool
  | sys2 pt => pt == .passeren || pt == .sweep || pt == .verhogen
  | run _ | pager _ _ _ | sys6 _ _ => false

/-- `pos_syscallHandler` calls `sys2`. -/
def terminates : Control → Input → Bool
  | run .user, .syscall a0 _ _ => a0 != 4 && a0 != 5 && a0 != 6
  | _, _ => false

end Control

namespace Stacks
variable (k : Stacks) (p : ℕ) (a : Asid) (c : Control)

/-- The caller of the function that begins with the P, and ends with the V, on the
semaphore. -/
def caller : Sem → Option Caller
  | .termWriteSemaphore => some .sys4
  | .termReadSemaphore => some .sys5
  | .swapSemaphore => if c.freeing && k.direct p then some .sys2 else none
  | .masterSemaphore | .shellSemaphore => none

/-- The return address is saved before the P, and the function returns after the V. -/
def after (inp : Input) (svc : Service) : Stacks where
  saved :=
    match svc with
    | .passeren x => (k.caller p c x).elim k.saved (Function.update k.saved a)
    | .none | .initSemaphores | .verhogen _ | .create _ _ | .term => k.saved
  direct :=
    match c with
    | .sys2 _ => k.direct
    | .run _ | .pager _ _ _ | .sys6 _ _ => Function.update k.direct p (c.terminates inp)
  returning :=
    match svc with
    | .verhogen x => Function.update k.returning p (k.caller p c x).isSome
    | .none | .initSemaphores | .passeren _ | .create _ _ | .term => k.returning

/-- The function has returned. -/
def back : Stacks := { k with returning := Function.update k.returning p false }

end Stacks

namespace State
variable (s : State)

/-- The U-proc goes on at this point. -/
def resume (p : ℕ) (a : Asid) (c : Control) : State :=
  { s with
    proc := Function.update s.proc p ((s.proc p).map fun r => { r with body := .uproc a c }) }

/-- One step of a process, with the return addresses: who is to return goes to the address
that is there. -/
def execOn (k : Stacks) (e : Event) : Option (State × Stacks) :=
  if k.returning e.1 then
    (s.uproc e.1).bind fun x => e.2.onGo (s.resume e.1 x.1 (k.saved x.1).goesOn, k.back e.1)
  else
    (s.exec e.1 e.2).map fun s' =>
      (s', (s.uproc e.1).elim k fun x => k.after e.1 x.1 x.2 e.2 (s.service e))

end State

/-- The Phase 3 system from the start of `test`, with the return addresses. -/
def stackSystem : System (State × Stacks) Event where
  init x := Boot x.1 ∧ ∀ p, x.2.returning p = false
  step x e x' := x.1.execOn x.2 e = some x'

/-- Its runs, with the ASIDs that no U-proc has and the log of EXECUTE. A return requests
nothing of the Nucleus. -/
def stackRuns : System ((State × Stacks) × Set Asid × ExecLog) Event :=
  stackSystem.withHistory (fun x => (x.1.unused, .empty)) fun x e x' h =>
    if x.2.returning e.1 then h else (x.1.vacancy e x'.1 h.1, h.2.record x.1 e)

/-- Nobody executes `createUProc` for an ASID that is in use. -/
def GivesVacant (y : (State × Stacks) × Set Asid × ExecLog) (e : Event) : Prop :=
  ∀ a, y.1.1.prepares e.1 = some a → a ∈ y.2.1

/-- Everybody finds its own return address. -/
structure Stacks.Kept (k : Stacks) (s : State) : Prop where
  past : ∀ p a c x f, s.uproc p = some (a, c) → c.past x = true → k.caller p c x = some f →
    k.saved a = f
  returning : ∀ p a c, s.uproc p = some (a, c) → k.returning p = true → c = (k.saved a).goesOn
  bound : ∀ p, k.returning p = true → p < s.nextPid

section Step
variable {s s' : State} {k : Stacks} {vacant : Set Asid} {p q : ℕ} {a b : Asid} {vm vm' : Vm}
  {c c' d : Control} {inp : Input} {svc : Service} {x : Sem} {f : Caller}

/-- Outside `freeSwapFrames` the caller is that of a terminal function. -/
theorem Stacks.caller_eq (hc : c.freeing = false) (h : k.caller p c x = some f) (k' : Stacks)
    (q : ℕ) (d : Control) : x.OfTerminal ∧ k'.caller q d x = some f := by
  cases x with
  | termWriteSemaphore | termReadSemaphore => exact ⟨by simp [Sem.OfTerminal], h⟩
  | swapSemaphore => simp [Stacks.caller, hc] at h
  | masterSemaphore | shellSemaphore => exact absurd h.symm (Option.some_ne_none f)

/-- Who stays past its P keeps its return address, if nothing is saved in the step. -/
theorem Stacks.kept_stays (hk : ∀ x f, c.past x = true → k.caller p c x = some f → k.saved a = f)
    (hsaved : (k.after p a c inp svc).saved = k.saved) (hc : c'.freeing = false)
    (hpast : ∀ x, x.OfTerminal → c'.past x = true → c.past x = true) (hx : c'.past x = true)
    (h : (k.after p a c inp svc).caller p c' x = some f) :
    (k.after p a c inp svc).saved a = f := by
  obtain ⟨hterm, h⟩ := caller_eq hc h k p c
  rw [hsaved]
  exact hk x f (hpast x hterm hx) h

/-- Who is past its P finds its return address after each of its own steps. -/
theorem Moves.kept (h : Moves a vm c inp c' vm' svc)
    (hk : ∀ x f, c.past x = true → k.caller p c x = some f → k.saved a = f)
    (hx : c'.past x = true) (hf : (k.after p a c inp svc).caller p c' x = some f) :
    (k.after p a c inp svc).saved a = f := by
  cases h with
  | @codePasseren code code' y _ _ hp' =>
      obtain rfl : x = y := by simpa [Control.past, hp'] using hx
      have hcall := (Stacks.caller_eq rfl hf k p (.run code)).2
      simp only [Stacks.after, hcall, Option.elim_some, Function.update_self]
  | sys2Passeren =>
      obtain rfl : x = .swapSemaphore := by simpa [Control.past] using hx
      have hcall : k.caller p (.sys2 .passeren) .swapSemaphore = some f := hf
      simp only [Stacks.after, hcall, Option.elim_some, Function.update_self]
  | sweep =>
      obtain rfl : x = .swapSemaphore := by simpa [Control.past] using hx
      exact hk .swapSemaphore f rfl hf
  | signal => exact absurd hx (by simp [Control.past])
  | @code code code' _ _ _ hp | @store code code' _ _ _ _ _ _ hp =>
      refine Stacks.kept_stays hk rfl rfl (fun y _ hy => ?_) hx hf
      exact (hp y).symm.trans hy
  | verhogen | refill | fault | cause | passeren | setFlag | choose | evictFree | evict | write |
    read | readFailed | clearFlagFailed | record | install | clearFlag =>
      refine Stacks.kept_stays hk rfl rfl (fun y hy h => ?_) hx hf
      simpa [Control.past, hy.ne] using h
  | terminal hp =>
      refine Stacks.kept_stays hk rfl rfl (fun y hy h => ?_) hx hf
      exact absurd (h.symm.trans (hp y)) (by decide)
  | codeVerhogen _ _ hp' =>
      refine Stacks.kept_stays hk rfl rfl (fun y hy h => ?_) hx hf
      exact absurd (h.symm.trans (hp' y)) (by decide)
  | trap | terminate | execute | causeMod | verhogenFailed | checkHeld | check | releaseMutex |
    sys2Verhogen | term | init | create | createFailed | sys6Passeren =>
      refine Stacks.kept_stays hk rfl rfl (fun y hy h => ?_) hx hf
      simp [Control.past, Code.past, programTrapHandler, hy.ne] at h

/-- Who finds its own return address is to return to its own caller. -/
theorem goesOn_next (h : next a vm c inp = some (c', vm', .verhogen x))
    (hk : ∀ x f, c.past x = true → k.caller p c x = some f → k.saved a = f)
    (hf : k.caller p c x = some f) : c' = (k.saved a).goesOn := by
  cases hfr : c.freeing with
  | true =>
      cases next_moves h with
      | sys2Verhogen =>
          have hdirect : k.direct p = true := by
            by_contra hd
            simp [Stacks.caller, hd] at hf
          rw [hk .swapSemaphore .sys2 rfl (by simp [Stacks.caller, Control.freeing, hdirect])]
          rfl
      | codeVerhogen | verhogen | verhogenFailed | releaseMutex | signal =>
          simp [Control.freeing] at hfr
  | false =>
      obtain ⟨hx, _⟩ := Stacks.caller_eq hfr hf k p c
      cases next_uses hx h with
      | ends hend =>
          rw [hk x f hend.past hf]
          rcases hx with rfl | rfl
          · cases hf
            rfl
          · cases hf
            rfl
      | dies _ _ _ hs => exact absurd hs (by simpa using hx.ne.1)
      | outside _ _ _ hv | faults _ _ _ _ _ hv => exact absurd rfl hv

/-- A step leaves the return address of another ASID alone. -/
theorem Stacks.saved_of_ne (hb : b ≠ a) : (k.after p a c inp svc).saved b = k.saved b := by
  cases svc with
  | none | initSemaphores | verhogen | create | term => rfl
  | passeren x =>
      cases hx : k.caller p c x with
      | none => simp only [Stacks.after, hx, Option.elim_none]
      | some f => simp only [Stacks.after, hx, Option.elim_some, Function.update_of_ne hb]

theorem Stacks.caller_of_ne (hq : q ≠ p) :
    (k.after p a c inp svc).caller q d x = k.caller q d x := by
  have hdirect : (k.after p a c inp svc).direct q = k.direct q := by
    cases c with
    | sys2 => rfl
    | run | pager | sys6 => exact Function.update_of_ne hq ..
  cases x with
  | swapSemaphore => rw [caller, caller, hdirect]
  | termWriteSemaphore | termReadSemaphore | masterSemaphore | shellSemaphore => rfl

theorem Stacks.returning_of_ne (hq : q ≠ p) :
    (k.after p a c inp svc).returning q = k.returning q := by
  cases svc with
  | verhogen => exact Function.update_of_ne hq ..
  | none | initSemaphores | passeren | create | term => rfl

/-- The U-proc that takes the step is to return only if it has just done its V. -/
theorem Stacks.returning_self (hr : k.returning p = false)
    (h : (k.after p a c inp svc).returning p = true) :
    ∃ x f, svc = .verhogen x ∧ k.caller p c x = some f := by
  cases svc with
  | verhogen x =>
      have hsome : (k.caller p c x).isSome = true := (Function.update_self ..).symm.trans h
      obtain ⟨f, hf⟩ := Option.isSome_iff_exists.mp hsome
      exact ⟨x, f, rfl, hf⟩
  | none | initSemaphores | passeren | create | term => exact absurd (h.symm.trans hr) (by decide)

theorem State.resume_self {parent : ℕ} (h : s.proc p = some ⟨parent, .uproc a c⟩) :
    s.resume p a c = s := by
  have hproc : Function.update s.proc p ((s.proc p).map fun r => { r with body := .uproc a c }) =
      s.proc := by
    rw [h, Option.map_some, ← h]
    exact Function.update_eq_self ..
  rw [State.resume, hproc]

namespace Stacks.Kept

/-- Who returns goes on where it is. -/
theorem resume (hk : k.Kept s) (hu : s.uproc p = some (a, c)) (hr : k.returning p = true) :
    s.resume p a (k.saved a).goesOn = s := by
  obtain ⟨parent, hp⟩ := State.uproc_eq_some.mp hu
  rw [← hk.returning p a c hu hr, State.resume_self hp]

theorem back (hk : k.Kept s) : (k.back p).Kept s := by
  have hret : ∀ q, (k.back p).returning q = true → k.returning q = true := by
    intro q hq
    by_cases hqp : q = p
    · subst hqp
      exact absurd ((Function.update_self ..).symm.trans hq) (by decide)
    · exact (Function.update_of_ne hqp ..).symm.trans hq
  constructor
  · exact hk.past
  · exact fun q b d hu hq => hk.returning q b d hu (hret q hq)
  · exact fun q hq => hk.bound q (hret q hq)

theorem step_test {pt pt' : TestPoint} {parent : ℕ} (hk : k.Kept s) (hord : Orderly s vacant)
    (hp : s.proc p = some ⟨parent, .test pt⟩) :
    k.Kept ((s.move p ⟨parent, .test pt'⟩ vm).serve p svc) where
  past q b d x f hq hx hf := by
    rcases uproc_after_test (hord.bound _ _ hp) hq with ⟨_, hq⟩ | ⟨_, _, rfl⟩
    · exact hk.past q b d x f hq hx hf
    · exact absurd hx (by simp [Control.past, Code.past])
  returning q b d hq hr := by
    rcases uproc_after_test (hord.bound _ _ hp) hq with ⟨_, hq⟩ | ⟨_, rfl, _⟩
    · exact hk.returning q b d hq hr
    · exact absurd (hk.bound _ hr) (lt_irrefl _)
  bound q hr := lt_of_lt_of_le (hk.bound q hr) (nextPid_le_serve (t := s.move p _ vm))

/-- Alone with its ASID, everybody finds its own return address. -/
theorem step_uproc {parent : ℕ} (hk : k.Kept s) (hord : Orderly s vacant)
    (hr : k.returning p = false) (hp : s.proc p = some ⟨parent, .uproc a c⟩)
    (hn : next a s.vm c inp = some (c', vm, svc)) :
    (k.after p a c inp svc).Kept ((s.move p ⟨parent, .uproc a c'⟩ vm).serve p svc) := by
  have hu := State.uproc_of_proc hp
  have hlt := hord.bound _ _ hp
  have hown : ∀ x f, c.past x = true → k.caller p c x = some f → k.saved a = f :=
    fun x f => hk.past p a c x f hu
  have hne : ∀ {q b d}, q ≠ p → s.uproc q = some (b, d) → b ≠ a := by
    rintro q b d hqp hq rfl
    exact hqp (hord.distinct _ _ _ _ _ hq hu)
  constructor
  · intro q b d x f hq hx hf
    rcases uproc_after hlt hq with ⟨rfl, rfl, rfl, _⟩ | ⟨hqp, hold⟩ | ⟨_, _, rfl⟩
    · exact (next_moves hn).kept hown hx hf
    · rw [caller_of_ne hqp] at hf
      rw [saved_of_ne (hne hqp hold)]
      exact hk.past q b d x f hold hx hf
    · exact absurd hx (by simp [Control.past, Code.past])
  · intro q b d hq hret
    rcases uproc_after hlt hq with ⟨rfl, rfl, rfl, _⟩ | ⟨hqp, hold⟩ | ⟨_, rfl, _⟩
    · obtain ⟨x, f, rfl, hf⟩ := returning_self hr hret
      exact goesOn_next (k := k) hn hown hf
    · rw [returning_of_ne hqp] at hret
      rw [saved_of_ne (hne hqp hold)]
      exact hk.returning q b d hold hret
    · rw [returning_of_ne (Nat.ne_of_gt hlt)] at hret
      exact absurd (hk.bound _ hret) (lt_irrefl _)
  · intro q hret
    refine lt_of_lt_of_le ?_ (nextPid_le_serve (t := s.move p _ vm))
    by_cases hqp : q = p
    · exact hqp ▸ hlt
    · rw [returning_of_ne hqp] at hret
      exact hk.bound q hret

end Stacks.Kept

/-- A step is one of the system without the return addresses, or a return that changes
nothing. -/
theorem execOn_step {k' : Stacks} {e : Event} (hk : k.Kept s) (hord : Orderly s vacant)
    (h : s.execOn k e = some (s', k')) :
    k'.Kept s' ∧ if k.returning e.1 then s' = s else s.exec e.1 e.2 = some s' := by
  unfold State.execOn at h
  split at h
  · next hr =>
    obtain ⟨⟨a, c⟩, hu, h⟩ := Option.bind_eq_some_iff.mp h
    rw [Input.onGo_eq_some, Prod.mk.injEq, hk.resume hu hr] at h
    obtain ⟨_, rfl, rfl⟩ := h
    exact ⟨hk.back, by rw [if_pos hr]⟩
  · next hr =>
    obtain ⟨t, hexec, ht⟩ := Option.map_eq_some_iff.mp h
    rw [Prod.mk.injEq] at ht
    obtain ⟨rfl, rfl⟩ := ht
    refine ⟨?_, by rwa [if_neg hr]⟩
    have hsteps := State.steps_of_exec hexec
    cases hu : s.uproc e.1 with
    | none =>
        cases hsteps with
        | test hp => exact hk.step_test hord hp
        | uproc hp => exact absurd ((State.uproc_of_proc hp).symm.trans hu) (Option.some_ne_none _)
    | some x =>
        obtain ⟨parent, hp⟩ := State.uproc_eq_some.mp hu
        obtain ⟨_, c', vm', svc, hn, hsvc, rfl⟩ := State.exec_uproc hexec hp
        rw [Option.elim_some, hsvc]
        exact hk.step_uproc hord (by simpa using hr) hp hn

end Step

section Runs
variable {y : (State × Stacks) × Set Asid × ExecLog}

/-- While no ASID is given out that is in use, the return addresses change nothing: the
runs are those of the system without them. -/
theorem stackRuns_reachable (h : (stackRuns.restrict GivesVacant).Reachable y) :
    (supportRuns Boot).Reachable (y.1.1, y.2.1) ∧ execRuns.Reachable (y.1.1, y.2.2) ∧
      y.1.2.Kept y.1.1 := by
  refine h.invariant (I := fun y => (supportRuns Boot).Reachable (y.1.1, y.2.1) ∧
    execRuns.Reachable (y.1.1, y.2.2) ∧ y.1.2.Kept y.1.1) (fun y hy => ?_) fun y e y' _ ih hs => ?_
  · obtain ⟨⟨hboot, hret⟩, hhist⟩ := hy
    rw [hhist]
    refine ⟨.init ⟨hboot, rfl⟩, .init ⟨hboot, rfl⟩, ⟨?_, ?_, ?_⟩⟩
    · exact fun p a c x f hp => absurd hp (hboot.uproc_ne p a c)
    · exact fun p a c hp => absurd hp (hboot.uproc_ne p a c)
    · exact fun p hp => absurd (hp.symm.trans (hret p)) (by decide)
  · obtain ⟨hsup, hlog, hk⟩ := ih
    obtain ⟨hvacant, hstep, hhist⟩ := hs
    have hord := orderly_reachable (fun s h => h.orderly) hsup
    obtain ⟨hk', hexec⟩ := execOn_step hk hord hstep
    rw [hhist]
    dsimp only
    split at hexec
    · next hr =>
      rw [if_pos hr, hexec]
      exact ⟨hsup, hlog, hexec ▸ hk'⟩
    · next hr =>
      rw [if_neg hr]
      exact ⟨hsup.step ⟨hvacant, hexec, rfl⟩, hlog.step ⟨hexec, rfl⟩, hk'⟩

/-- EXECUTE is synchronous in every run in which no ASID is given out that is in use. -/
theorem execute_synchronous (h : (stackRuns.restrict GivesVacant).Reachable y) :
    Synchronous y.1.1 y.2.2 :=
  synchronous_reachable (stackRuns_reachable h).2.1

end Runs

section Concrete

/-- The run that takes these steps; when `vacant` is set, `createUProc` is to be given
ASIDs that no U-proc has. -/
def stackRun (vacant : Bool) : List Event → (State × Stacks) × Finset Asid × ExecLog →
    Option ((State × Stacks) × Finset Asid × ExecLog)
  | [], y => some y
  | e :: es, y =>
      if vacant = true → ∀ a, y.1.1.prepares e.1 = some a → a ∈ y.2.1 then
        (y.1.1.execOn y.1.2 e).bind fun x =>
          stackRun vacant es (x, if y.1.2.returning e.1 then y.2 else
            (y.1.1.freed e y.2.1, y.2.2.record y.1.1 e))
      else none

theorem stackRun_reachable {vacant : Bool} {es : List Event}
    {y y' : (State × Stacks) × Finset Asid × ExecLog}
    (hy : (stackRuns.restrict fun y e => vacant = true → GivesVacant y e).Reachable
      (y.1, (y.2.1 : Set Asid), y.2.2)) (h : stackRun vacant es y = some y') :
    (stackRuns.restrict fun y e => vacant = true → GivesVacant y e).Reachable
      (y'.1, (y'.2.1 : Set Asid), y'.2.2) := by
  induction es generalizing y with
  | nil =>
      rw [stackRun, Option.some.injEq] at h
      exact h ▸ hy
  | cons e es ih =>
      rw [stackRun] at h
      split at h
      · next hcond =>
        obtain ⟨x, hexec, hrest⟩ := Option.bind_eq_some_iff.mp h
        refine ih (y := (x, if y.1.2.returning e.1 then y.2 else
          (y.1.1.freed e y.2.1, y.2.2.record y.1.1 e))) (hy.step (e := e) ⟨hcond, hexec, ?_⟩) hrest
        dsimp only
        split
        · rfl
        · exact Prod.ext (coe_freed y.1.1 x.1 e y.2.1).symm rfl
      · exact absurd h.symm (Option.some_ne_none y')

/-- The run from the start of `test`. -/
def stackRunOf (vacant : Bool) (es : List Event) :
    Option ((State × Stacks) × Finset Asid × ExecLog) :=
  stackRun vacant es ((bootState fun _ _ _ => 0, ⟨fun _ => .sys2, fun _ => false, fun _ => false⟩),
    Finset.univ, .empty)

theorem stackRunOf_reachable {vacant : Bool} {es : List Event}
    {y : (State × Stacks) × Finset Asid × ExecLog} (h : stackRunOf vacant es = some y) :
    (stackRuns.restrict fun y e => vacant = true → GivesVacant y e).Reachable
      (y.1, (y.2.1 : Set Asid), y.2.2) := by
  have hboot := bootState_boot fun _ _ _ => 0
  refine stackRun_reachable (.init ⟨⟨hboot, fun _ => rfl⟩, ?_⟩) h
  exact Prod.ext hboot.unused_eq.symm rfl

/-- The shell executes the program 2 twice. -/
theorem execute_synchronous_twice : ∃ y : (State × Stacks) × Set Asid × ExecLog,
    y.2.2.children = [3, 4] ∧ y.2.2.signals = [3, 4] ∧ y.2.2.returns = 2 ∧
      Synchronous y.1.1 y.2.2 := by
  have hany : (stackRunOf true (executeEvents ++ terminateEvents 3 ++ [(3, .go)] ++
      [(2, .syscall 6 2 0), (2, .go), (2, .created true), (2, .go)] ++ terminateEvents 4)).any
      (fun y => y.2.2.children == [3, 4] && y.2.2.signals == [3, 4] &&
        y.2.2.returns == 2) = true := by
    decide +kernel
  obtain ⟨y, hrun, hcheck⟩ := (Option.any_eq_true _ _).mp hany
  simp only [Bool.and_eq_true, beq_iff_eq] at hcheck
  refine ⟨(y.1, (y.2.1 : Set Asid), y.2.2), hcheck.1.1, hcheck.1.2, hcheck.2, ?_⟩
  exact execute_synchronous ((stackRunOf_reachable hrun).restrict_mono fun _ _ h => h rfl)

/-- The timer expires when the child 3 has done all of `freeSwapFrames` but return: the shell
executes the program 2 once more, and the child 4 calls `writeTerminal` on the same stack.
The child 3 returns into its `sys4`, requests TERMINATE and does a second V. -/
def overwrittenEvents : List Event :=
  executeEvents ++ (3, .syscall 2 0 0) :: List.replicate 5 (3, .go) ++
    [(2, .syscall 6 2 0), (2, .go), (2, .created true), (2, .go)] ++
    [(4, .syscall 4 0x80000000 1), (4, .go), (3, .go)] ++ terminateEvents 3 ++ [(3, .go)]

/-- The child 3 has done two V, and the second EXECUTE has returned while its child goes on. -/
theorem signalled_twice : ∃ y, stackRuns.Reachable y ∧ y.1.1.proc 3 = none ∧
    y.2.2.signals = [3, 3] ∧ y.2.2.returns = 2 ∧ (y.1.1.uproc 4).isSome = true ∧
      ¬ Synchronous y.1.1 y.2.2 := by
  have hany : (stackRunOf false overwrittenEvents).any (fun y =>
      (y.1.1.proc 3).isNone && y.2.2.signals == [3, 3] && y.2.2.returns == 2 &&
        (y.1.1.uproc 4).isSome) = true := by
    decide +kernel
  obtain ⟨y, hrun, hcheck⟩ := (Option.any_eq_true _ _).mp hany
  simp only [Bool.and_eq_true, beq_iff_eq, Option.isNone_iff_eq_none] at hcheck
  refine ⟨(y.1, (y.2.1 : Set Asid), y.2.2), (stackRunOf_reachable hrun).of_restrict,
    hcheck.1.1.1, hcheck.1.1.2, hcheck.1.2, hcheck.2, fun h => ?_⟩
  exact absurd h.once (by rw [hcheck.1.1.2]; decide)

end Concrete
end PandOSsh.SupportLevel
