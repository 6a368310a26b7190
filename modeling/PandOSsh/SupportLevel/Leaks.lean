import PandOSsh.SupportLevel.Execute

/-!
# The semaphores of a U-proc that ends (syscalls.c, vmSupport.c)

Every way in which a U-proc ends goes through `sys2`, which gives
`swapSemaphore` back if the flag says so, but knows nothing about the
semaphores of the terminal. A call of `writeTerminal` or `readTerminal` that is
interrupted for good leaves its semaphore taken.
-/

namespace PandOSsh.SupportLevel
open Library

/-- A Program Trap, a TLB-Mod exception, or a page read that fails. -/
def Failing (s : State) (e : Event) : Prop :=
  e.2 = .trap ∨ (∃ va, e.2 = .fault va true) ∨
    ∃ a hi back i w, s.uproc e.1 = some (a, .pager hi back (.read i)) ∧ e.2 = .status w ∧
      (s.vm.readWriteFlashdrive a.num (missingPage hi) (physicalFrame i) flashRead w).2 ≠ 1

/-- No terminal call, between its P and its V, is ended by its access to the buffer. -/
def CallsSurvive (s : State) (e : Event) : Prop :=
  Failing s e → ∀ a c x, s.uproc e.1 = some (a, c) → x.OfTerminal → c.past x = false

/-- The runs from the start of `test` in which no ASID is given out while it is in use,
with the tally of P and V. -/
def tallyRuns : System ((State × Set Asid) × Tally) Event :=
  (supportRuns Boot).withHistory (fun _ => .zero) fun x e _ t => t.record e.1 (x.1.service e)

/-- A U-proc at its TERMPROCESS has given back what it took. -/
structure GivenBack (s : State) (t : Tally) : Prop where
  free : ∀ p a x, s.uproc p = some (a, .sys2 .term) → ¬ (s.sem x).Holds (s.past x) p
  swap : ∀ p a, s.uproc p = some (a, .sys2 .term) →
    t.taken .swapSemaphore p = t.given .swapSemaphore p
  terminal : ∀ p a x, s.uproc p = some (a, .sys2 .term) → x.OfTerminal → t.taken x p = t.given x p

/-- The pager is about to go to `sys2`. -/
def PagerPoint.failing : PagerPoint → Bool
  | .cause mod => mod
  | .clearFlagFailed | .verhogenFailed => true
  | .passeren | .setFlag | .choose | .evict _ | .write _ _ _ | .read _ | .record _ | .install _ |
    .clearFlag | .verhogen => false

/-- The flag of an ASID is set by the pager of a U-proc that owes its V. -/
def Flagged (s : State) : Prop :=
  ∀ a, s.vm.holdingSwapMutex a = true → ∃ p c, s.uproc p = some (a, c) ∧ c.flagged = true

/-- No terminal call that has its semaphore is interrupted for good. -/
def Surviving (s : State) : Prop :=
  ∀ p a hi back pt x, s.uproc p = some (a, .pager hi back pt) → pt.failing = true →
    x.OfTerminal → back.past x = false

section Moves
variable {a : Asid} {vm vm' : Vm} {c c' : Control} {inp : Input} {svc : Service} {x : Sem}

theorem Control.owing_of_flagged (h : c.flagged = true) : c.signalled = false := by
  cases c with
  | pager => rfl
  | run | sys2 | sys6 => exact absurd h Bool.false_ne_true

/-- A terminal call gives its semaphore back, unless it is ended on the way. -/
theorem Moves.crosses_terminal (hx : x.OfTerminal) (h : Moves a vm c inp c' vm' svc)
    (hok : c' = .sys2 .checkFlag → c.past x = false) :
    State.Crosses x svc (c.past x) (c'.past x) := by
  obtain ⟨hswap, hmaster, hshell⟩ := hx.ne
  have hsys2 : ∀ pt, (Control.sys2 pt).past x = false := fun pt => past_sys2 hx
  cases h with
  | code _ _ hp | store _ _ hp =>
      simp only [Control.past, hp x]
      exact .stays (by simp) (by simp) (by simp)
  | refill => exact .stays (by simp) (by simp) (by simp)
  | fault =>
      rw [past_pager hx]
      exact .stays (by simp) (by simp) (by simp)
  | trap | causeMod =>
      rw [hok rfl, programTrapHandler, hsys2]
      exact .stays (by simp) (by simp) (by simp)
  | createFailed =>
      rw [hok rfl, hsys2]
      exact .stays (by simp) (by simp) (by simp)
  | verhogenFailed =>
      rw [hok rfl, programTrapHandler, hsys2]
      exact .stays (by simp) (by simpa using hswap.symm) (by simp)
  | terminate =>
      rw [hsys2]
      exact .stays (by simp) (by simp) (by simp)
  | terminal hp =>
      simp only [Control.past, hp x]
      exact .stays (by simp) (by simp) (by simp)
  | @codePasseren _ _ y _ hp hp' =>
      simp only [Control.past, hp x, hp' x]
      by_cases hxy : x = y
      · subst hxy
        rw [beq_self_eq_true]
        exact .passeren
      · rw [beq_false_of_ne hxy]
        exact .stays (by simpa using Ne.symm hxy) (by simp) (by simp)
  | @codeVerhogen _ _ y _ hp hp' =>
      simp only [Control.past, hp x, hp' x]
      by_cases hxy : x = y
      · subst hxy
        rw [beq_self_eq_true]
        exact .verhogen
      · rw [beq_false_of_ne hxy]
        exact .stays (by simp) (by simpa using Ne.symm hxy) (by simp)
  | verhogen =>
      rw [past_pager hx]
      exact .stays (by simp) (by simpa using hswap.symm) (by simp)
  | passeren =>
      rw [past_pager hx, past_pager hx]
      exact .stays (by simpa using hswap.symm) (by simp) (by simp)
  | cause | setFlag | choose | evictFree | evict | write | read | readFailed | clearFlagFailed |
    record | install | clearFlag =>
      rw [past_pager hx, past_pager hx]
      exact .stays (by simp) (by simp) (by simp)
  | signal =>
      rw [hsys2, hsys2]
      refine .stays (by simp) (fun he => ?_) (by simp)
      split at he
      · exact hmaster (Service.verhogen.inj he).symm
      · exact hshell (Service.verhogen.inj he).symm
  | releaseMutex | sys2Verhogen =>
      rw [hsys2, hsys2]
      exact .stays (by simp) (by simpa using hswap.symm) (by simp)
  | sys2Passeren =>
      rw [hsys2, hsys2]
      exact .stays (by simpa using hswap.symm) (by simp) (by simp)
  | checkHeld | check | sweep =>
      rw [hsys2, hsys2]
      exact .stays (by simp) (by simp) (by simp)
  | term =>
      rw [hsys2]
      exact .stays (by simp) (by simp) (by simp)
  | execute | init | create => exact .stays (by simp) (by simp) (by simp)
  | sys6Passeren => exact .stays (by simpa using hshell.symm) (by simp) (by simp)

/-- Past its V, a U-proc does not touch the flag. -/
theorem Moves.flag_of_signalled (h : Moves a vm c inp c' vm' svc) (hc : c.signalled = true) :
    vm'.holdingSwapMutex = vm.holdingSwapMutex := by
  cases h with
  | sweep => exact Vm.freeSwapFrames_flag
  | sys2Passeren | sys2Verhogen | term => rfl
  | code | store | refill | fault | trap | terminate | terminal | execute | codePasseren |
    codeVerhogen | cause | causeMod | passeren | setFlag | choose | evictFree | evict | write |
    read | readFailed | clearFlagFailed | verhogenFailed | record | install | clearFlag |
    verhogen | checkHeld | check | releaseMutex | signal | init | create | createFailed |
    sys6Passeren => exact absurd hc (by simp [Control.signalled])

/-- How a U-proc gets to `sys2` out of a terminal call. -/
theorem Moves.to_sys2 (h : Moves a vm c inp c' vm' svc)
    (hc : c' = .sys2 .checkFlag) (hpast : c.past x = true) :
    inp = .trap ∨ ∃ hi back pt, c = .pager hi back pt ∧ pt.failing = true := by
  cases h with
  | trap => exact .inl rfl
  | causeMod => exact .inr ⟨_, _, _, rfl, rfl⟩
  | verhogenFailed => exact .inr ⟨_, _, _, rfl, rfl⟩
  | terminate | createFailed => exact absurd hpast Bool.false_ne_true
  | code | store | refill | fault | terminal | execute | codePasseren | codeVerhogen | cause |
    passeren | setFlag | choose | evictFree | evict | write | read | readFailed |
    clearFlagFailed | record | install | clearFlag | verhogen | checkHeld | check |
    releaseMutex | signal | sys2Passeren | sweep | sys2Verhogen | term | init | create |
    sys6Passeren => cases hc

end Moves

namespace Sync
variable {s s' : State} {h : ExecLog} {p q : ℕ} {a b : Asid} {c d : Control} {parent : ℕ} {inp : Input}

/-- Nobody who owes its V is killed by another. -/
theorem survives (hs : Sync s h) (hst : Steps s p inp s') (hq : s.uproc q = some (b, d))
    (hd : d.signalled = false) (hqp : q ≠ p) : s'.uproc q = some (b, d) := by
  obtain ⟨par, hq'⟩ := State.uproc_eq_some.mp hq
  have hqn : q ≠ s.nextPid := Nat.ne_of_lt (hs.bound q _ hq')
  cases hst with
  | @test parent pt pt' vm svc ht hb _ hm =>
      have hterm : svc ≠ .term := by
        rintro rfl
        rw [hm.of_term] at ht
        have hearly := hs.not_early ht hb
        obtain ⟨hask, hidle⟩ := hs.idle_of_not_early hearly
        rcases hs.ge_two hq with rfl | h3
        · rw [Sync.signalled_of_not_early hearly hq] at hd
          exact absurd hd (by decide)
        · have hE := (hs.last hq h3 hd).2
          have hKE := (hs.idle hask hidle).2.2
          omega
      rw [uproc_congr (State.proc_keep hqn hqp fun he => absurd he hterm), hq]
  | @uproc parent a c c' vm svc hproc hb _ hm =>
      have hu := State.uproc_of_proc hproc
      rcases hs.ge_two hu with rfl | h3
      · have hterm : svc ≠ .term := by
          rintro rfl
          obtain ⟨rfl, rfl⟩ := hm.of_term
          have hask : s.asking = 0 := by
            rw [State.asking, hu]
            rfl
          have hKE := (hs.idle hask fun hq => hb ⟨_, hq⟩).2.2
          rcases hs.ge_two hq with he | h3
          · exact hqp he
          · have hE := (hs.last hq h3 hd).2
            omega
        rw [uproc_congr (State.proc_keep hqn hqp fun he => absurd he hterm), hq]
      · rw [uproc_congr (proc_keep_alone hproc (by rfl) hqp hqn fun _ => hs.childless h3), hq]

end Sync

section Run
variable {s s' : State} {h : ExecLog} {t : Tally} {p q : ℕ} {a b : Asid} {c c' d : Control}
  {parent : ℕ} {inp : Input} {vm : Vm} {svc : Service} {x : Sem}

/-- `sys2` finds the flag set only for its own U-proc, which the pager has sent there. -/
theorem Flagged.of_checkFlag (hf : Flagged s) (hs : Sync s h)
    (hu : s.uproc p = some (a, .sys2 .checkFlag)) : s.vm.holdingSwapMutex a = false := by
  rw [Bool.eq_false_iff]
  intro hflag
  obtain ⟨q, d, hq, hd⟩ := hf a hflag
  obtain rfl := hs.owing_unique hu rfl hq (Control.owing_of_flagged hd)
  rw [hu, Option.some.injEq, Prod.mk.injEq] at hq
  rw [← hq.2] at hd
  exact absurd hd (by decide)

theorem Flagged.step (hf : Flagged s) (hs : Sync s h) (hst : Steps s p inp s') : Flagged s' := by
  have hother : ∀ a, s.vm.holdingSwapMutex a = true → (∀ c, s.uproc p = some (a, c) →
      c.flagged = false) → ∃ q d, s'.uproc q = some (a, d) ∧ d.flagged = true := by
    intro a hflag hp
    obtain ⟨q, d, hq, hd⟩ := hf a hflag
    have hqp : q ≠ p := by
      rintro rfl
      rw [hp d hq] at hd
      exact absurd hd (by decide)
    exact ⟨q, d, hs.survives hst hq (Control.owing_of_flagged hd) hqp, hd⟩
  intro b hflag
  cases hst with
  | @test parent pt pt' vm svc ht hb hsvc hm =>
      rw [State.serve_vm, State.move_vm, hm.flag] at hflag
      apply hother b hflag
      intro c hu
      rw [State.uproc, ht] at hu
      cases hu
  | @uproc parent a c c' vm svc hproc hb hsvc hm =>
      have hu := State.uproc_of_proc hproc
      rw [State.serve_vm, State.move_vm] at hflag
      by_cases hba : b = a
      · subst hba
        cases hc : c.signalled with
        | true =>
            rw [hm.flag_of_signalled hc] at hflag
            apply hother b hflag
            intro d hd
            rw [hu, Option.some.injEq, Prod.mk.injEq] at hd
            rw [Bool.eq_false_iff]
            intro hdf
            rw [hd.2, Control.owing_of_flagged hdf] at hc
            exact absurd hc (by decide)
        | false =>
            have hterm : svc ≠ .term := by
              rintro rfl
              rw [hm.of_term.1] at hc
              exact absurd hc (by decide)
            refine ⟨p, c', State.uproc_of_proc (State.proc_self
              (Nat.ne_of_lt (hs.bound _ _ hproc)) hterm), hm.flag_self (fun hflag => ?_) hflag⟩
            obtain ⟨q, d, hq, hd⟩ := hf b hflag
            obtain rfl := hs.owing_unique hu hc hq (Control.owing_of_flagged hd)
            rw [hu, Option.some.injEq, Prod.mk.injEq] at hq
            exact hq.2 ▸ hd
      · rw [hm.changes.flag_of_ne hba] at hflag
        apply hother b hflag
        intro d hd
        rw [hu, Option.some.injEq, Prod.mk.injEq] at hd
        exact absurd hd.1.symm hba

theorem Surviving.step_uproc (hv : Surviving s) (hlt : p < s.nextPid)
    (hproc : s.proc p = some ⟨parent, .uproc a c⟩) (hm : Moves a s.vm c inp c' vm svc)
    (hcond : CallsSurvive s (p, inp)) :
    Surviving ((s.move p ⟨parent, .uproc a c'⟩ vm).serve p svc) := by
  have hu := State.uproc_of_proc hproc
  intro q b hi back pt x hq hpt hx
  rcases uproc_after hlt hq with ⟨rfl, rfl, rfl, _⟩ | ⟨_, hq⟩ | ⟨_, _, he⟩
  · cases hm with
    | fault =>
        obtain rfl : _ = true := hpt
        exact hcond (.inr (.inl ⟨_, rfl⟩)) b _ x hu hx
    | readFailed hr =>
        have hpast := hcond (.inr (.inr ⟨b, _, _, _, _, hu, rfl, hr⟩)) b _ x hu hx
        rw [past_pager hx] at hpast
        exact hpast
    | clearFlagFailed => exact hv q b _ _ _ x hu rfl hx
    | cause | passeren | setFlag | choose | evictFree | evict | write | read | record | install |
      clearFlag => exact absurd hpt Bool.false_ne_true
  · exact hv q b hi back pt x hq hpt hx
  · cases he

theorem Surviving.step_test {pt' : TestPoint} (hv : Surviving s) (hlt : p < s.nextPid) :
    Surviving ((s.move p ⟨parent, .test pt'⟩ vm).serve p svc) := by
  intro q b hi back pt x hq hpt hx
  rcases uproc_after_test hlt hq with ⟨_, hq⟩ | ⟨_, _, he⟩
  · exact hv q b hi back pt x hq hpt hx
  · cases he

/-- Nobody goes to `sys2` between the P and the V of a terminal call. -/
theorem Surviving.stays_out (hv : Surviving s) (hu : s.uproc p = some (a, c))
    (hm : Moves a s.vm c inp c' vm svc) (hcond : CallsSurvive s (p, inp)) (hx : x.OfTerminal)
    (hc' : c' = .sys2 .checkFlag) : c.past x = false := by
  rw [Bool.eq_false_iff]
  intro hpast
  rcases hm.to_sys2 hc' hpast with rfl | ⟨hi, back, pt, rfl, hpt⟩
  · rw [hcond (.inl rfl) a c x hu hx] at hpast
    exact Bool.false_ne_true hpast
  · rw [past_pager hx, hv p a hi back pt x hu hpt hx] at hpast
    exact Bool.false_ne_true hpast

/-- What holds in every run in which the terminal calls survive. -/
structure Kept (s : State) (t : Tally) : Prop where
  sync : ∃ h, Sync s h
  flagged : Flagged s
  surviving : Surviving s
  swap : Balanced .swapSemaphore s t
  terminal : ∀ x : Sem, x.OfTerminal → Balanced x s t

theorem Kept.step (hk : Kept s t) (hst : Steps s p inp s') (hcond : CallsSurvive s (p, inp)) :
    Kept s' (t.record p (s.service (p, inp))) := by
  obtain ⟨h, hs⟩ := hk.sync
  refine { sync := ⟨_, hs.step hst⟩, flagged := hk.flagged.step hs hst, surviving := ?_,
           swap := ?_, terminal := ?_ }
  · cases hst with
    | test ht => exact hk.surviving.step_test (hs.bound _ _ ht)
    | uproc hproc _ _ hm =>
        exact hk.surviving.step_uproc (hs.bound _ _ hproc) hproc hm hcond
  · cases hst with
    | test ht _ hsvc =>
        rw [hsvc]
        exact hk.swap.step_test (hs.bound _ _ ht)
    | uproc hproc _ hsvc hm =>
        have hu := State.uproc_of_proc hproc
        rw [hsvc]
        apply hk.swap.step_uproc (hs.bound _ _ hproc) hu
        apply hm.crosses_swap
        rintro rfl
        exact hk.flagged.of_checkFlag hs hu
  · intro x hx
    cases hst with
    | test ht _ hsvc =>
        rw [hsvc]
        exact (hk.terminal x hx).step_test (hs.bound _ _ ht)
    | @uproc parent a c c' vm svc hproc _ hsvc hm =>
        have hu := State.uproc_of_proc hproc
        rw [hsvc]
        apply (hk.terminal x hx).step_uproc (hs.bound _ _ hproc) hu
        exact hm.crosses_terminal hx (hk.surviving.stays_out hu hm hcond hx)

theorem Boot.kept (hs : Boot s) : Kept s .zero where
  sync := ⟨_, hs.sync⟩
  flagged a hflag := by
    rw [hs.flag] at hflag
    exact absurd hflag (by decide)
  surviving p a hi back pt _ hp := absurd hp (hs.uproc_ne p a _)
  swap := .zero fun p a c hp => absurd hp (hs.uproc_ne p a c)
  terminal _ _ := .zero fun p a c hp => absurd hp (hs.uproc_ne p a c)

theorem Kept.givenBack (hk : Kept s t) : GivenBack s t where
  free p a x hp hh := by
    obtain ⟨parent, hproc⟩ := State.uproc_eq_some.mp hp
    have hpast := (State.past_iff hproc).mp hh.1
    cases x <;> exact absurd hpast Bool.false_ne_true
  swap p a hp := hk.swap.live p a _ hp
  terminal p a x hp hx := by
    have hbal := (hk.terminal x hx).live p a _ hp
    rw [past_sys2 hx] at hbal
    exact hbal

/-- In every run in which no ASID is given out while it is in use, and no access to the
buffer of a terminal call ends its U-proc between the P and the V of the call, the U-procs
end with every semaphore given back. -/
theorem given_back {y : (State × Set Asid) × Tally}
    (h : (tallyRuns.restrict fun y e => CallsSurvive y.1.1 e).Reachable y) :
    GivenBack y.1.1 y.2 := by
  have hkept : Kept y.1.1 y.2 := by
    refine h.invariant (I := fun y => Kept y.1.1 y.2) (fun y hy => ?_) fun y e y' _ ih hs => ?_
    · rw [hy.2]
      exact hy.1.1.kept
    · rw [hs.2.2]
      exact ih.step (State.steps_of_exec hs.2.1.2.1) hs.1
  exact hkept.givenBack

end Run

section Concrete

/-- The events of a page fault of the shell up to the FLASHREAD, when a frame is free. -/
def shellFault (va : Word) : List Event :=
  [(2, .refill va none), (2, .fault va false)] ++ List.replicate 5 (2, .go)

/-- The statements of `test` up to its P. -/
def testEvents : List Event := [(1, .go), (1, .go), (1, .go), (1, .created true), (1, .go)]

/-- The shell writes a character, whose page is read without an error, and ends. -/
def servedWrite : List Event :=
  testEvents ++ [(2, .syscall 4 0x80000000 1), (2, .go)] ++ shellFault 0x80000000 ++
    [(2, .status 1), (2, .go), (2, .go), (2, .go), (2, .go), (2, .go), (2, .status 5), (2, .go)] ++
      (2, .syscall 2 0 0) :: List.replicate 5 (2, .go)

/-- The shell writes a character, whose page cannot be read. -/
def failedWrite : List Event :=
  testEvents ++ [(2, .syscall 4 0x80000000 1), (2, .go)] ++ shellFault 0x80000000 ++
    (2, .status 4) :: List.replicate 7 (2, .go)

/-- Nothing fails with this step. -/
def calm (s : State) (e : Event) : Bool :=
  match e.2 with
  | .trap => false
  | .fault _ mod => !mod
  | .status w =>
      match s.uproc e.1 with
      | some (a, .pager hi _ (.read i)) =>
          (s.vm.readWriteFlashdrive a.num (missingPage hi) (physicalFrame i) flashRead w).2 == 1
      | _ => true
  | .go | .load _ | .store _ _ | .refill _ _ | .syscall _ _ _ | .created _ => true

theorem callsSurvive_of_calm {s : State} {e : Event} (h : calm s e = true) : CallsSurvive s e := by
  rintro (he | ⟨va, he⟩ | ⟨a, hi, back, i, w, hu, he, hr⟩)
  · simp [calm, he] at h
  · simp [calm, he] at h
  · simp only [calm, he, hu, beq_iff_eq] at h
    exact absurd h hr

/-- Who has done which P and V in a run from the start of `test`. -/
def tallyOf (ok : State → Event → Bool) (es : List Event) :
    Option ((State × Finset Asid) × Tally) :=
  State.track (fun s e _ t => t.record e.1 (s.service e)) ok es
    ((bootState fun _ _ _ => 0, Finset.univ), .zero)

theorem tallyOf_reachable {P : (State × Set Asid) × Tally → Event → Prop}
    {ok : State → Event → Bool} (hok : ∀ y e, ok y.1.1 e = true → P y e) {es : List Event}
    {y : (State × Finset Asid) × Tally} (h : tallyOf ok es = some y) :
    (tallyRuns.restrict P).Reachable ((y.1.1, (y.1.2 : Set Asid)), y.2) :=
  track_boot hok h

theorem given_back_served : ∃ y : (State × Finset Asid) × Tally,
    (tallyOf calm servedWrite = some y ∧ y.1.1.uproc 2 = some (0, .sys2 .term)) ∧
      GivenBack y.1.1 y.2 := by
  have hany : (tallyOf calm servedWrite).any
      (fun y => y.1.1.uproc 2 == some (0, .sys2 .term)) = true := by
    decide
  obtain ⟨y, hy, hterm⟩ := (Option.any_eq_true _ _).mp hany
  exact ⟨y, ⟨hy, by simpa using hterm⟩,
    given_back (tallyOf_reachable (fun _ _ => callsSurvive_of_calm) hy)⟩

/-- The failed read of the page ends the shell in the middle of its call: nobody gives
`termWriteSemaphore` back. -/
theorem given_back_failed : ∃ y : (State × Set Asid) × Tally, tallyRuns.Reachable y ∧
    y.1.1.uproc 2 = some (0, .sys2 .term) ∧ y.2.taken .termWriteSemaphore 2 = 1 ∧
      y.2.given .termWriteSemaphore 2 = 0 ∧ ¬ GivenBack y.1.1 y.2 := by
  have hany : (tallyOf (fun _ _ => true) failedWrite).any
      (fun y => y.1.1.uproc 2 == some (0, .sys2 .term) &&
        y.2.taken .termWriteSemaphore 2 == 1 && y.2.given .termWriteSemaphore 2 == 0) = true := by
    decide
  obtain ⟨y, hy, hcheck⟩ := (Option.any_eq_true _ _).mp hany
  simp only [Bool.and_eq_true, beq_iff_eq] at hcheck
  obtain ⟨⟨hu, htaken⟩, hgiven⟩ := hcheck
  have hreach : (tallyRuns.restrict fun _ _ => True).Reachable
      ((y.1.1, (y.1.2 : Set Asid)), y.2) := tallyOf_reachable (fun _ _ _ => trivial) hy
  refine ⟨_, hreach.of_restrict, hu, htaken, hgiven, fun h => ?_⟩
  have hbal : y.2.taken .termWriteSemaphore 2 = y.2.given .termWriteSemaphore 2 :=
    h.terminal 2 0 .termWriteSemaphore hu (.inl rfl)
  omega

end Concrete
end PandOSsh.SupportLevel
