import PandOSsh.SupportLevel.Execute
import PandOSsh.SupportLevel.SwapPool

/-!
# The end of a U-proc (syscalls.c, initProc.c)

`sys2` releases the parent with its V before it frees the frames and executes
TERMPROCESS. As long as a U-proc is not preempted in between, nobody sees it
half gone: the shell returns from EXECUTE when its child is no more, `test` ends
when no U-proc is left, and no two live processes share an ASID.
-/

namespace PandOSsh.SupportLevel
open Library

/-- From its V on the semaphore of its parent to its TERMPROCESS, a U-proc that is not
blocked keeps the processor. -/
def Unpreempted (s : State) (e : Event) : Prop :=
  ∀ p a c, s.uproc p = some (a, c) → c.signalled = true → ¬ s.Blocked p → e.1 = p

/-- What the waiters find in the runs of S. -/
structure OrderlyEnd (S : System State Event) (s : State) : Prop where
  /-- Nobody executes while a U-proc is past its V. -/
  waiter : ∀ e s' p a c, S.step s e s' → s.uproc p = some (a, c) → c.signalled = true → e.1 = p
  /-- The shell has returned from EXECUTE. -/
  executed : ∀ e s' code, S.step s e s' → s.uproc e.1 = some (shellIdx, .run code) →
    (∀ q b d, s.uproc q = some (b, d) → b = shellIdx) ∧
      ∀ i, (s.vm.swapPool i).swAsid = -1 ∨ (s.vm.swapPool i).swAsid = shellAsid
  /-- `test` has returned from its P. -/
  ended : ∀ e s' parent, S.step s e s' → s.proc e.1 = some ⟨parent, .test .term⟩ →
    (∀ q, s.uproc q = none) ∧ (∀ i, (s.vm.swapPool i).swAsid = -1) ∧ ∀ q, s'.uproc q = none
  distinct : ∀ p q a c d, s.uproc p = some (a, c) → s.uproc q = some (a, d) → p = q

/-- The Swap Pool is initialised. -/
def TestPoint.ready : TestPoint → Bool
  | .initSemaphores | .initSwapPool => false
  | .init | .create | .panic | .passeren | .term => true

/-- Who is there beside a U-proc that is past its V. -/
structure Parting (s : State) : Prop where
  free : ∀ p a c, s.uproc p = some (a, c) → c.signalled = true → ¬ s.Blocked p
  alone : ∀ p a c, s.uproc p = some (a, c) → c.signalled = true →
    ∀ q b d, s.uproc q = some (b, d) → q ≠ p → 3 ≤ p ∧ q = 2 ∧ d.past .swapSemaphore = false
  orphan : 2 < s.nextPid → s.uproc 2 = none → ∀ q, s.uproc q = none

/-- Every occupied frame belongs to a U-proc that has not freed its frames. -/
def Framed (s : State) : Prop :=
  (∀ parent pt, s.proc 1 = some ⟨parent, .test pt⟩ → pt.ready = true) → ∀ i,
    (s.vm.swapPool i).swAsid = -1 ∨ ∃ p a c, s.uproc p = some (a, c) ∧
      (s.vm.swapPool i).swAsid = a.num ∧ c.swept = false

section Moves
variable {a : Asid} {vm vm' : Vm} {c c' : Control} {inp : Input} {svc : Service}

theorem Turn.signals (h : Turn a c c' svc) (hc : c.signalled = false) (hc' : c'.signalled = true) :
    c = .sys2 .signal ∧ ∃ x, svc = .verhogen x := by
  cases h with
  | plain _ hs =>
      rw [hs, hc] at hc'
      exact absurd hc' (by decide)
  | create | ask => exact absurd hc' (by simp [Control.signalled])
  | signal => exact ⟨rfl, _, rfl⟩
  | term => exact absurd hc (by simp [Control.signalled])

/-- The statements of `sys2` after the V. -/
theorem Moves.of_signalled (h : Moves a vm c inp c' vm' svc) (hc : c.signalled = true) :
    c'.signalled = true ∧ (c = .sys2 .passeren ∧ svc = .passeren .swapSemaphore ∨ svc = .none ∨
      svc = .verhogen .swapSemaphore ∨ svc = .term) := by
  cases h with
  | sys2Passeren => exact ⟨rfl, .inl ⟨rfl, rfl⟩⟩
  | sweep => exact ⟨rfl, .inr (.inl rfl)⟩
  | sys2Verhogen => exact ⟨rfl, .inr (.inr (.inl rfl))⟩
  | term => exact ⟨rfl, .inr (.inr (.inr rfl))⟩
  | code | store | refill | fault | trap | terminate | terminal | execute | codePasseren |
    codeVerhogen | cause | causeMod | passeren | setFlag | choose | evictFree | evict | write |
    read | readFailed | clearFlagFailed | verhogenFailed | record | install | clearFlag |
    verhogen | checkHeld | check | releaseMutex | signal | init | create | createFailed |
    sys6Passeren => exact absurd hc (by simp [Control.signalled])

/-- The statements of `sys2` that leave it with its frames freed. -/
theorem Moves.of_swept (h : Moves a vm c inp c' vm' svc) (hc : c'.swept = true) :
    c.swept = true ∧ vm' = vm ∨ vm' = vm.freeSwapFrames a.num := by
  cases h with
  | sweep => exact .inr rfl
  | sys2Verhogen | term => exact .inl ⟨rfl, rfl⟩
  | code | store | refill | fault | trap | terminate | terminal | execute | codePasseren |
    codeVerhogen | cause | causeMod | passeren | setFlag | choose | evictFree | evict | write |
    read | readFailed | clearFlagFailed | verhogenFailed | record | install | clearFlag |
    verhogen | checkHeld | check | releaseMutex | signal | sys2Passeren | init | create |
    createFailed | sys6Passeren => exact absurd hc (by simp [Control.swept, programTrapHandler])

end Moves

namespace Sync
variable {s s' : State} {h : ExecLog} {p q : ℕ} {a b : Asid} {c d : Control} {parent : ℕ}

theorem ready (hs : Sync s h) (hp : s.uproc p = some (a, c)) (parent : ℕ) (pt : TestPoint)
    (ht : s.proc 1 = some ⟨parent, .test pt⟩) : pt.ready = true := by
  obtain ⟨par, hproc⟩ := State.uproc_eq_some.mp hp
  have hlt := hs.bound _ _ hproc
  have hge := hs.ge_two hp
  have hearly : pt.early = false := by
    cases hs.place _ _ ht with
    | test h =>
        rw [Bool.eq_false_iff]
        intro he
        have hn := h.mp he
        omega
  cases pt with
  | initSemaphores | initSwapPool => exact absurd hearly (by decide)
  | init | create | panic | passeren | term => rfl

/-- While a child owes its V, the shell is in EXECUTE. -/
theorem outside (hs : Sync s h) (hE : h.children.length = h.signals.length + 1)
    (hp : s.uproc 2 = some (b, d)) : d.past .swapSemaphore = false := by
  by_cases hq : 2 ∈ (s.sem .shellSemaphore).queue
  · have hu := (hs.queue 2 hq).2
    rw [hp, Option.some.injEq, Prod.mk.injEq] at hu
    rw [hu.2]
    rfl
  · have hask : s.asking ≠ 0 := by
      intro hask
      have hKE := (hs.idle hask hq).2.2
      omega
    rw [State.asking, hp, Option.any_some] at hask
    cases d with
    | sys6 => rfl
    | run | pager | sys2 => exact absurd rfl hask

/-- The shell outside EXECUTE is alone with the children that have done their V. -/
theorem no_children (hs : Sync s h) (hask : s.asking = 0)
    (hq : 2 ∉ (s.sem .shellSemaphore).queue)
    (hnone : ∀ q b d, s.uproc q = some (b, d) → d.signalled = true → q = 2)
    (hp : s.uproc p = some (a, c)) : p = 2 := by
  have hKE := (hs.idle hask hq).2.2
  rcases hs.ge_two hp with h2 | h3
  · exact h2
  · cases hc : c.signalled with
    | true => exact hnone p a c hp hc
    | false =>
        have hE := (hs.last hp h3 hc).2
        omega

end Sync

namespace Parting
variable {s s' : State} {h : ExecLog} {p q : ℕ} {a b : Asid} {c c' d : Control} {parent : ℕ}
  {vm : Vm} {svc : Service} {inp : Input} {vacant : Set Asid} {t : Tally} {pt pt' : TestPoint}

/-- Under the condition, whoever is past its V takes the step. -/
theorem actor (hp : Parting s) (hcond : Unpreempted s (p, inp)) (hq : s.uproc q = some (b, d))
    (hd : d.signalled = true) : q = p :=
  (hcond q b d hq hd (hp.free q b d hq hd)).symm

/-- `test` ends when nobody is left. -/
theorem nobody (hp : Parting s) (hs : Sync s h) (ht : s.proc p = some ⟨parent, .test .term⟩)
    (hb : ¬ s.Blocked p) (hcond : Unpreempted s (p, inp)) : ∀ q, s.uproc q = none := by
  have hlt := hs.bound _ _ ht
  obtain ⟨rfl, hn⟩ : p = 1 ∧ s.nextPid ≠ 2 := by
    cases hs.place _ _ ht with
    | test h => exact ⟨rfl, fun hn => absurd (h.mpr hn) (by decide)⟩
  have hearly := hs.not_early ht hb
  apply hp.orphan
  · omega
  · cases hu : s.uproc 2 with
    | none => rfl
    | some r =>
        exfalso
        apply hearly
        refine .inr ⟨r.1, r.2, hu, ?_⟩
        rw [Bool.eq_false_iff]
        intro hr
        exact absurd (hp.actor hcond hu hr) (by decide)

theorem step_test (hp : Parting s) (hs : Sync s h) (ht : s.proc p = some ⟨parent, .test pt⟩)
    (hb : ¬ s.Blocked p) (hm : TestMoves s.vm pt inp pt' vm svc)
    (hcond : Unpreempted s (p, inp)) :
    Parting ((s.move p ⟨parent, .test pt'⟩ vm).serve p svc) := by
  have hlt := hs.bound _ _ ht
  have hnone : ∀ b d, s.uproc p ≠ some (b, d) := by
    intro b d hu
    obtain ⟨par, hproc⟩ := State.uproc_eq_some.mp hu
    rw [ht] at hproc
    cases hproc
  have hsig : ∀ q b d, ((s.move p ⟨parent, .test pt'⟩ vm).serve p svc).uproc q = some (b, d) →
      d.signalled = false := by
    intro q b d hq
    rcases uproc_after_test hlt hq with ⟨_, hq⟩ | ⟨_, _, rfl⟩
    · rw [Bool.eq_false_iff]
      intro hd
      exact hnone b d (hp.actor hcond hq hd ▸ hq)
    · rfl
  constructor
  · intro q b d hq hd
    rw [hsig q b d hq] at hd
    exact absurd hd (by decide)
  · intro q b d hq hd
    rw [hsig q b d hq] at hd
    exact absurd hd (by decide)
  · intro hn h2 q
    rw [Option.eq_none_iff_forall_ne_some]
    rintro ⟨b, d⟩ hq
    obtain rfl : p = 1 := by
      cases hs.place _ _ ht
      rfl
    by_cases hc : ∃ b, svc = .create b true
    · obtain ⟨b', rfl⟩ := hc
      have hn2 : s.nextPid = 2 := by
        obtain ⟨rfl, _⟩ := hm.of_create
        cases hs.place _ _ ht with
        | test h => exact h.mp rfl
      have hcr : Created s ((s.move 1 ⟨parent, .test pt'⟩ vm).serve 1 (.create b' true)) 1
          ⟨parent, .test pt'⟩ ⟨1, .uproc b' (.run .user)⟩ := created hlt
      have hnew := State.uproc_of_proc hcr.new
      rw [hn2, h2] at hnew
      cases hnew
    · rw [not_exists] at hc
      by_cases hterm : svc = .term
      · subst hterm
        rw [hm.of_term] at ht
        have hnobody := hp.nobody hs ht hb hcond
        rcases uproc_after_test hlt hq with ⟨_, hq⟩ | ⟨hsvc, _⟩
        · rw [hnobody q] at hq
          cases hq
        · cases hsvc
      · have hmv : Moved s ((s.move 1 ⟨parent, .test pt'⟩ vm).serve 1 svc) 1 ⟨parent, .test pt'⟩ :=
          moved hc hterm
        rw [hmv.nextPid] at hn
        rw [hmv.uproc_other (by decide)] at h2
        rcases uproc_after_test hlt hq with ⟨_, hq⟩ | ⟨hsvc, _⟩
        · rw [hp.orphan hn h2 q] at hq
          cases hq
        · exact hc b hsvc

/-- The P of `freeSwapFrames` does not block. -/
theorem passes (hp : Parting s) (hs : Sync s h) (hx : Exclusive s vacant t)
    (hu : s.uproc p = some (a, .sys2 .passeren)) : 0 < (s.sem .swapSemaphore).value := by
  rcases hx.orderly.mutex.value with h0 | ⟨h1, _⟩
  · obtain ⟨q, ⟨r, hr, hpast⟩, _⟩ := hx.owned.owned h0
    exfalso
    obtain ⟨parent, hproc⟩ := State.uproc_eq_some.mp hu
    have hlt := hs.bound _ _ hproc
    have hge := hs.ge_two hu
    obtain ⟨par, body⟩ := r
    cases body with
    | test pt =>
        obtain rfl : q = 1 := by
          cases hs.place _ _ hr
          rfl
        have hready := hs.ready hu par pt hr
        cases pt with
        | initSemaphores | initSwapPool => exact absurd hready (by decide)
        | init | create | panic | passeren | term => exact absurd hpast Bool.false_ne_true
    | uproc b d =>
        have hq := State.uproc_of_proc hr
        by_cases hqp : q = p
        · rw [hqp, hu, Option.some.injEq, Prod.mk.injEq] at hq
          rw [← hq.2] at hpast
          exact absurd hpast Bool.false_ne_true
        · have hd := (hp.alone p a _ hu rfl q b d hq hqp).2.2
          have hpast' : d.past .swapSemaphore = true := hpast
          rw [hd] at hpast'
          exact absurd hpast' (by decide)
  · omega

/-- The steps of a U-proc that is past its V. -/
theorem step_signalled (hp : Parting s) (hs : Sync s h) (hx : Exclusive s vacant t)
    (hproc : s.proc p = some ⟨parent, .uproc a c⟩) (hb : ¬ s.Blocked p)
    (hm : Moves a s.vm c inp c' vm svc) (hc : c.signalled = true) :
    Parting ((s.move p ⟨parent, .uproc a c'⟩ vm).serve p svc) := by
  have hlt := hs.bound _ _ hproc
  have hu := State.uproc_of_proc hproc
  obtain ⟨hc', hsvc⟩ := hm.of_signalled hc
  have hcreate : ∀ b, svc ≠ .create b true := by
    rintro b rfl
    simp at hsvc
  have hkept : ∀ q b d, ((s.move p ⟨parent, .uproc a c'⟩ vm).serve p svc).uproc q = some (b, d) →
      q = p ∧ svc ≠ .term ∨ q ≠ p ∧ s.uproc q = some (b, d) := by
    intro q b d hq
    rcases uproc_after hlt hq with ⟨he, _, _, ht⟩ | hq | ⟨he, _⟩
    · exact .inl ⟨he, ht⟩
    · exact .inr hq
    · exact absurd he (hcreate b)
  have hself : ∀ q b d, ((s.move p ⟨parent, .uproc a c'⟩ vm).serve p svc).uproc q = some (b, d) →
      d.signalled = true → q = p ∧ svc ≠ .term := by
    intro q b d hq hd
    rcases hkept q b d hq with hq | ⟨hne, hq⟩
    · exact hq
    · obtain ⟨h3, rfl, _⟩ := hp.alone p a c hu hc q b d hq hne
      obtain ⟨h3', _⟩ := hp.alone 2 b d hq hd p a c hu (Ne.symm hne)
      omega
  constructor
  · intro q b d hq hd
    obtain ⟨rfl, hterm⟩ := hself q b d hq hd
    rintro ⟨x, hx'⟩
    rcases State.mem_queue_after hx' with ⟨hmem, _⟩ | ⟨_, rfl⟩
    · exact hb ⟨x, hmem⟩
    · obtain ⟨rfl, rfl⟩ : c = .sys2 .passeren ∧ x = .swapSemaphore := by simpa using hsvc
      have hpos := hp.passes hs hx hu
      rw [show ((s.move q ⟨parent, .uproc a c'⟩ vm).serve q (.passeren .swapSemaphore)).sem
        .swapSemaphore = (s.sem .swapSemaphore).passeren q from State.setSem_self,
        Semaphore.passeren, if_pos hpos] at hx'
      exact hb ⟨_, hx'⟩
  · intro q b d hq hd q' b' d' hq' hne
    obtain ⟨rfl, _⟩ := hself q b d hq hd
    rcases hkept q' b' d' hq' with ⟨he, _⟩ | ⟨_, hq'⟩
    · exact absurd he hne
    · exact hp.alone q a c hu hc q' b' d' hq' hne
  · intro hn h2 q
    rw [Option.eq_none_iff_forall_ne_some]
    rintro ⟨b, d⟩ hq
    rcases hkept q b d hq with ⟨rfl, hterm⟩ | ⟨hne, hq'⟩
    · have hmv : Moved s ((s.move q ⟨parent, .uproc a c'⟩ vm).serve q svc) q
          ⟨parent, .uproc a c'⟩ := moved hcreate hterm
      have h2q : 2 ≠ q := by
        rintro rfl
        rw [hq] at h2
        cases h2
      rw [hmv.nextPid] at hn
      rw [hmv.uproc_other h2q] at h2
      rw [hp.orphan hn h2 q] at hu
      cases hu
    · obtain ⟨_, rfl, _⟩ := hp.alone p a c hu hc q b d hq' hne
      rw [hq] at h2
      cases h2

/-- The steps of the U-procs that still owe their V. -/
theorem step_owing (hp : Parting s) (hs : Sync s h)
    (hproc : s.proc p = some ⟨parent, .uproc a c⟩) (hb : ¬ s.Blocked p)
    (hm : Moves a s.vm c inp c' vm svc) (hcond : Unpreempted s (p, inp))
    (hc : c.signalled = false) :
    Parting ((s.move p ⟨parent, .uproc a c'⟩ vm).serve p svc) := by
  have hlt := hs.bound _ _ hproc
  have hu := State.uproc_of_proc hproc
  have hterm : svc ≠ .term := by
    rintro rfl
    rw [hm.of_term.1] at hc
    exact absurd hc (by decide)
  have howing : ∀ q b d, s.uproc q = some (b, d) → d.signalled = false := by
    intro q b d hq
    rw [Bool.eq_false_iff]
    intro hd
    obtain rfl := hp.actor hcond hq hd
    rw [hu, Option.some.injEq, Prod.mk.injEq] at hq
    rw [hq.2, hd] at hc
    exact absurd hc (by decide)
  have hself : ∀ q b d, ((s.move p ⟨parent, .uproc a c'⟩ vm).serve p svc).uproc q = some (b, d) →
      d.signalled = true → q = p ∧ c = .sys2 .signal ∧ ∃ x, svc = .verhogen x := by
    intro q b d hq hd
    rcases uproc_after hlt hq with ⟨he, _, rfl, _⟩ | ⟨_, hq⟩ | ⟨_, _, rfl⟩
    · exact ⟨he, hm.turn.signals hc hd⟩
    · rw [howing q b d hq] at hd
      exact absurd hd (by decide)
    · exact absurd hd (by decide)
  constructor
  · intro q b d hq hd
    obtain ⟨rfl, _, x, rfl⟩ := hself q b d hq hd
    rintro ⟨y, hy⟩
    rcases State.mem_queue_after hy with ⟨hmem, _⟩ | ⟨_, he⟩
    · exact hb ⟨y, hmem⟩
    · cases he
  · intro q b d hq hd q' b' d' hq' hne
    obtain ⟨rfl, rfl, x, rfl⟩ := hself q b d hq hd
    rcases uproc_after hlt hq' with ⟨he, _⟩ | ⟨_, hold⟩ | ⟨he, _⟩
    · exact absurd he hne
    · rcases hs.ge_two hu with rfl | h3
      · have hask : s.asking = 0 := by
          rw [State.asking, hu]
          rfl
        have hE := (hs.idle hask fun hq => hb ⟨_, hq⟩).2.2
        rcases hs.ge_two hold with he | h3'
        · exact absurd he hne
        · have hlast := (hs.last hold h3' (howing _ _ _ hold)).2
          omega
      · obtain ⟨hpe, hE⟩ := hs.last hu h3 rfl
        rcases hs.ge_two hold with rfl | h3'
        · exact ⟨h3, rfl, hs.outside hE hold⟩
        · have hlast := (hs.last hold h3' (howing _ _ _ hold)).1
          exact absurd (hlast.trans hpe.symm) hne
    · cases he
  · intro hn h2 q
    have hp2 : 2 ≠ p := by
      rintro rfl
      rw [State.uproc, State.proc_self (Nat.ne_of_lt hlt) hterm] at h2
      cases h2
    have hn2 : 2 < s.nextPid := by
      have hge := hs.ge_two hu
      omega
    have h2' : s.uproc 2 = none := by
      rw [← h2]
      exact (uproc_congr (State.proc_keep (by omega) hp2 fun he => absurd he hterm)).symm
    rw [hp.orphan hn2 h2' p] at hu
    cases hu

theorem step (hp : Parting s) (hs : Sync s h) (hx : Exclusive s vacant t)
    (hst : Steps s p inp s') (hcond : Unpreempted s (p, inp)) : Parting s' := by
  cases hst with
  | test ht hb _ hm => exact hp.step_test hs ht hb hm hcond
  | @uproc parent a c c' vm svc hproc hb _ hm =>
      cases hc : c.signalled with
      | true => exact hp.step_signalled hs hx hproc hb hm hc
      | false => exact hp.step_owing hs hproc hb hm hcond hc

/-- The shell outside EXECUTE is the only U-proc. -/
theorem only_shell (hp : Parting s) (hs : Sync s h) (hcond : Unpreempted s (2, inp))
    (hu : s.uproc 2 = some (a, c)) (hb : ¬ s.Blocked 2) (hask : c.asking = false)
    (hq : s.uproc q = some (b, d)) : q = 2 := by
  apply hs.no_children _ (fun hq => hb ⟨_, hq⟩) (fun q b d hq hd => hp.actor hcond hq hd) hq
  rw [State.asking, hu, Option.any_some, hask]
  rfl

/-- `createUProc` is given an ASID that no U-proc has. -/
theorem prepares (hp : Parting s) (hs : Sync s h) (hx : Exclusive s vacant t)
    (hst : Steps s p inp s') (hcond : Unpreempted s (p, inp)) (b : Asid)
    (hprep : s.prepares p = some b) : b ∈ vacant := by
  by_contra hv
  obtain ⟨q, d, hq⟩ := hx.alive b hv
  cases hst with
  | @test parent pt pt' vm svc ht hb _ _ =>
      have hearly : pt.early = true := by
        cases pt with
        | init | create => rfl
        | initSemaphores | initSwapPool | panic | passeren | term =>
            simp [State.prepares, ht] at hprep
      have hn : s.nextPid = 2 := by
        cases hs.place _ _ ht with
        | test h => exact h.mp hearly
      obtain ⟨par, hproc⟩ := State.uproc_eq_some.mp hq
      have hlt := hs.bound _ _ hproc
      have hge := hs.ge_two hq
      omega
  | @uproc parent a c c' vm svc hproc hb _ _ =>
      have hu := State.uproc_of_proc hproc
      cases c with
      | run | pager | sys2 => simp [State.prepares, hproc] at hprep
      | sys6 child pt =>
          obtain ⟨rfl, hask⟩ : child = b ∧ (Control.sys6 child pt).asking = false := by
            cases pt with
            | init | create =>
                simp only [State.prepares, hproc, Option.bind_some, Option.some.injEq] at hprep
                exact ⟨hprep, rfl⟩
            | passeren => simp [State.prepares, hproc] at hprep
          cases hs.place _ _ hproc with
          | child _ _ h => exact h child pt rfl
          | shell h =>
              obtain rfl := hp.only_shell hs hcond hu hb hask hq
              rw [hu, Option.some.injEq, Prod.mk.injEq] at hq
              exact h child pt rfl hq.1.symm

/-- Nobody who ends has children. -/
theorem childless (hp : Parting s) (hs : Sync s h) (hst : Steps s p inp s')
    (hcond : Unpreempted s (p, inp)) (hterm : s.service (p, inp) = .term) (q : ℕ) (r : Proc)
    (hq : s.proc q = some r) : r.parent ≠ p := by
  cases hst with
  | @test parent pt pt' vm svc ht hb hsvc hm =>
      rw [hsvc] at hterm
      subst hterm
      rw [hm.of_term] at ht
      have hnobody := hp.nobody hs ht hb hcond
      have hproc : ∀ q par b d, s.proc q ≠ some ⟨par, .uproc b d⟩ := by
        intro q par b d hq
        have hu := State.uproc_of_proc hq
        rw [hnobody q] at hu
        cases hu
      obtain rfl : p = 1 := by
        cases hs.place _ _ ht
        rfl
      cases hs.place q r hq with
      | test => exact Nat.zero_ne_one
      | shell | child => exact absurd hq (hproc _ _ _ _)
  | @uproc parent a c c' vm svc hproc hb hsvc hm =>
      rw [hsvc] at hterm
      subst hterm
      obtain ⟨rfl, _⟩ := hm.of_term
      have hu := State.uproc_of_proc hproc
      rcases hs.ge_two hu with rfl | h3
      · cases hs.place q r hq with
        | test => exact Nat.zero_ne_add_one 1
        | shell => exact Nat.ne_of_lt (Nat.lt_succ_self 1)
        | child h3 =>
            have halone := (hp.alone 2 a _ hu rfl q _ _ (State.uproc_of_proc hq) (by omega)).1
            omega
      · exact hs.childless h3 q r hq

end Parting

section Frames
variable {s s' : State} {h : ExecLog} {p q : ℕ} {a b : Asid} {c c' d : Control} {parent : ℕ}
  {vm : Vm} {svc : Service} {inp : Input} {vacant : Set Asid} {t : Tally} {pt pt' : TestPoint}

theorem Framed.step_uproc (hf : Framed s) (hs : Sync s h)
    (hproc : s.proc p = some ⟨parent, .uproc a c⟩) (hm : Moves a s.vm c inp c' vm svc)
    (halone : svc = .term → ∀ q r, s.proc q = some r → r.parent ≠ p) :
    Framed ((s.move p ⟨parent, .uproc a c'⟩ vm).serve p svc) := by
  have hlt := hs.bound _ _ hproc
  have hu := State.uproc_of_proc hproc
  have hother : ∀ q, q ≠ p → q ≠ s.nextPid →
      ((s.move p ⟨parent, .uproc a c'⟩ vm).serve p svc).proc q = s.proc q := fun q hq hqn =>
    proc_keep_alone hproc (by rfl) hq hqn halone
  have hkeep : ∀ q b d, q ≠ p → s.uproc q = some (b, d) →
      ((s.move p ⟨parent, .uproc a c'⟩ vm).serve p svc).uproc q = some (b, d) := by
    intro q b d hqp hq
    obtain ⟨par, hq'⟩ := State.uproc_eq_some.mp hq
    rw [uproc_congr (hother q hqp (Nat.ne_of_lt (hs.bound q _ hq'))), hq]
  intro hready i
  have hp1 : 1 ≠ p := by
    have hge := hs.ge_two hu
    omega
  have hready₀ : ∀ parent pt, s.proc 1 = some ⟨parent, .test pt⟩ → pt.ready = true := by
    have hn1 : 1 ≠ s.nextPid := by
      have hge := hs.ge_two hu
      omega
    rw [hother 1 hp1 hn1] at hready
    exact hready
  rw [State.serve_vm, State.move_vm]
  cases hc' : c'.swept with
  | true =>
      rcases hm.of_swept hc' with ⟨hc, rfl⟩ | rfl
      · rcases hf hready₀ i with hfree | ⟨q, b, d, hq, hi, hd⟩
        · exact .inl hfree
        · have hqp : q ≠ p := by
            rintro rfl
            rw [hu, Option.some.injEq, Prod.mk.injEq] at hq
            rw [hq.2, hd] at hc
            exact absurd hc (by decide)
          exact .inr ⟨q, b, d, hkeep q b d hqp hq, hi, hd⟩
      · rw [Coherent.sweep_swapPool]
        split
        · exact .inl rfl
        · next hne =>
          rcases hf hready₀ i with hfree | ⟨q, b, d, hq, hi, hd⟩
          · exact .inl hfree
          · have hqp : q ≠ p := by
              rintro rfl
              rw [hu, Option.some.injEq, Prod.mk.injEq] at hq
              exact hne (hi.trans (congrArg Asid.num hq.1.symm))
            exact .inr ⟨q, b, d, hkeep q b d hqp hq, hi, hd⟩
  | false =>
      have hterm : svc ≠ .term := by
        rintro rfl
        rw [hm.of_term.2] at hc'
        exact absurd hc' (by decide)
      have hself : ((s.move p ⟨parent, .uproc a c'⟩ vm).serve p svc).uproc p = some (a, c') :=
        State.uproc_of_proc (State.proc_self (Nat.ne_of_lt hlt) hterm)
      rcases hm.changes.swAsid i with hsame | hown | hfree
      · rw [hsame]
        rcases hf hready₀ i with hfree | ⟨q, b, d, hq, hi, hd⟩
        · exact .inl hfree
        · right
          by_cases hqp : q = p
          · subst hqp
            rw [hu, Option.some.injEq, Prod.mk.injEq] at hq
            exact ⟨q, a, c', hself, hi.trans (congrArg Asid.num hq.1.symm), hc'⟩
          · exact ⟨q, b, d, hkeep q b d hqp hq, hi, hd⟩
      · exact .inr ⟨p, a, c', hself, hown, hc'⟩
      · exact .inl hfree

theorem Framed.step_test (hf : Framed s) (hs : Sync s h)
    (ht : s.proc p = some ⟨parent, .test pt⟩) (hm : TestMoves s.vm pt inp pt' vm svc)
    (hnobody : svc = .term → ∀ q, s.uproc q = none) :
    Framed ((s.move p ⟨parent, .test pt'⟩ vm).serve p svc) := by
  have hlt := hs.bound _ _ ht
  obtain rfl : p = 1 := by
    cases hs.place _ _ ht
    rfl
  have hkeep : vm.swapPool = s.vm.swapPool → pt.ready = true → svc ≠ .term →
      Framed ((s.move 1 ⟨parent, .test pt'⟩ vm).serve 1 svc) := by
    intro hvm hpt hterm _ i
    have hready : ∀ parent pt, s.proc 1 = some ⟨parent, .test pt⟩ → pt.ready = true := by
      intro par pt₀ ht₀
      rw [ht, Option.some.injEq, Proc.mk.injEq, Body.test.injEq] at ht₀
      exact ht₀.2 ▸ hpt
    rw [State.serve_vm, State.move_vm, hvm]
    rcases hf hready i with hfree | ⟨q, b, d, hq, hi, hd⟩
    · exact .inl hfree
    · obtain ⟨par, hq'⟩ := State.uproc_eq_some.mp hq
      have hq1 : q ≠ 1 := by
        have hge := hs.ge_two hq
        omega
      refine .inr ⟨q, b, d, ?_, hi, hd⟩
      rw [uproc_congr (State.proc_keep (Nat.ne_of_lt (hs.bound q _ hq')) hq1
        fun he => absurd he hterm), hq]
  cases hm with
  | initSemaphores =>
      intro hready
      have hmv : Moved s ((s.move 1 ⟨parent, .test .initSwapPool⟩ s.vm).serve 1 .initSemaphores) 1
          ⟨parent, .test .initSwapPool⟩ := moved (by simp) (by simp)
      exact absurd (hready _ _ hmv.self) (by decide)
  | initSwapPool => exact fun _ i => .inl rfl
  | init | create | createFailed | passeren => exact hkeep rfl rfl (by simp)
  | term =>
      have hready : ∀ parent pt, s.proc 1 = some ⟨parent, .test pt⟩ → pt.ready = true := by
        intro par pt₀ ht₀
        rw [ht, Option.some.injEq, Proc.mk.injEq, Body.test.injEq] at ht₀
        exact ht₀.2 ▸ rfl
      intro _ i
      rcases hf hready i with hfree | ⟨q, b, d, hq, _⟩
      · exact .inl hfree
      · rw [hnobody rfl q] at hq
        cases hq

end Frames

/-- What holds in every run in which no U-proc is preempted past its V. -/
def Tidy (s : State) : Prop :=
  ∃ h vacant t, Sync s h ∧ Exclusive s vacant t ∧ Parting s ∧ Framed s

section Run
variable {s s' : State} {p : ℕ} {inp : Input}

theorem Tidy.step (ht : Tidy s) (hst : Steps s p inp s') (hcond : Unpreempted s (p, inp)) :
    Tidy s' := by
  obtain ⟨h, vacant, t, hs, hx, hp, hf⟩ := ht
  have halone := hp.childless hs hst hcond
  refine ⟨_, _, _, hs.step hst, hx.step hst (hp.prepares hs hx hst hcond) halone,
    hp.step hs hx hst hcond, ?_⟩
  cases hst with
  | test htest hb hsvc hm =>
      apply hf.step_test hs htest hm
      rintro rfl
      rw [hm.of_term] at htest
      exact hp.nobody hs htest hb hcond
  | uproc hproc _ hsvc hm =>
      apply hf.step_uproc hs hproc hm
      rintro rfl
      exact halone hsvc

theorem Boot.tidy (hs : Boot s) : Tidy s := by
  refine ⟨_, _, _, hs.sync, hs.exclusive, ⟨?_, ?_, ?_⟩, ?_⟩
  · exact fun p a c hp => absurd hp (hs.uproc_ne p a c)
  · exact fun p a c hp => absurd hp (hs.uproc_ne p a c)
  · intro hn
    rw [hs.nextPid] at hn
    exact absurd hn (lt_irrefl 2)
  · intro hready
    have hself : s.proc 1 = some ⟨0, .test .initSemaphores⟩ := by
      rw [hs.proc]
      exact Function.update_self ..
    exact absurd (hready _ _ hself) (by decide)

theorem Steps.not_blocked (hst : Steps s p inp s') : ¬ s.Blocked p := by
  cases hst with
  | test _ hb | uproc _ hb => exact hb

theorem Tidy.orderlyEnd (ht : Tidy s) : OrderlyEnd ((system Boot).restrict Unpreempted) s := by
  obtain ⟨h, vacant, t, hs, hx, hp, hf⟩ := ht
  constructor
  · intro e s' p a c hstep hu hc
    exact (hp.actor hstep.1 hu hc).symm
  · intro e s' code hstep hu
    obtain ⟨p, inp⟩ := e
    obtain rfl := hs.eq_two hu
    have hb := (State.steps_of_exec hstep.2).not_blocked
    have honly : ∀ q b d, s.uproc q = some (b, d) → b = shellIdx := by
      intro q b d hq
      obtain rfl := hp.only_shell hs hstep.1 hu hb rfl hq
      rw [hu, Option.some.injEq, Prod.mk.injEq] at hq
      exact hq.1.symm
    refine ⟨honly, fun i => ?_⟩
    rcases hf (hs.ready hu) i with hfree | ⟨q, b, d, hq, hi, _⟩
    · exact .inl hfree
    · exact .inr (hi.trans (congrArg Asid.num (honly q b d hq)))
  · intro e s' parent hstep ht
    obtain ⟨p, inp⟩ := e
    have hsteps := State.steps_of_exec hstep.2
    have hnobody := hp.nobody hs ht hsteps.not_blocked hstep.1
    have hlt := hs.bound _ _ ht
    obtain rfl : p = 1 := by
      cases hs.place _ _ ht
      rfl
    refine ⟨hnobody, fun i => ?_, fun q => ?_⟩
    · have hready : ∀ parent pt, s.proc 1 = some ⟨parent, .test pt⟩ → pt.ready = true := by
        intro par pt₀ ht₀
        rw [ht, Option.some.injEq, Proc.mk.injEq, Body.test.injEq] at ht₀
        exact ht₀.2 ▸ rfl
      rcases hf hready i with hfree | ⟨q, b, d, hq, _⟩
      · exact hfree
      · rw [hnobody q] at hq
        cases hq
    · rw [Option.eq_none_iff_forall_ne_some]
      rintro ⟨b, d⟩ hq
      cases hsteps with
      | uproc hproc =>
          rw [ht] at hproc
          cases hproc
      | test htest _ _ hm =>
          rw [ht, Option.some.injEq, Proc.mk.injEq, Body.test.injEq] at htest
          obtain ⟨_, rfl⟩ := htest
          cases hm
          rcases uproc_after_test hlt hq with ⟨_, hq⟩ | ⟨he, _⟩
          · rw [hnobody q] at hq
            cases hq
          · cases he
  · exact hx.orderly.distinct

theorem tidy_reachable (h : ((system Boot).restrict Unpreempted).Reachable s) : Tidy s :=
  h.invariant (fun _ hs => hs.tidy) fun _ _ _ _ ih hs => ih.step (State.steps_of_exec hs.2) hs.1

/-- In every run in which no U-proc is preempted between its V in `sys2` and its
TERMPROCESS, the U-procs end in order. -/
theorem orderly_end (h : ((system Boot).restrict Unpreempted).Reachable s) :
    OrderlyEnd ((system Boot).restrict Unpreempted) s :=
  (tidy_reachable h).orderlyEnd

/-- The condition, as a check of the U-procs there are. -/
def unpreempted (s : State) (e : Event) : Bool :=
  (List.range s.nextPid).all fun p =>
    (s.uproc p).all fun r => !r.2.signalled || decide (s.Blocked p) || e.1 == p

theorem Tidy.unpreempted {e : Event} (ht : Tidy s) (h : unpreempted s e = true) :
    Unpreempted s e := by
  intro p a c hu hc hb
  obtain ⟨_, _, _, hs, _⟩ := ht
  obtain ⟨parent, hproc⟩ := State.uproc_eq_some.mp hu
  have hmem := List.all_eq_true.mp h p (List.mem_range.mpr (hs.bound p _ hproc))
  simpa [hu, hc, hb] using hmem

theorem unpreempted_run {es : List Event}
    (hs : ((system Boot).restrict Unpreempted).Reachable s) (h : s.run unpreempted es = some s') :
    ((system Boot).restrict Unpreempted).Reachable s' := by
  induction es generalizing s with
  | nil =>
      simp only [State.run, Option.some.injEq] at h
      exact h ▸ hs
  | cons e es ih =>
      simp only [State.run] at h
      split at h
      · next hok =>
        simp only [Option.bind_eq_some_iff] at h
        obtain ⟨s₁, h1, h2⟩ := h
        exact ih (hs.step ⟨(tidy_reachable hs).unpreempted hok, h1⟩) h2
      · exact absurd h (by simp)

end Run

/-- The shell executes the program 2, ends, and `test` ends. -/
theorem orderly_end_all : ∃ s, (bootState fun _ _ _ => 0).run unpreempted
    (executeEvents ++ terminateEvents 3 ++ terminateEvents 2 ++ [(1, .go)]) = some s ∧
      OrderlyEnd ((system Boot).restrict Unpreempted) s := by
  have hsome : ((bootState fun _ _ _ => 0).run unpreempted
      (executeEvents ++ terminateEvents 3 ++ terminateEvents 2 ++ [(1, .go)])).isSome = true := by
    decide
  obtain ⟨s, hs⟩ := Option.isSome_iff_exists.mp hsome
  exact ⟨s, hs, orderly_end (unpreempted_run (.init (bootState_boot _)) hs)⟩

/-- The timer expires when the child has done its V: the shell executes the program 2
once more. -/
def preemptedEvents : List Event :=
  executeEvents ++ [(3, .syscall 2 0 0), (3, .go), (3, .go)] ++
    [(2, .syscall 6 2 0), (2, .go), (2, .created true)]

/-- Two live processes share an ASID. -/
theorem orderly_end_preempted : ∃ s, (system Boot).Reachable s ∧
    s.uproc 3 = some (1, .sys2 .passeren) ∧ s.uproc 4 = some (1, .run .user) ∧
      ¬ OrderlyEnd (system Boot) s := by
  have hany : ((bootState fun _ _ _ => 0).run (fun _ _ => true) preemptedEvents).any (fun s =>
      s.uproc 3 == some (1, .sys2 .passeren) && s.uproc 4 == some (1, .run .user)) = true := by
    decide
  obtain ⟨s, hrun, hcheck⟩ := (Option.any_eq_true _ _).mp hany
  simp only [Bool.and_eq_true, beq_iff_eq] at hcheck
  refine ⟨s, State.run_reachable (.init (bootState_boot _)) hrun, hcheck.1, hcheck.2, fun h => ?_⟩
  exact absurd (h.distinct 3 4 1 _ _ hcheck.1 hcheck.2) (by decide)

end PandOSsh.SupportLevel
