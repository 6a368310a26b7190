import PandOSsh.SupportLevel.Leaks
import PandOSsh.SupportLevel.Termination

/-!
# No deadlock (initProc.c, syscalls.c, vmSupport.c)

Who is inside the Swap Pool waits for nobody; who has a semaphore of the terminal
waits at most for the Swap Pool, when its buffer faults; the shell waits for its
child and the Instantiator for the shell. As long as the terminal calls give their
semaphores back, every wait is for somebody who is there, and ends at a process
that can go on.
-/

namespace PandOSsh.SupportLevel
open Library

namespace State
variable (s : State)

/-- The process p has requested a P that is not completed. -/
def Waits (p : ℕ) (x : Sem) : Prop := p ∈ (s.sem x).queue

/-- The next V on the semaphore is up to q. -/
def Owes (q : ℕ) : Sem → Prop
  | .masterSemaphore => ∃ c, s.uproc q = some (shellIdx, c) ∧ c.signalled = false
  | .shellSemaphore => ∃ a c, s.uproc q = some (a, c) ∧ a ≠ shellIdx ∧ c.signalled = false
  | x => (s.sem x).Holds (s.past x) q

/-- The process has a step. -/
def CanGoOn (p : ℕ) : Prop := ∃ inp s', s.exec p inp = some s'

end State

/-- The order in which the semaphores are waited for. -/
def Sem.level : Sem → ℕ
  | .swapSemaphore => 0
  | .termWriteSemaphore | .termReadSemaphore => 1
  | .shellSemaphore => 2
  | .masterSemaphore => 3

/-- Every wait is for somebody, and the system goes on until no process is left, or
until `test` has panicked because it could not create the shell. -/
structure Progressing (s : State) : Prop where
  waits : ∀ p x, s.Waits p x → ∃ q, Relation.TransGen (WaitsFor s.Waits s.Owes) p q ∧ s.CanGoOn q
  goesOn : ∀ p r, s.proc p = some r →
    (∃ parent, s.proc 1 = some ⟨parent, .test .panic⟩) ∨ ∃ q, s.CanGoOn q

/-- The semaphores that processes hold between a P and a V. -/
def Sem.Held (x : Sem) : Prop := x = .swapSemaphore ∨ x.OfTerminal

section Moves
variable {a : Asid} {vm vm' : Vm} {c c' : Control} {inp : Input} {svc : Service} {x : Sem}

/-- A U-proc that waits for a semaphore holds no other, but for the Swap Pool. -/
theorem Moves.waits (h : Moves a vm c inp c' vm' (.passeren x)) {y : Sem}
    (hy : c'.past y = true) : y = x ∨ x = .swapSemaphore := by
  cases h with
  | codePasseren _ _ hp =>
      rw [Control.past, hp, beq_iff_eq] at hy
      exact .inl hy
  | passeren | sys2Passeren => exact .inr rfl
  | sys6Passeren => exact absurd hy Bool.false_ne_true

theorem TestMoves.past_terminal {pt pt' : TestPoint} (hx : x.OfTerminal)
    (h : TestMoves vm pt inp pt' vm' svc) (hi : svc ≠ .initSemaphores) :
    State.Crosses x svc (pt.past x) (pt'.past x) := by
  have hswap := hx.ne.1
  have hmaster := hx.ne.2.1
  have hpast : ∀ pt : TestPoint, pt ≠ .initSemaphores → pt.past x = false := by
    intro pt hne
    rcases hx with rfl | rfl <;> cases pt <;> first | rfl | exact absurd rfl hne
  cases h with
  | initSemaphores => exact absurd rfl hi
  | initSwapPool =>
      rw [hpast _ (by simp), hpast _ (by simp)]
      exact .stays (by simp) (by simpa using hswap.symm) (by simp)
  | passeren =>
      rw [hpast _ (by simp), hpast _ (by simp)]
      exact .stays (by simpa using hmaster.symm) (by simp) (by simp)
  | init | create | createFailed =>
      rw [hpast _ (by simp), hpast _ (by simp)]
      exact .stays (by simp) (by simp) (by simp)
  | term => exact .stays (by simp) (by simp) (by simp)

/-- The access of a terminal call to its buffer is made, or raises an exception. -/
theorem runStep_isSome {code : Code} (va : Word) (ht : code.touches va = true)
    (hgo : ∀ lo, vm.tlb (accessHI a va) = some lo → isValid lo = true → isDirty lo = true →
      (codeStep a vm code .go).isSome) : ∃ inp, (runStep a vm code inp).isSome := by
  cases htlb : vm.tlb (accessHI a va) with
  | none =>
      refine ⟨.refill va none, ?_⟩
      rw [runStep, refillStep, ht, htlb]
      rfl
  | some lo =>
      cases hv : isValid lo with
      | false =>
          refine ⟨.fault va false, ?_⟩
          simp [runStep, faultStep, ht, Vm.pageFaults, htlb, hv]
      | true =>
          cases hd : isDirty lo with
          | false =>
              refine ⟨.fault va true, ?_⟩
              rw [runStep, faultStep, ht]
              rfl
          | true => exact ⟨.go, hgo lo htlb hv hd⟩

/-- A U-proc is never stuck at a statement. -/
theorem next_isSome (a : Asid) (vm : Vm) (c : Control) : ∃ inp, (next a vm c inp).isSome := by
  cases c with
  | run code =>
      cases code with
      | user => exact ⟨.syscall 2 0 0, rfl⟩
      | writeTerminal str len pt =>
          cases pt with
          | passeren | verhogen => exact ⟨.go, rfl⟩
          | load i =>
              apply runStep_isSome (str + BitVec.ofNat 32 i)
              · simp [Code.touches]
              · intro lo htlb hv _
                simp [codeStep, writeTerminalStep, Input.onGo, Vm.load, htlb, hv]
          | transmit => exact ⟨.status 0, rfl⟩
      | readTerminal buf pt =>
          cases pt with
          | passeren | verhogen => exact ⟨.go, rfl⟩
          | receive => exact ⟨.status 0, rfl⟩
          | store received ch =>
              by_cases hn : (received : ℤ) < maxStrLeng
              · apply runStep_isSome (buf + BitVec.ofNat 32 received)
                · simp [Code.touches, hn]
                · intro lo htlb hv hd
                  simp [codeStep, readTerminalStep, Input.onGo, Vm.store, htlb, hv, hd, hn]
              · refine ⟨.go, ?_⟩
                simp [next, runStep, codeStep, readTerminalStep, Input.onGo, hn]
  | pager hi back pt =>
      cases pt with
      | write | read => exact ⟨.status 0, rfl⟩
      | cause | passeren | setFlag | choose | evict | clearFlagFailed | verhogenFailed | record |
        install | clearFlag | verhogen => exact ⟨.go, rfl⟩
  | sys2 pt => cases pt <;> exact ⟨.go, rfl⟩
  | sys6 child pt =>
      cases pt with
      | create => exact ⟨.created false, rfl⟩
      | init | passeren => exact ⟨.go, rfl⟩

end Moves

/-- The V of the shell on `masterSemaphore` is still to come. -/
def State.ShellOwes (s : State) : Prop := s.Owes 2 .masterSemaphore

/-- The shell is not yet there, or lives. -/
def State.InUse (s : State) : Prop := s.nextPid = 2 ∨ ∃ d, s.uproc 2 = some (shellIdx, d)

/-- The Instantiator waits for a shell that owes its V. -/
structure Awaited (s : State) : Prop where
  queue : (s.sem .masterSemaphore).queue = [] ∨ (s.sem .masterSemaphore).queue = [1] ∧
    (∃ parent, s.proc 1 = some ⟨parent, .test .term⟩) ∧ s.ShellOwes
  value : 0 ≤ (s.sem .masterSemaphore).value
  passeren : ∀ parent, s.proc 1 = some ⟨parent, .test .passeren⟩ →
    0 < (s.sem .masterSemaphore).value ∨ s.ShellOwes

/-- Who waits, and whom for. -/
structure Attended (s : State) : Prop where
  waiting : ∀ x, x ≠ .masterSemaphore → ∀ p ∈ (s.sem x).queue,
    ∃ a c, s.uproc p = some (a, c) ∧ ∀ y, c.past y = true → y = x ∨ x = .swapSemaphore
  awaited : Awaited s
  orphan : ∀ p a c, s.uproc p = some (a, c) → ∃ d, s.uproc 2 = some (shellIdx, d)
  owned : ∀ x : Sem, x.Held → s.InUse → (s.sem x).Owned (s.past x)

section Step
variable {s s' : State} {h : ExecLog} {t : Tally} {p q : ℕ} {a b : Asid} {c c' d : Control}
  {parent : ℕ} {inp : Input} {vm : Vm} {svc : Service} {x : Sem} {pt pt' : TestPoint}

theorem Place.pos {n : ℕ} {r : Proc} (h : Place n p r) : 1 ≤ p := by
  cases h with
  | test | shell => decide
  | child h3 => omega

/-- What the shell owes stays owed until it does its V. -/
theorem Sync.shellOwes_after (hs : Sync s h) (hst : Steps s p inp s') (ho : s.ShellOwes) :
    s'.ShellOwes ∨ p = 2 ∧ s.service (p, inp) = .verhogen .masterSemaphore := by
  obtain ⟨c, hu, hc⟩ := ho
  by_cases hp : 2 = p
  · subst hp
    cases hst with
    | test ht =>
        rw [State.uproc, ht] at hu
        cases hu
    | @uproc parent a c₀ c' vm svc hproc hb hsvc hm =>
        rw [State.uproc_of_proc hproc, Option.some.injEq, Prod.mk.injEq] at hu
        obtain ⟨rfl, rfl⟩ := hu
        have hterm : svc ≠ .term := by
          rintro rfl
          rw [hm.of_term.1] at hc
          exact absurd hc (by decide)
        cases hc' : c'.signalled with
        | false =>
            exact .inl ⟨c', State.uproc_of_proc (State.proc_self
              (Nat.ne_of_lt (hs.bound _ _ hproc)) hterm), hc'⟩
        | true =>
            obtain ⟨rfl, -⟩ := hm.turn.signals hc hc'
            refine .inr ⟨rfl, hsvc.trans ?_⟩
            cases hm with
            | signal => rfl
  · exact .inl ⟨c, hs.survives hst hu hc hp, hc⟩

/-- Whoever owes the last V on `masterSemaphore` is not at the end of `sys2`. -/
theorem State.not_shellOwes (hu : s.uproc 2 = some (a, c)) (hc : c.signalled = true) :
    ¬ s.ShellOwes := by
  rintro ⟨d, hd, hdf⟩
  rw [hu, Option.some.injEq, Prod.mk.injEq] at hd
  rw [← hd.2, hc] at hdf
  exact absurd hdf (by decide)

namespace Awaited

/-- A step that leaves the Instantiator, `masterSemaphore` and what the shell owes alone. -/
theorem congr (ha : Awaited s) (h1 : s'.proc 1 = s.proc 1)
    (hsem : s'.sem .masterSemaphore = s.sem .masterSemaphore)
    (ho : s.ShellOwes → s'.ShellOwes) : Awaited s' where
  queue := by
    rw [hsem, h1]
    exact ha.queue.imp id fun h => ⟨h.1, h.2.1, ho h.2.2⟩
  value := hsem ▸ ha.value
  passeren := by
    rw [hsem, h1]
    exact fun parent hp => (ha.passeren parent hp).imp id ho

/-- While the Instantiator is not at its end, it does not wait. -/
theorem queue_nil (ha : Awaited s) (hp : s.proc 1 = some ⟨parent, .test pt⟩) (hpt : pt ≠ .term) :
    (s.sem .masterSemaphore).queue = [] := by
  rcases ha.queue with hnil | ⟨-, ⟨parent', hp'⟩, -⟩
  · exact hnil
  · rw [hp, Option.some.injEq, Proc.mk.injEq, Body.test.injEq] at hp'
    exact absurd hp'.2 hpt

/-- The Instantiator is at a statement at which nothing is required of the shell. -/
theorem of_queue_nil (hq : (s'.sem .masterSemaphore).queue = [])
    (hv : 0 ≤ (s'.sem .masterSemaphore).value)
    (hp : ∀ parent, s'.proc 1 ≠ some ⟨parent, .test .passeren⟩) : Awaited s' :=
  ⟨.inl hq, hv, fun parent h => absurd h (hp parent)⟩

theorem step_test (ha : Awaited s) (hs : Sync s h) (hp : s.proc p = some ⟨parent, .test pt⟩)
    (hb : ¬ s.Blocked p) (hm : TestMoves s.vm pt inp pt' vm svc) :
    Awaited ((s.move p ⟨parent, .test pt'⟩ vm).serve p svc) := by
  have hlt := hs.bound _ _ hp
  obtain ⟨rfl, hn⟩ : p = 1 ∧ (pt.early = true ↔ s.nextPid = 2) := by
    cases hs.place _ _ hp with
    | test h => exact ⟨rfl, h⟩
  have hself : ∀ svc, svc ≠ .term →
      ((s.move 1 ⟨parent, .test pt'⟩ vm).serve 1 svc).proc 1 = some ⟨parent, .test pt'⟩ :=
    fun svc hterm => State.proc_self (Nat.ne_of_lt hlt) hterm
  have hnot : ∀ svc, svc ≠ .term → pt' ≠ .passeren → ∀ par,
      ((s.move 1 ⟨parent, .test pt'⟩ vm).serve 1 svc).proc 1 ≠ some ⟨par, .test .passeren⟩ := by
    intro svc hterm hpt' par he
    rw [hself svc hterm, Option.some.injEq, Proc.mk.injEq, Body.test.injEq] at he
    exact hpt' he.2
  cases hm with
  | initSemaphores =>
      exact of_queue_nil (ha.queue_nil hp (by simp)) (le_refl _) (hnot _ (by simp) (by simp))
  | initSwapPool | init | createFailed =>
      exact of_queue_nil (ha.queue_nil hp (by simp)) ha.value (hnot _ (by simp) (by simp))
  | create =>
      refine ⟨.inl (ha.queue_nil hp (by simp)), ha.value, fun _ _ => .inr ⟨.run .user, ?_, rfl⟩⟩
      have hc : Created s ((s.move 1 ⟨parent, .test .passeren⟩ s.vm).serve 1
          (.create shellIdx true)) 1 ⟨parent, .test .passeren⟩ ⟨1, .uproc shellIdx (.run .user)⟩ :=
        created hlt
      have hnew := hc.new
      rw [hn.mp rfl] at hnew
      exact State.uproc_of_proc hnew
  | passeren =>
      have hnil := ha.queue_nil hp (by simp)
      have hsem : ((s.move 1 ⟨parent, .test .term⟩ s.vm).serve 1 (.passeren .masterSemaphore)).sem
          .masterSemaphore = (s.sem .masterSemaphore).passeren 1 := State.setSem_self
      have hv := ha.value
      by_cases hpos : 0 < (s.sem .masterSemaphore).value
      · rw [Semaphore.passeren, if_pos hpos] at hsem
        apply of_queue_nil
        · rw [hsem, hnil]
        · rw [hsem]
          change 0 ≤ (s.sem .masterSemaphore).value - 1
          omega
        · exact hnot _ (by simp) (by simp)
      · rw [Semaphore.passeren, if_neg hpos, hnil] at hsem
        have howes : s.ShellOwes := (ha.passeren parent hp).resolve_left hpos
        have howes' : ((s.move 1 ⟨parent, .test .term⟩ s.vm).serve 1
            (.passeren .masterSemaphore)).ShellOwes := by
          obtain ⟨d, hd, hdf⟩ := howes
          obtain ⟨par, hd'⟩ := State.uproc_eq_some.mp hd
          have hkeep : ((s.move 1 ⟨parent, .test .term⟩ s.vm).serve 1
              (.passeren .masterSemaphore)).proc 2 = s.proc 2 :=
            State.proc_keep (Nat.ne_of_lt (hs.bound _ _ hd')) (by decide) (by simp)
          exact ⟨d, (uproc_congr hkeep).trans hd, hdf⟩
        refine ⟨.inr ⟨by rw [hsem]; rfl, ⟨parent, hself _ (by simp)⟩, howes'⟩, by rw [hsem]; exact hv,
          fun _ _ => .inr howes'⟩
  | term =>
      have hnil : (s.sem .masterSemaphore).queue = [] := by
        rcases ha.queue with hnil | ⟨hq, -⟩
        · exact hnil
        · exact absurd ⟨.masterSemaphore, by rw [hq]; exact List.mem_singleton_self 1⟩ hb
      apply of_queue_nil
      · change (s.sem .masterSemaphore).queue.filter _ = []
        rw [hnil]
        rfl
      · exact ha.value
      · intro par he
        exact (Sync.proc_of_term hlt 1 _ he).1 rfl

theorem step_uproc (ha : Awaited s) (hs : Sync s h) (hst : Steps s p inp s')
    (hp : s.proc p = some ⟨parent, .uproc a c⟩) (hb : ¬ s.Blocked p)
    (hsvc : s.service (p, inp) = svc) (hm : Moves a s.vm c inp c' vm svc)
    (hs' : s' = (s.move p ⟨parent, .uproc a c'⟩ vm).serve p svc) : Awaited s' := by
  have hlt := hs.bound _ _ hp
  have hu := State.uproc_of_proc hp
  have hp1 : 1 ≠ p := by
    rintro rfl
    cases hs.place _ _ hp with
    | child h3 => omega
  have hn1 : 1 ≠ s.nextPid := by
    have := hs.ge_two hu
    omega
  by_cases hterm : svc = .term
  · subst hterm hs'
    obtain ⟨rfl, rfl⟩ := hm.of_term
    rcases hs.ge_two hu with rfl | h3
    · -- the shell has done its V
      have hnot := State.not_shellOwes hu rfl
      have hnil := ha.queue.resolve_right fun h => hnot h.2.2
      refine ⟨.inl ?_, ha.value, fun par he => ?_⟩
      · change (s.sem .masterSemaphore).queue.filter _ = []
        rw [hnil]
        rfl
      · have h1 := (Sync.proc_of_term hlt 1 _ he).2
        exact .inl ((ha.passeren par h1).resolve_right hnot)
    · have halone := hs.childless h3
      apply ha.congr
      · exact proc_keep_alone hp (by rfl) hp1 hn1 fun _ => halone
      · exact sem_keep_alone hp (by rfl) hb halone
      · intro ho
        exact (hs.shellOwes_after hst ho).resolve_right fun h => by omega
  · have h1 : s'.proc 1 = s.proc 1 := by
      rw [hs']
      exact State.proc_keep hn1 hp1 fun ht => absurd ht hterm
    by_cases hv : svc = .verhogen .masterSemaphore
    · have hsem : s'.sem .masterSemaphore = (s.sem .masterSemaphore).verhogen := by
        rw [hs', hv]
        exact State.setSem_self
      have hval := ha.value
      rcases ha.queue with hnil | ⟨hq, ⟨par, ht⟩, -⟩
      · rw [Semaphore.verhogen, hnil] at hsem
        refine ⟨.inl (by rw [hsem]), ?_, fun _ _ => .inl ?_⟩
        · rw [hsem]
          change 0 ≤ (s.sem .masterSemaphore).value + 1
          omega
        · rw [hsem]
          change 0 < (s.sem .masterSemaphore).value + 1
          omega
      · rw [Semaphore.verhogen, hq] at hsem
        apply of_queue_nil
        · rw [hsem]
        · rw [hsem]
          exact hval
        · intro par' he
          rw [h1, ht] at he
          simp at he
    · apply ha.congr h1
      · rw [hs']
        apply State.serve_sem_of_ne
        · rintro rfl
          cases hm with
          | codePasseren hx => exact hx.2.2 rfl
        · exact hv
        · exact fun he => absurd he hm.ne_initSemaphores
        · exact hterm
      · intro ho
        exact (hs.shellOwes_after hst ho).resolve_right fun h => hv (hsvc.symm.trans h.2)

end Awaited

theorem State.descends_parent {n : ℕ} {r : Proc} (hq : s.proc q = some r)
    (hd : s.descends p n r.parent = true) : s.descends p (n + 1) q = true := by
  rw [State.descends, hq, Option.any_some, hd, Bool.or_true]

namespace Attended

/-- When the shell or `test` ends, no U-proc is left. -/
theorem uproc_of_term {r r' : Proc}
    (ho : ∀ p a c, s.uproc p = some (a, c) → ∃ d, s.uproc 2 = some (shellIdx, d))
    (hs : Sync s h) (hp : s.proc p = some r) (h12 : p = 1 ∨ p = 2) :
    ((s.move p r' vm).serve p .term).uproc q = none := by
  cases hu : ((s.move p r' vm).serve p .term).uproc q with
  | none => rfl
  | some x =>
      exfalso
      obtain ⟨b, d⟩ := x
      obtain ⟨par, hq⟩ := State.uproc_eq_some.mp hu
      obtain ⟨hqp, hq₀⟩ := Sync.proc_of_term (hs.bound _ _ hp) q _ hq
      obtain ⟨-, hd⟩ := State.proc_of_kill hq
      obtain ⟨n, hn⟩ : ∃ n, s.nextPid = n + 3 :=
        ⟨s.nextPid - 3, by
          have := hs.ge_two (State.uproc_of_proc hq₀)
          have := hs.bound _ _ hq₀
          omega⟩
      rw [State.move_nextPid, hn] at hd
      have hmove : ∀ q r, q ≠ p → s.proc q = some r → (s.move p r' vm).proc q = some r :=
        fun q r hne hq => (State.move_of_ne hne).trans hq
      have h21 : 2 ≠ 1 := by decide
      have hdesc : (s.move p r' vm).descends p (n + 3) q = true := by
        cases hs.place _ _ hq₀ with
        | shell =>
            obtain rfl : p = 1 := h12.resolve_right (Ne.symm hqp)
            exact State.descends_parent (hmove _ _ hqp hq₀) (State.descends_self _)
        | child =>
            apply State.descends_parent (hmove _ _ hqp hq₀)
            rcases h12 with rfl | rfl
            · obtain ⟨e, he⟩ := ho q b d (State.uproc_of_proc hq₀)
              obtain ⟨par, he⟩ := State.uproc_eq_some.mp he
              have hpar : par = 1 := by
                cases hs.place _ _ he with
                | shell => rfl
                | child h3 => omega
              subst hpar
              exact State.descends_parent (hmove 2 _ h21 he) (State.descends_self _)
            · exact State.descends_self _
      rw [hdesc] at hd
      exact absurd hd (by decide)

/-- When the shell ends, no U-proc is left. -/
theorem orphan_step (ho : ∀ p a c, s.uproc p = some (a, c) → ∃ d, s.uproc 2 = some (shellIdx, d))
    (hs : Sync s h) (hst : Steps s p inp s') (hq : s'.uproc q = some (b, d)) :
    ∃ d, s'.uproc 2 = some (shellIdx, d) := by
  cases hst with
  | @test parent pt pt' vm svc hp hb hsvc hm =>
      have hlt := hs.bound _ _ hp
      obtain ⟨rfl, hn⟩ : p = 1 ∧ (pt.early = true ↔ s.nextPid = 2) := by
        cases hs.place _ _ hp with
        | test h => exact ⟨rfl, h⟩
      by_cases hterm : svc = .term
      · subst hterm
        rw [uproc_of_term ho hs hp (.inl rfl)] at hq
        cases hq
      · rcases uproc_after_test hlt hq with ⟨_, hq⟩ | ⟨rfl, rfl, rfl⟩
        · obtain ⟨e, he⟩ := ho q b d hq
          obtain ⟨par, he'⟩ := State.uproc_eq_some.mp he
          have hn2 := Nat.ne_of_lt (hs.bound _ _ he')
          refine ⟨e, ?_⟩
          rw [uproc_congr (State.proc_keep hn2 (by decide) fun ht => absurd ht hterm), he]
        · obtain ⟨rfl, rfl⟩ := hm.of_create
          rw [hn.mp rfl] at hq
          exact ⟨_, hq⟩
  | @uproc parent a c c' vm svc hp hb hsvc hm =>
      have hlt := hs.bound _ _ hp
      have hu := State.uproc_of_proc hp
      obtain ⟨e, he⟩ := ho p a c hu
      obtain ⟨par, he'⟩ := State.uproc_eq_some.mp he
      have hn2 := Nat.ne_of_lt (hs.bound _ _ he')
      by_cases h2 : 2 = p
      · subst h2
        rw [hu, Option.some.injEq, Prod.mk.injEq] at he
        obtain ⟨rfl, rfl⟩ := he
        by_cases hterm : svc = .term
        · subst hterm
          rw [uproc_of_term ho hs hp (.inr rfl)] at hq
          cases hq
        · exact ⟨c', uproc_self hlt hterm⟩
      · refine ⟨e, ?_⟩
        have h3 : 3 ≤ p := (hs.ge_two hu).resolve_left (Ne.symm h2)
        rw [uproc_congr (proc_keep_alone hp (by rfl) h2 hn2 fun _ => hs.childless h3), he]

theorem inUse_step (hs : Sync s h) (hst : Steps s p inp s') (hi : s'.InUse) : s.InUse := by
  have hlt : 1 ≤ p ∧ p < s.nextPid := by
    cases hst with
    | test hp | uproc hp => exact ⟨(hs.place _ _ hp).pos, hs.bound _ _ hp⟩
  rcases hi with hn | ⟨d, hd⟩
  · have hle : s.nextPid ≤ s'.nextPid := by
      cases hst with
      | test | uproc => exact nextPid_le_serve (t := s.move p _ _)
    left
    omega
  · rcases hst.uproc_after hlt.2 hd with ⟨rfl, ⟨d, hd⟩, -⟩ | ⟨-, hd⟩ | ⟨-, hn, -⟩
    · exact .inr ⟨d, hd⟩
    · exact .inr ⟨d, hd⟩
    · exact .inl hn.symm

/-- A U-proc crosses the borders of its critical sections with P and V only. -/
theorem crosses (hk : Kept s t) (hu : s.uproc p = some (a, c))
    (hm : Moves a s.vm c inp c' vm svc) (hcond : CallsSurvive s (p, inp)) (hx : x.Held) :
    State.Crosses x svc (c.past x) (c'.past x) := by
  obtain ⟨h, hs⟩ := hk.sync
  rcases hx with rfl | hx
  · apply hm.crosses_swap
    rintro rfl
    exact hk.flagged.of_checkFlag hs hu
  · apply hm.crosses_terminal hx
    intro hc'
    rw [Bool.eq_false_iff]
    intro hpast
    rcases hm.to_sys2 hc' hpast with rfl | ⟨hi, back, pt, rfl, hpt⟩
    · rw [hcond (.inl rfl) a c x hu hx] at hpast
      exact absurd hpast (by decide)
    · rw [past_pager hx, hk.surviving p a hi back pt x hu hpt hx] at hpast
      exact absurd hpast (by decide)

/-- `test` gives the semaphores of the terminal their first unit. -/
theorem owned_init (ha : Attended s) (hs : Sync s h) (hx : x.OfTerminal)
    (hp : s.proc p = some ⟨parent, .test .initSemaphores⟩) (hb : ¬ s.Blocked p) (hi : s.InUse) :
    (((s.move p ⟨parent, .test .initSwapPool⟩ s.vm).serve p .initSemaphores).sem x).Owned
      (((s.move p ⟨parent, .test .initSwapPool⟩ s.vm).serve p .initSemaphores).past x) := by
  have hown := ha.owned x (.inr hx) hi
  obtain ⟨rfl, hn⟩ : p = 1 ∧ s.nextPid = 2 := by
    cases hs.place _ _ hp with
    | test h => exact ⟨rfl, h.mp rfl⟩
  have honly : ∀ q r, s.proc q = some r → q = 1 := by
    intro q r hq
    have hlt := hs.bound q r hq
    cases hs.place q r hq with
    | test => rfl
    | shell | child => omega
  have hnil : (s.sem x).queue = [] := by
    rw [List.eq_nil_iff_forall_not_mem]
    intro q hq
    obtain ⟨r, hr, -⟩ := hown.queued q hq
    exact hb ⟨x, honly q r hr ▸ hq⟩
  have hsem : ((s.move 1 ⟨parent, .test .initSwapPool⟩ s.vm).serve 1 .initSemaphores).sem x =
      ⟨1, []⟩ := by
    rw [← hnil]
    rcases hx with rfl | rfl <;> rfl
  have hnone : ∀ q, ¬ ((s.move 1 ⟨parent, .test .initSwapPool⟩ s.vm).serve 1
      .initSemaphores).past x q := by
    rintro q ⟨r, hr, hpast⟩
    rcases State.proc_after (hs.bound _ _ hp) hr with ⟨-, rfl, -⟩ | ⟨hq, hr⟩ | ⟨b, he, -⟩
    · rcases hx with rfl | rfl <;> exact absurd hpast Bool.false_ne_true
    · exact hq (honly q r hr)
    · cases he
  rw [hsem]
  refine { queued := ?_, nodup := List.nodup_nil, unique := ?_, value := .inr ⟨rfl, hnone⟩,
           owned := ?_ }
  · exact fun q hq => absurd hq List.not_mem_nil
  · exact fun q r hq _ => absurd hq.1 (hnone q)
  · exact fun hv => absurd hv (by decide)

/-- The semaphores that are held between P and V, as long as they are in use. -/
theorem owned_step (ha : Attended s) (hk : Kept s t) (hst : Steps s p inp s')
    (hcond : CallsSurvive s (p, inp)) (hx : x.Held) (hi : s'.InUse) :
    (s'.sem x).Owned (s'.past x) := by
  obtain ⟨h, hs⟩ := hk.sync
  have hi₀ := inUse_step hs hst hi
  have hown := ha.owned x hx hi₀
  cases hst with
  | @test parent pt pt' vm svc hp hb hsvc hm =>
      have hlt := hs.bound _ _ hp
      obtain ⟨rfl, hn⟩ : p = 1 ∧ (pt.early = true ↔ s.nextPid = 2) := by
        cases hs.place _ _ hp with
        | test h => exact ⟨rfl, h⟩
      have hterm : svc ≠ .term := by
        rintro rfl
        obtain rfl := hm.of_term
        rcases hi with h2 | ⟨d, hd⟩
        · exact absurd (hn.mpr h2) (by decide)
        · rw [uproc_of_term ha.orphan hs hp (.inl rfl)] at hd
          cases hd
      by_cases hsi : svc = .initSemaphores ∧ x.OfTerminal
      · obtain ⟨rfl, hx⟩ := hsi
        cases hm
        exact ha.owned_init hs hx hp hb hi₀
      · refine hown.step (State.sem_step hs.fresh hp hb ?_ hterm)
        rcases hx with rfl | hx
        · exact hm.crosses_swap
        · exact hm.past_terminal hx fun he => hsi ⟨he, hx⟩
  | @uproc parent a c c' vm svc hp hb hsvc hm =>
      have hu := State.uproc_of_proc hp
      refine State.owned_step hown hs.fresh hp hb rfl (crosses hk hu hm hcond hx) fun ht => ?_
      subst ht
      obtain ⟨rfl, rfl⟩ := hm.of_term
      refine ⟨by cases x <;> rfl, ?_⟩
      rcases hs.ge_two hu with rfl | h3
      · have hlt := hs.bound _ _ hp
        rcases hi with h2 | ⟨d, hd⟩
        · have h2' : s.nextPid = 2 := h2
          omega
        · rw [uproc_of_term ha.orphan hs hp (.inr rfl)] at hd
          cases hd
      · exact hs.childless h3

theorem step (ha : Attended s) (hk : Kept s t) (hst : Steps s p inp s')
    (hcond : CallsSurvive s (p, inp)) : Attended s' := by
  obtain ⟨h, hs⟩ := hk.sync
  refine { waiting := ?_, awaited := ?_, orphan := ?_, owned := ?_ }
  · intro x hx q hq
    cases hst with
    | test hp hb _ hm =>
        refine waiting_after (ha.waiting x hx) hs.bound hb (fun hsvc => ?_) (hs.bound _ _ hp) hq
        subst hsvc
        cases hm
        exact absurd rfl hx
    | uproc hp hb _ hm =>
        refine waiting_after (ha.waiting x hx) hs.bound hb (fun hsvc => ?_) (hs.bound _ _ hp) hq
        subst hsvc
        exact ⟨_, _, rfl, fun y hy => hm.waits hy⟩
  · cases hst with
    | test hp hb _ hm => exact ha.awaited.step_test hs hp hb hm
    | uproc hp hb hsvc hm =>
        exact ha.awaited.step_uproc hs (.uproc hp hb hsvc hm) hp hb hsvc hm rfl
  · exact fun q b d hq => orphan_step ha.orphan hs hst hq
  · exact fun x hx hi => ha.owned_step hk hst hcond hx hi

/-- Who holds a semaphore waits for the Swap Pool only. -/
theorem waits_of_holds (ha : Attended s) (hq : (s.sem x).Holds (s.past x) q) {y : Sem}
    (hy : s.Waits q y) : y = .swapSemaphore ∧ x ≠ .swapSemaphore := by
  obtain ⟨⟨r, hr, hpast⟩, hnot⟩ := hq
  by_cases hmaster : y = .masterSemaphore
  · subst hmaster
    rcases ha.awaited.queue with hnil | ⟨hone, ⟨parent, ht⟩, -⟩
    · rw [State.Waits, hnil] at hy
      exact absurd hy List.not_mem_nil
    · rw [State.Waits, hone, List.mem_singleton] at hy
      rw [hy, ht, Option.some.injEq] at hr
      subst hr
      cases x <;> exact absurd hpast Bool.false_ne_true
  · obtain ⟨a, c, hu, hc⟩ := ha.waiting y hmaster q hy
    obtain ⟨parent, hproc⟩ := State.uproc_eq_some.mp hu
    rw [hproc, Option.some.injEq] at hr
    subst hr
    have hxy : x ≠ y := fun he => hnot (he ▸ hy)
    rcases hc x hpast with he | he
    · exact absurd he hxy
    · exact ⟨he, fun hx => hxy (hx.trans he.symm)⟩

/-- Somebody holds the semaphore that is waited for. -/
theorem exists_holder (ha : Attended s) (hx : x.Held) (hp : s.Waits p x) :
    ∃ q, (s.sem x).Holds (s.past x) q := by
  have hmaster : x ≠ .masterSemaphore := by
    rintro rfl
    rcases hx with he | he | he <;> cases he
  obtain ⟨a, c, hu, -⟩ := ha.waiting x hmaster p hp
  have hown := ha.owned x hx (.inr (ha.orphan p a c hu))
  exact hown.owned (hown.value_eq_zero (hown.queued p hp))

/-- The shell waits for the last of its children. -/
theorem exists_child (hs : Sync s h) (hp : s.Waits p .shellSemaphore) :
    ∃ q, s.Owes q .shellSemaphore ∧ q ≠ 2 := by
  obtain ⟨rfl, hu⟩ := hs.queue p hp
  have hask : s.asking = 0 := by
    rw [State.asking, hu]
    rfl
  have hpos := List.length_pos_of_mem hp
  have hzero := hs.sane.zero (List.ne_nil_of_mem hp)
  have hbal := hs.balance
  have hle := hs.le_succ
  rw [Semaphore.balance, hzero, hask] at hbal
  have hn : s.nextPid = 3 + h.children.length := by
    rcases hs.count with ⟨_, hnil⟩ | hn
    · rw [hnil, List.length_nil] at hbal
      omega
    · exact hn
  obtain ⟨a, c, hq⟩ := hs.alive (3 + h.signals.length) (le_refl _) (by omega)
  refine ⟨_, ⟨a, c, hq, ?_, ?_⟩, by omega⟩
  · rintro rfl
    have := hs.eq_two hq
    omega
  · rw [Bool.eq_false_iff]
    intro hc
    have := (hs.signalled _ a c hq (by omega)).mp hc
    omega

/-- Whoever owes a V that is waited for waits further down, if at all. -/
theorem lockOrder (ha : Attended s) (hs : Sync s h) : LockOrder s.Waits s.Owes Sem.level := by
  intro p x hp
  have hheld : ∀ x : Sem, x.Held → s.Waits p x → ∃ q, (s.sem x).Holds (s.past x) q ∧
      ∀ y, s.Waits q y → y.level < x.level := by
    intro x hx hp
    obtain ⟨q, hq⟩ := ha.exists_holder hx hp
    refine ⟨q, hq, fun y hy => ?_⟩
    obtain ⟨rfl, hne⟩ := ha.waits_of_holds hq hy
    rcases hx with rfl | rfl | rfl
    · exact absurd rfl hne
    · decide
    · decide
  have huproc : ∀ q a c, s.uproc q = some (a, c) → ¬ s.Waits q .masterSemaphore := by
    intro q a c hu hq
    rcases ha.awaited.queue with hnil | ⟨hone, ⟨parent, ht⟩, -⟩
    · rw [State.Waits, hnil] at hq
      exact absurd hq List.not_mem_nil
    · rw [State.Waits, hone, List.mem_singleton] at hq
      rw [hq, State.uproc, ht] at hu
      cases hu
  cases x with
  | swapSemaphore => exact hheld _ (.inl rfl) hp
  | termWriteSemaphore => exact hheld _ (.inr (.inl rfl)) hp
  | termReadSemaphore => exact hheld _ (.inr (.inr rfl)) hp
  | shellSemaphore =>
      obtain ⟨q, hq, hne⟩ := exists_child hs hp
      refine ⟨q, hq, fun y hy => ?_⟩
      obtain ⟨a, c, hu, -, -⟩ := hq
      cases y with
      | masterSemaphore => exact absurd hy (huproc q a c hu)
      | shellSemaphore => exact absurd (hs.queue q hy).1 hne
      | swapSemaphore | termWriteSemaphore | termReadSemaphore => decide
  | masterSemaphore =>
      rcases ha.awaited.queue with hnil | ⟨-, -, howes⟩
      · rw [State.Waits, hnil] at hp
        exact absurd hp List.not_mem_nil
      · refine ⟨2, howes, fun y hy => ?_⟩
        obtain ⟨c, hu, -⟩ := howes
        cases y with
        | masterSemaphore => exact absurd hy (huproc 2 _ c hu)
        | shellSemaphore | swapSemaphore | termWriteSemaphore | termReadSemaphore => decide

/-- A process that does not wait goes on, unless `test` has panicked. -/
theorem canGoOn {r : Proc} (hp : s.proc p = some r) (hb : ∀ x, ¬ s.Waits p x)
    (hr : r.body ≠ .test .panic) : s.CanGoOn p := by
  have hnext : ∃ inp, (r.body.next s.vm inp).isSome := by
    obtain ⟨parent, body⟩ := r
    cases body with
    | test pt =>
        cases pt with
        | create => exact ⟨.created true, rfl⟩
        | panic => exact absurd rfl hr
        | initSemaphores | initSwapPool | init | passeren | term => exact ⟨.go, rfl⟩
    | uproc a c =>
        obtain ⟨inp, hinp⟩ := next_isSome a s.vm c
        exact ⟨inp, by rw [Body.next, Option.isSome_map]; exact hinp⟩
  obtain ⟨inp, hinp⟩ := hnext
  have hnot : ¬ s.Blocked p := not_exists.mpr hb
  have hexec : (s.exec p inp).isSome := by
    rw [State.exec, hp, Option.bind_some, if_neg hnot, Option.isSome_map]
    exact hinp
  obtain ⟨s', hs'⟩ := Option.isSome_iff_exists.mp hexec
  exact ⟨inp, s', hs'⟩

/-- Whoever owes a V is there, and `test` has not panicked. -/
theorem live_of_owes (ho : s.Owes q x) : ∃ r, s.proc q = some r ∧ r.body ≠ .test .panic := by
  have hpast : ∀ x, s.past x q → ∃ r, s.proc q = some r ∧ r.body ≠ .test .panic := by
    rintro x ⟨r, hr, hpast⟩
    refine ⟨r, hr, fun he => ?_⟩
    rw [he] at hpast
    cases x <;> exact absurd hpast Bool.false_ne_true
  have huproc : ∀ a c, s.uproc q = some (a, c) →
      ∃ r, s.proc q = some r ∧ r.body ≠ .test .panic := by
    intro a c hu
    obtain ⟨parent, hq⟩ := State.uproc_eq_some.mp hu
    exact ⟨_, hq, by simp⟩
  cases x with
  | swapSemaphore | termWriteSemaphore | termReadSemaphore => exact hpast _ ho.1
  | masterSemaphore =>
      obtain ⟨c, hu, -⟩ := ho
      exact huproc _ c hu
  | shellSemaphore =>
      obtain ⟨a, c, hu, -⟩ := ho
      exact huproc a c hu

theorem progressing (ha : Attended s) (hs : Sync s h) : Progressing s := by
  have hchain : ∀ p x, s.Waits p x →
      ∃ q, Relation.TransGen (WaitsFor s.Waits s.Owes) p q ∧ s.CanGoOn q := by
    intro p x hp
    obtain ⟨q, hq, ⟨y, howes⟩, hnone⟩ := (ha.lockOrder hs).chain hp
    obtain ⟨r, hr, hpanic⟩ := live_of_owes howes
    exact ⟨q, hq, canGoOn hr hnone hpanic⟩
  refine ⟨hchain, fun p r hp => ?_⟩
  by_cases hw : ∃ x, s.Waits p x
  · obtain ⟨x, hx⟩ := hw
    obtain ⟨q, -, hq⟩ := hchain p x hx
    exact .inr ⟨q, hq⟩
  · obtain ⟨parent, body⟩ := r
    by_cases hpanic : body = .test .panic
    · subst hpanic
      cases hs.place _ _ hp
      exact .inl ⟨_, hp⟩
    · exact .inr ⟨p, canGoOn hp (not_exists.mp hw) hpanic⟩

end Attended

theorem Boot.attended {s : State} (hs : Boot s) : Attended s where
  waiting x _ p hp := by
    rw [hs.sem] at hp
    exact absurd hp List.not_mem_nil
  awaited := by
    apply Awaited.of_queue_nil
    · rw [hs.sem]
    · rw [hs.sem]
    · intro parent hp
      exact absurd (hs.proc_eq hp).2 (by simp)
  orphan p a c hp := absurd hp (hs.uproc_ne p a c)
  owned x hx _ := by
    have hone : ∀ p, s.past x p → p = 1 := by
      rintro p ⟨r, hr, -⟩
      exact (hs.proc_eq hr).1
    have hpast : s.past x 1 := by
      refine ⟨⟨0, .test .initSemaphores⟩, by rw [hs.proc]; exact Function.update_self .., ?_⟩
      rcases hx with rfl | rfl | rfl <;> rfl
    rw [hs.sem]
    refine { queued := ?_, nodup := List.nodup_nil, unique := ?_, value := .inl rfl, owned := ?_ }
    · exact fun p hp => absurd hp List.not_mem_nil
    · exact fun p q hp hq => (hone p hp.1).trans (hone q hq.1).symm
    · exact fun _ => ⟨1, hpast, List.not_mem_nil⟩

end Step

end PandOSsh.SupportLevel
