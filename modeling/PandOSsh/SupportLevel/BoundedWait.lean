import PandOSsh.Library.BoundedWait
import PandOSsh.SupportLevel.Execute

/-!
# Waiting for the Swap Pool

A critical section on `swapSemaphore` is nine steps at most, and there are eight
ASIDs: whoever waits for the Swap Pool sees no more than 63 steps of those who get
it before.
-/

namespace PandOSsh.SupportLevel
open Library

/-- The steps from here to the V on `swapSemaphore`, at most. -/
def Control.stepsLeft : Control → ℕ
  | pager _ _ pt =>
      match pt with
      | .cause _ | .passeren => 0
      | .setFlag => 9
      | .choose => 8
      | .evict _ => 7
      | .write .. => 6
      | .read _ => 5
      | .record _ => 4
      | .install _ => 3
      | .clearFlag | .clearFlagFailed => 2
      | .verhogen | .verhogenFailed => 1
  | sys2 pt =>
      match pt with
      | .sweep => 2
      | .releaseMutex | .verhogen => 1
      | .checkFlag | .signal | .passeren | .term => 0
  | run _ | sys6 _ _ => 0

def TestPoint.stepsLeft : TestPoint → ℕ
  | .initSemaphores => 2
  | .initSwapPool => 1
  | .init | .create | .panic | .passeren | .term => 0

def Body.stepsLeft : Body → ℕ
  | .test pt => pt.stepsLeft
  | .uproc _ c => c.stepsLeft

namespace State

def stepsLeft (s : State) (p : ℕ) : ℕ := (s.proc p).elim 0 fun r => r.body.stepsLeft

/-- Who waits for the Swap Pool counts the steps that others take past their P. -/
def countSteps (s : State) (e : Event) (waited : ℕ → ℕ) (p : ℕ) : ℕ :=
  if p ∈ (s.sem .swapSemaphore).queue then
    if (s.proc e.1).any fun r => r.body.past .swapSemaphore then waited p + 1 else waited p
  else 0

end State

/-- The steps in a critical section, and those of all that may come before. -/
def criticalSteps : ℕ := 9
def waitingSteps : ℕ := criticalSteps * (uprocMax - 1)

/-- The runs of the system, and what who waits for the Swap Pool has counted. -/
def waitRuns : System ((State × Set Asid) × (ℕ → ℕ)) Event :=
  (supportRuns Boot).withHistory (fun _ _ => 0) fun x e _ w => x.1.countSteps e w

section Moves
variable {a : Asid} {vm vm' : Vm} {c c' : Control} {inp : Input} {svc : Service}

theorem Control.stepsLeft_le (c : Control) : c.stepsLeft ≤ criticalSteps := by
  cases c with
  | pager hi back pt => cases pt <;> simp [stepsLeft, criticalSteps]
  | sys2 pt => cases pt <;> decide
  | run | sys6 => exact Nat.zero_le _

theorem Body.stepsLeft_le (body : Body) : body.stepsLeft ≤ criticalSteps := by
  cases body with
  | test pt => cases pt <;> decide
  | uproc a c => exact c.stepsLeft_le

/-- Every step in the critical section is one of those that are left. -/
theorem Moves.stepsLeft (h : Moves a vm c inp c' vm' svc) (hc : c.past .swapSemaphore = true) :
    0 < c.stepsLeft ∧ (c'.past .swapSemaphore = true → c'.stepsLeft < c.stepsLeft) := by
  cases h with
  | code | store | refill | fault | trap | terminate | terminal | execute | codePasseren |
    codeVerhogen | cause | causeMod | passeren => simp [Control.past, past_swap_code] at hc
  | check | checkHeld | signal | sys2Passeren | term | init | create | createFailed |
    sys6Passeren => simp [Control.past] at hc
  | setFlag | choose | evictFree | evict | write | read | readFailed | clearFlagFailed | record |
    install | clearFlag | sweep => simp [Control.stepsLeft]
  | verhogenFailed | verhogen | releaseMutex | sys2Verhogen =>
      simp [Control.stepsLeft, programTrapHandler]

theorem TestMoves.stepsLeft {pt pt' : TestPoint} (h : TestMoves vm pt inp pt' vm' svc)
    (hc : pt.past .swapSemaphore = true) :
    0 < pt.stepsLeft ∧ (pt'.past .swapSemaphore = true → pt'.stepsLeft < pt.stepsLeft) := by
  cases h with
  | initSemaphores | initSwapPool => exact ⟨by decide, fun _ => by decide⟩
  | init | create | createFailed | passeren | term => exact absurd hc (by decide)

end Moves

/-- Who waits for the Swap Pool waits a bounded number of steps. -/
structure Awaiting (s : State) (vacant : Set Asid) (waited : ℕ → ℕ) : Prop where
  orderly : Orderly s vacant
  sync : ∃ h, Sync s h
  waits : (s.sem .swapSemaphore).WaitsAtMost (s.past .swapSemaphore) s.stepsLeft criticalSteps
    waitingSteps waited

section Step
variable {s s' : State} {vacant : Set Asid} {waited : ℕ → ℕ} {p q : ℕ} {inp : Input} {a : Asid}
  {c c' : Control} {vm : Vm} {svc : Service} {parent : ℕ} {r r' : Proc} {ps : List ℕ}

/-- There are no more U-procs than ASIDs. -/
theorem Orderly.length_le (h : Orderly s vacant) (hn : ps.Nodup)
    (hu : ∀ p ∈ ps, ∃ a c, s.uproc p = some (a, c)) : ps.length ≤ uprocMax := by
  have hasid : ∀ p : {p // p ∈ ps}, ∃ a c, s.uproc p = some (a, c) := fun p => hu p p.2
  choose asid ctrl hasid using hasid
  have hinj : Function.Injective asid := by
    intro p q he
    exact Subtype.ext (h.distinct p q (asid q) _ _ (he ▸ hasid p) (hasid q))
  have hlen : (ps.attach.map asid).Nodup := (List.nodup_attach.mpr hn).map hinj
  have hle := hlen.length_le_card
  rwa [List.length_map, List.length_attach, Fintype.card_fin] at hle

/-- Once there is a U-proc, `initSwapPool` is done. -/
theorem Sync.uproc_of_past {h : ExecLog} (hs : Sync s h) (hu : s.uproc q = some (a, c))
    (hp : s.past .swapSemaphore p) : ∃ b d, s.uproc p = some (b, d) := by
  obtain ⟨⟨parent, body⟩, hr, hpast⟩ := hp
  cases body with
  | uproc b d => exact ⟨b, d, State.uproc_of_proc hr⟩
  | test pt =>
      have hearly : pt.early = true := by
        cases pt with
        | passeren | term => exact absurd hpast Bool.false_ne_true
        | initSemaphores | initSwapPool | init | create | panic => rfl
      have htwo : s.nextPid = 2 := by
        cases hs.place p _ hr with
        | test h => exact h.mp hearly
      obtain ⟨par, hq⟩ := State.uproc_eq_some.mp hu
      have hlt := hs.bound q _ hq
      rcases hs.ge_two hu with rfl | h3 <;> omega

/-- Whoever comes has room: it and those before it have different ASIDs. -/
theorem Awaiting.room (h : Awaiting s vacant waited) (hu : s.uproc p = some (a, c))
    (hn : ¬ s.past .swapSemaphore p) :
    criticalSteps * (s.sem .swapSemaphore).queue.length ≤ waitingSteps ∧
      ∀ q, s.Inside q →
        s.stepsLeft q + criticalSteps * (s.sem .swapSemaphore).queue.length ≤ waitingSteps := by
  obtain ⟨log, hsync⟩ := h.sync
  have hqueue : ∀ q ∈ (s.sem .swapSemaphore).queue, s.past .swapSemaphore q := h.orderly.mutex.queued
  have hpq : p ∉ (s.sem .swapSemaphore).queue := fun hm => hn (hqueue p hm)
  have hnodup : (p :: (s.sem .swapSemaphore).queue).Nodup :=
    List.nodup_cons.mpr ⟨hpq, h.orderly.mutex.nodup⟩
  have hall : ∀ q ∈ p :: (s.sem .swapSemaphore).queue, ∃ a c, s.uproc q = some (a, c) := by
    intro q hq
    rcases List.mem_cons.mp hq with rfl | hq
    · exact ⟨a, c, hu⟩
    · exact hsync.uproc_of_past hu (hqueue q hq)
  have hlen := h.orderly.length_le hnodup hall
  rw [List.length_cons] at hlen
  refine ⟨Nat.mul_le_mul_left _ (by omega), fun q hq => ?_⟩
  have hqn : q ∉ p :: (s.sem .swapSemaphore).queue := by
    rw [List.mem_cons, not_or]
    exact ⟨fun he => hn (he ▸ hq.1), hq.2⟩
  have hlen' := h.orderly.length_le (List.nodup_cons.mpr ⟨hqn, hnodup⟩) fun r hr => by
    rcases List.mem_cons.mp hr with rfl | hr
    · exact hsync.uproc_of_past hu hq.1
    · exact hall r hr
  have hleft : s.stepsLeft q ≤ criticalSteps := by
    obtain ⟨r, hr, _⟩ := hq.1
    rw [State.stepsLeft, hr]
    exact r.body.stepsLeft_le
  simp only [List.length_cons, criticalSteps, waitingSteps, uprocMax] at *
  omega

/-- The others have as many steps left as before; a new U-proc has none. -/
theorem stepsLeft_other (hlt : p < s.nextPid) (hn : s.proc s.nextPid = none) (hne : q ≠ p)
    (ht : svc ≠ .term) : ((s.move p r' vm).serve p svc).stepsLeft q = s.stepsLeft q := by
  by_cases hnew : q = s.nextPid
  · rw [State.stepsLeft, State.stepsLeft, hnew, hn]
    cases hq : ((s.move p r' vm).serve p svc).proc s.nextPid with
    | none => rfl
    | some r₁ =>
        rcases State.proc_after hlt hq with ⟨he, _⟩ | ⟨_, hold⟩ | ⟨a, _, _, rfl⟩
        · exact absurd (hnew.trans he) hne
        · rw [hn] at hold
          exact absurd hold.symm (Option.some_ne_none r₁)
        · rfl
  · rw [State.stepsLeft, State.proc_keep hnew hne fun he => absurd he ht, State.stepsLeft]

/-- One step of p, as all see it who wait for the Swap Pool. -/
theorem Awaiting.waits_step (h : Awaiting s vacant waited) (hp : s.proc p = some r)
    (hb : ¬ s.Blocked p)
    (hc : State.Crosses .swapSemaphore svc (r.body.past .swapSemaphore) (r'.body.past .swapSemaphore))
    (ht : svc = .term → r.body.past .swapSemaphore = false)
    (hin : r.body.past .swapSemaphore = true → 0 < r.body.stepsLeft ∧
      (r'.body.past .swapSemaphore = true → r'.body.stepsLeft < r.body.stepsLeft))
    (hroom : r.body.past .swapSemaphore = false → r'.body.past .swapSemaphore = true →
      criticalSteps * (s.sem .swapSemaphore).queue.length ≤ waitingSteps ∧
        ∀ q, s.Inside q →
          s.stepsLeft q + criticalSteps * (s.sem .swapSemaphore).queue.length ≤ waitingSteps) :
    let s' := (s.move p r' vm).serve p svc
    (s'.sem .swapSemaphore).WaitsAtMost (s'.past .swapSemaphore) s'.stepsLeft criticalSteps
      waitingSteps (s.countSteps (p, inp) waited) := by
  intro s'
  have hm := h.orderly.mutex
  have hn := h.orderly.fresh
  have hlt := h.orderly.bound _ _ hp
  have hpast : s.past .swapSemaphore p ↔ r.body.past .swapSemaphore = true := State.past_iff hp
  have hcount : ∀ q ∈ (s.sem .swapSemaphore).queue, s.countSteps (p, inp) waited q =
      if r.body.past .swapSemaphore then waited q + 1 else waited q := by
    intro q hq
    rw [State.countSteps, if_pos hq, hp, Option.any_some]
  have hquiet : r.body.past .swapSemaphore = false →
      ∀ q ∈ (s.sem .swapSemaphore).queue, s.countSteps (p, inp) waited q = waited q := by
    intro hf q hq
    rw [hcount q hq, hf]
    rfl
  by_cases hterm : svc = .term
  · subst hterm
    refine h.waits.filter _ (fun q => ?_) (fun q hq => ?_) (hquiet (ht rfl))
    · rw [Bool.not_eq_true', ← State.past_move_same hp hc.of_term]
      exact State.past_kill
    · obtain ⟨r₁, hr₁, _⟩ := hq
      rcases State.proc_after hlt hr₁ with ⟨_, _, he⟩ | ⟨_, hold⟩ | ⟨a, he, _⟩
      · exact absurd rfl he
      · rw [State.stepsLeft, hr₁, State.stepsLeft, hold]
      · exact absurd he (by simp)
  · have hstep : (s.sem .swapSemaphore).Step (s.past .swapSemaphore) p (s'.past .swapSemaphore)
        (s'.sem .swapSemaphore) := State.sem_step hn hp hb hc hterm
    have hself : s'.proc p = some r' := State.proc_self (Nat.ne_of_lt hlt) hterm
    have hpast' : s'.past .swapSemaphore p ↔ r'.body.past .swapSemaphore = true :=
      State.past_iff hself
    have hleft : ∀ {t : State} {r₁ : Proc}, t.proc p = some r₁ →
        t.stepsLeft p = r₁.body.stepsLeft := fun {t} {r₁} ht => by rw [State.stepsLeft, ht]; rfl
    refine h.waits.step hm hstep (fun q hq => stepsLeft_other hlt hn hq hterm) (fun q hq => ?_)
      (fun hh => ?_) (fun hh => hquiet ?_) fun hnot hp' => ?_
    · obtain ⟨r₁, hr₁, _⟩ := hm.queued q hq
      rw [State.stepsLeft, hr₁]
      exact r₁.body.stepsLeft_le
    · obtain ⟨hpos, hdown⟩ := hin (hpast.mp hh.1)
      rw [hleft hp, hleft hself]
      refine ⟨hpos, fun hp' => hdown (hpast'.mp hp'), fun q hq => ?_⟩
      rw [hcount q hq, if_pos (hpast.mp hh.1)]
    · rw [Bool.eq_false_iff]
      exact fun hp' => hh ⟨hpast.mpr hp', fun hq => hb ⟨_, hq⟩⟩
    · refine ⟨if_neg fun hq => hnot (hm.queued p hq), hroom ?_ (hpast'.mp hp')⟩
      rw [Bool.eq_false_iff]
      exact fun hf => hnot (hpast.mpr hf)

theorem Awaiting.step (h : Awaiting s vacant waited) (hs : Steps s p inp s')
    (hprep : ∀ a, s.prepares p = some a → a ∈ vacant) :
    Awaiting s' (s.vacancy (p, inp) s' vacant) (s.countSteps (p, inp) waited) := by
  obtain ⟨log, hsync⟩ := h.sync
  refine ⟨h.orderly.step hs hprep, ⟨_, hsync.step hs⟩, ?_⟩
  cases hs with
  | uproc hp hb hsvc hm =>
      have hu := State.uproc_of_proc hp
      refine h.waits_step hp hb (hm.crosses_swap fun hc => h.orderly.flag_of_checkFlag (hc ▸ hu))
        (fun ht => ?_) hm.stepsLeft fun hout _ => h.room hu fun hpast => ?_
      · subst ht
        rw [hm.of_term.1]
        rfl
      · rw [State.past_iff hp, hout] at hpast
        exact Bool.false_ne_true hpast
  | test hp hb hsvc hm =>
      refine h.waits_step hp hb hm.crosses_swap (fun ht => ?_) hm.stepsLeft fun hout hin => ?_
      · subst ht
        cases hm
        rfl
      · cases hm <;> simp [Body.past, TestPoint.past] at hout hin

end Step

section Runs
variable {x : (State × Set Asid) × (ℕ → ℕ)} {p : ℕ}

/-- While a U-proc waits for the Swap Pool, at most 63 steps are taken in critical sections,
and fewer when others still stand before it. -/
theorem bounded_waiting (h : waitRuns.Reachable x)
    (hp : p ∈ (x.1.1.sem .swapSemaphore).queue) :
    x.2 p + criticalSteps * (ahead p (x.1.1.sem .swapSemaphore).queue).length ≤ waitingSteps := by
  have haw : Awaiting x.1.1 x.1.2 x.2 := by
    refine h.invariant (I := fun x => Awaiting x.1.1 x.1.2 x.2) (fun x hx => ?_)
      fun x e x' _ ih hs => ?_
    · obtain ⟨⟨hb, hv⟩, hw⟩ := hx
      rw [hv, hw]
      refine ⟨hb.orderly, ⟨_, hb.sync⟩, ?_⟩
      rw [hb.sem]
      exact ⟨fun p hp => absurd hp List.not_mem_nil, fun p hp => absurd hp List.not_mem_nil⟩
    · obtain ⟨⟨hprep, hexec, hv⟩, hw⟩ := hs
      rw [hv, hw]
      exact ih.step (State.steps_of_exec hexec) hprep
  exact haw.waits.queued p hp

end Runs

section Concrete

/-- A child has signalled the shell and got the Swap Pool to free its frames; the shell
faults and waits. -/
def waitingEvents : List Event :=
  executeEvents ++ [(3, .syscall 2 0 0), (3, .go), (3, .go), (3, .go)] ++
    faultEvents 2 0x80000000 ++ [(3, .go)]

theorem bounded_waiting_shell : ∃ x : (State × Set Asid) × (ℕ → ℕ), waitRuns.Reachable x ∧
    (x.1.1.sem .swapSemaphore).queue = [2] ∧ x.2 2 ≤ 63 := by
  have hend : (State.track (fun s e _ w => s.countSteps e w) (fun _ _ => true) waitingEvents
      ((bootState fun _ _ _ => 0, Finset.univ), fun _ => 0)).any (fun y =>
        (y.1.1.sem .swapSemaphore).queue == [2]) = true := by
    decide
  obtain ⟨y, hy, hcheck⟩ := (Option.any_eq_true _ _).mp hend
  rw [beq_iff_eq] at hcheck
  have hrun : (waitRuns.restrict fun _ _ => True).Reachable ((y.1.1, (y.1.2 : Set Asid)), y.2) :=
    track_boot (fun _ _ _ => trivial) hy
  have hw := hrun.of_restrict
  have hmem : 2 ∈ (y.1.1.sem .swapSemaphore).queue := by
    rw [hcheck]
    exact List.mem_singleton_self 2
  exact ⟨_, hw, hcheck, (Nat.le_add_right _ _).trans (bounded_waiting hw hmem)⟩

end Concrete
end PandOSsh.SupportLevel
