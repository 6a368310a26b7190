import PandOSsh.SupportLevel.SwapMutex

/-!
# The P and V operations on the Swap Pool

A tally of the requests of every process, for the balance of P and V on each
path, and the law of `swapSemaphore` for U-procs that die through their own
`sys2` only.
-/

namespace PandOSsh.SupportLevel
open Library

/-- How often every process has requested a P, and a V, on every semaphore. -/
structure Tally where
  taken : Sem → ℕ → ℕ
  given : Sem → ℕ → ℕ

namespace Tally
variable {t : Tally} {p q : ℕ} {svc : Service} {x y : Sem}

def zero : Tally := ⟨fun _ _ => 0, fun _ _ => 0⟩

def add (f : Sem → ℕ → ℕ) (x : Sem) (p : ℕ) : Sem → ℕ → ℕ :=
  fun y q => f y q + if y = x ∧ q = p then 1 else 0

def record (t : Tally) (p : ℕ) : Service → Tally
  | .passeren x => { t with taken := add t.taken x p }
  | .verhogen x => { t with given := add t.given x p }
  | _ => t

theorem record_of_ne (h : q ≠ p) :
    (t.record p svc).taken x q = t.taken x q ∧ (t.record p svc).given x q = t.given x q := by
  cases svc <;> simp [record, add, h]

theorem record_of_stays (hp : svc ≠ .passeren x) (hv : svc ≠ .verhogen x) :
    (t.record p svc).taken x q = t.taken x q ∧ (t.record p svc).given x q = t.given x q := by
  cases svc with
  | passeren y =>
      have hy : x ≠ y := fun he => hp (he ▸ rfl)
      simp [record, add, hy]
  | verhogen y =>
      have hy : x ≠ y := fun he => hv (he ▸ rfl)
      simp [record, add, hy]
  | none | initSemaphores | create | term => exact ⟨rfl, rfl⟩

/-- A process that crosses the borders with P and V keeps its account balanced. -/
theorem record_crosses {b b' : Bool} (hc : State.Crosses x svc b b')
    (h : t.taken x p = t.given x p + b.toNat) :
    (t.record p svc).taken x p = (t.record p svc).given x p + b'.toNat := by
  cases hc with
  | passeren => simp [record, add, h]
  | verhogen => simp [record, add, h]
  | stays hp hv _ =>
      obtain ⟨h1, h2⟩ := record_of_stays (t := t) (p := p) (q := p) hp hv
      rw [h1, h2, h]

end Tally

/-- Every U-proc that is past its P has one V to do, and the others none. -/
structure Balanced (x : Sem) (s : State) (t : Tally) : Prop where
  live : ∀ p a c, s.uproc p = some (a, c) → t.taken x p = t.given x p + (c.past x).toNat
  unborn : ∀ p, s.nextPid ≤ p → t.taken x p = t.given x p

section Balanced
variable {s s' : State} {t : Tally} {x : Sem} {p q : ℕ} {inp : Input} {parent : ℕ} {a : Asid}
  {c c' : Control} {vm : Vm} {svc : Service} {pt pt' : TestPoint}

theorem Balanced.zero (h : ∀ p a c, s.uproc p = some (a, c) → c.past x = false) :
    Balanced x s .zero := by
  constructor
  · intro p a c hp
    rw [h p a c hp]
    rfl
  · intro p _
    rfl

theorem Balanced.step_uproc (h : Balanced x s t) (hlt : p < s.nextPid)
    (hp : s.uproc p = some (a, c)) (hc : State.Crosses x svc (c.past x) (c'.past x)) :
    Balanced x ((s.move p ⟨parent, .uproc a c'⟩ vm).serve p svc) (t.record p svc) := by
  constructor
  · intro q b d hq
    rcases uproc_after hlt hq with ⟨rfl, _, rfl, _⟩ | ⟨hne, hq⟩ | ⟨rfl, rfl, rfl⟩
    · exact Tally.record_crosses hc (h.live q a c hp)
    · obtain ⟨h1, h2⟩ : (t.record p svc).taken x q = t.taken x q ∧
        (t.record p svc).given x q = t.given x q := Tally.record_of_ne hne
      rw [h1, h2]
      exact h.live q b d hq
    · exact h.unborn _ (le_refl _)
  · intro q hq
    have hle : s.nextPid ≤ q := le_trans (nextPid_le_serve (t := s.move p _ vm)) hq
    have hne : q ≠ p := by omega
    obtain ⟨h1, h2⟩ : (t.record p svc).taken x q = t.taken x q ∧
        (t.record p svc).given x q = t.given x q := Tally.record_of_ne hne
    rw [h1, h2]
    exact h.unborn q hle

theorem Balanced.step_test (h : Balanced x s t) (hlt : p < s.nextPid) :
    Balanced x ((s.move p ⟨parent, .test pt'⟩ vm).serve p svc) (t.record p svc) := by
  constructor
  · intro q b d hq
    rcases uproc_after_test hlt hq with ⟨hne, hq⟩ | ⟨rfl, rfl, rfl⟩
    · obtain ⟨h1, h2⟩ : (t.record p svc).taken x q = t.taken x q ∧
        (t.record p svc).given x q = t.given x q := Tally.record_of_ne hne
      rw [h1, h2]
      exact h.live q b d hq
    · exact h.unborn _ (le_refl _)
  · intro q hq
    have hle : s.nextPid ≤ q := le_trans (nextPid_le_serve (t := s.move p _ vm)) hq
    have hne : q ≠ p := by omega
    obtain ⟨h1, h2⟩ : (t.record p svc).taken x q = t.taken x q ∧
        (t.record p svc).given x q = t.given x q := Tally.record_of_ne hne
    rw [h1, h2]
    exact h.unborn q hle

end Balanced

/-- Between the completed P and the V on `swapSemaphore`. -/
def State.Inside (s : State) (p : ℕ) : Prop :=
  (s.sem .swapSemaphore).Holds (s.past .swapSemaphore) p

/-- Mutual exclusion over the Swap Pool, with the balance of P and V. -/
structure SwapExclusion (s : State) (t : Tally) : Prop where
  one : ∀ p q, s.Inside p → s.Inside q → p = q
  free : (s.sem .swapSemaphore).value = 1 ↔ ∀ p, ¬ s.Inside p
  le_one : (s.sem .swapSemaphore).value ≤ 1
  balanced : ∀ p a c, s.uproc p = some (a, c) →
    t.taken .swapSemaphore p = t.given .swapSemaphore p + (c.past .swapSemaphore).toNat
  given : ∀ e, s.service e = .verhogen .swapSemaphore → ¬ s.Blocked e.1 → s.Inside e.1
  flag : ∀ a, s.vm.holdingSwapMutex a = true → ∃ p c, s.uproc p = some (a, c) ∧ s.Inside p

/-- The runs of any number of U-procs with distinct ASIDs that die through their own
`sys2` only, with their tally. -/
def exclusionRuns : System ((State × Set Asid) × Tally) Event :=
  ((supportRuns Started).restrict DiesAlone).withHistory (fun _ => .zero)
    fun x e _ t => t.record e.1 (x.1.service e)

/-- What holds in these runs beside `Orderly`. -/
structure Exclusive (s : State) (vacant : Set Asid) (t : Tally) : Prop where
  orderly : Orderly s vacant
  owned : (s.sem .swapSemaphore).Owned (s.past .swapSemaphore)
  alive : ∀ a, a ∉ vacant → ∃ p c, s.uproc p = some (a, c)
  balanced : Balanced .swapSemaphore s t

section Run
variable {s s' : State} {vacant : Set Asid} {t : Tally} {p q : ℕ} {inp : Input} {a b : Asid}
  {c : Control}

theorem exec_of_service {e : Event} (hs : s.service e ≠ .none) (hb : ¬ s.Blocked e.1) :
    ∃ s', s.exec e.1 e.2 = some s' := by
  unfold State.service at hs
  unfold State.exec
  cases hp : s.proc e.1 with
  | none => simp [hp] at hs
  | some r =>
      rw [Option.bind_some, if_neg hb]
      cases hn : r.body.next s.vm e.2 with
      | none => simp [hp, hn] at hs
      | some n => exact ⟨_, rfl⟩

/-- Whoever is about to do a V on `swapSemaphore` is inside. -/
theorem Orderly.inside_of_verhogen (h : Orderly s vacant) {e : Event}
    (hs : s.service e = .verhogen .swapSemaphore) (hb : ¬ s.Blocked e.1) : s.Inside e.1 := by
  obtain ⟨s', he⟩ := exec_of_service (by simp [hs]) hb
  refine ⟨?_, fun hm => hb ⟨_, hm⟩⟩
  cases State.steps_of_exec he with
  | test hp _ hsvc hm =>
      rw [hs] at hsvc
      subst hsvc
      rw [State.past_iff hp]
      exact hm.crosses_swap.of_verhogen.1
  | uproc hp _ hsvc hm =>
      rw [hs] at hsvc
      subst hsvc
      rw [State.past_iff hp]
      refine (hm.crosses_swap fun hc => ?_).of_verhogen.1
      subst hc
      exact h.flag_of_checkFlag (State.uproc_of_proc hp)

theorem Moves.ne_term_past {vm vm' : Vm} {c' : Control} (h : Moves a vm c inp c' vm' .term) :
    c'.past .swapSemaphore = false := by
  rw [h.of_term.2]
  rfl

/-- A process without children is its only descendant, after it has moved. -/
theorem eq_of_descends_move {r r' : Proc} {vm : Vm} (hp : s.proc p = some r)
    (hpar : r'.parent = r.parent) (halone : ∀ q r, s.proc q = some r → r.parent ≠ p) {n : ℕ}
    (hd : (s.move p r' vm).descends p n q = true) : q = p := by
  refine State.eq_of_descends (fun q₀ r₀ hr₀ => ?_) n q hd
  by_cases he : q₀ = p
  · subst he
    rw [State.move_self, Option.some.injEq] at hr₀
    rw [← hr₀, hpar]
    exact halone q₀ r hp
  · rw [State.move_of_ne he] at hr₀
    exact halone q₀ r₀ hr₀

/-- Nobody else disappears when a process dies alone. -/
theorem proc_keep_alone {r r' : Proc} {vm : Vm} {svc : Service}
    (hp : s.proc p = some r) (hpar : r'.parent = r.parent) (hq : q ≠ p) (hqn : q ≠ s.nextPid)
    (halone : svc = .term → ∀ q r, s.proc q = some r → r.parent ≠ p) :
    ((s.move p r' vm).serve p svc).proc q = s.proc q := by
  refine State.proc_keep hqn hq fun ht => ?_
  rw [Bool.eq_false_iff]
  exact fun hd => hq (eq_of_descends_move hp hpar (halone ht) hd)

/-- The queues stay as they are when a process dies alone. -/
theorem sem_keep_alone {r r' : Proc} {vm : Vm} {x : Sem} (hp : s.proc p = some r)
    (hpar : r'.parent = r.parent) (hb : ¬ s.Blocked p)
    (halone : ∀ q r, s.proc q = some r → r.parent ≠ p) :
    ((s.move p r' vm).serve p .term).sem x = s.sem x := by
  have hfilter : (s.sem x).queue.filter
      (fun q => !(s.move p r' vm).descends p s.nextPid q) = (s.sem x).queue := by
    rw [List.filter_eq_self]
    intro q hq
    rw [Bool.not_eq_true', Bool.eq_false_iff]
    intro hd
    exact hb ⟨x, eq_of_descends_move hp hpar halone hd ▸ hq⟩
  change Semaphore.mk (s.sem x).value ((s.sem x).queue.filter _) = s.sem x
  rw [State.move_nextPid, hfilter]

theorem not_mem_vacancy (h : b ∉ s.vacancy (p, inp) s' vacant) :
    b ∉ vacant ∧ (s.service (p, inp) = .term → ∀ c, s.uproc p ≠ some (b, c)) ∨
      s.service (p, inp) = .create b true := by
  unfold State.vacancy at h
  split at h
  · next a hs =>
    by_cases hb : b = a
    · exact .inr (by rw [hs, hb])
    · refine .inl ⟨fun hv => h ⟨hv, hb⟩, fun ht => ?_⟩
      rw [hs] at ht
      exact absurd ht (by simp)
  · next hs =>
    refine .inl ⟨fun hv => h (.inl hv), fun _ c hc => h (.inr ⟨c, hc⟩)⟩
  · next hc ht => exact .inl ⟨h, fun hs => absurd hs ht⟩

theorem Exclusive.step (h : Exclusive s vacant t) (hs : Steps s p inp s')
    (hprep : ∀ a, s.prepares p = some a → a ∈ vacant)
    (halone : s.service (p, inp) = .term → ∀ q r, s.proc q = some r → r.parent ≠ p) :
    Exclusive s' (s.vacancy (p, inp) s' vacant) (t.record p (s.service (p, inp))) := by
  have hord := h.orderly
  refine { orderly := hord.step hs hprep, owned := ?_, alive := ?_, balanced := ?_ }
  · cases hs with
    | test hp hb hsvc hm =>
        rw [hsvc] at halone
        refine State.owned_step h.owned hord.fresh hp hb rfl hm.crosses_swap fun ht => ⟨?_, halone ht⟩
        subst ht
        cases hm
        rfl
    | uproc hp hb hsvc hm =>
        rw [hsvc] at halone
        refine State.owned_step h.owned hord.fresh hp hb rfl (hm.crosses_swap fun hc => ?_)
          fun ht => ⟨?_, halone ht⟩
        · subst hc
          exact hord.flag_of_checkFlag (State.uproc_of_proc hp)
        · subst ht
          exact hm.ne_term_past
  · intro b hb
    rcases not_mem_vacancy hb with ⟨hv, hend⟩ | hc
    · obtain ⟨q, d, hq⟩ := h.alive b hv
      obtain ⟨par, hq'⟩ := State.uproc_eq_some.mp hq
      have hqn : q ≠ s.nextPid := Nat.ne_of_lt (hord.bound q _ hq')
      cases hs with
      | test hp hb hsvc hm =>
          rw [hsvc] at halone
          have hqp : q ≠ p := fun he => by
            subst he
            rw [hp] at hq'
            exact absurd hq' (by simp)
          refine ⟨q, d, ?_⟩
          rw [uproc_congr (proc_keep_alone hp (by rfl) hqp hqn halone), hq]
      | @uproc parent a c c' vm svc hp hb hsvc hm =>
          rw [hsvc] at halone hend
          by_cases hqp : q = p
          · subst hqp
            have hu := State.uproc_of_proc hp
            refine ⟨q, c', State.uproc_eq_some.mpr ⟨parent, ?_⟩⟩
            have hab : a = b := by
              rw [hu, Option.some.injEq, Prod.mk.injEq] at hq
              exact hq.1
            rw [State.proc_self hqn fun ht => hend ht c (hab ▸ hu), hab]
          · refine ⟨q, d, ?_⟩
            rw [uproc_congr (proc_keep_alone hp (by rfl) hqp hqn halone), hq]
    · cases hs with
      | test hp hb hsvc hm | uproc hp hb hsvc hm =>
          rw [hsvc] at hc
          subst hc
          exact ⟨s.nextPid, .run .user, State.uproc_eq_some.mpr ⟨p, Function.update_self ..⟩⟩
  · cases hs with
    | test hp hb hsvc hm =>
        rw [hsvc]
        exact h.balanced.step_test (hord.bound _ _ hp)
    | uproc hp hb hsvc hm =>
        rw [hsvc]
        refine h.balanced.step_uproc (hord.bound _ _ hp) (State.uproc_of_proc hp)
          (hm.crosses_swap fun hc => ?_)
        subst hc
        exact hord.flag_of_checkFlag (State.uproc_of_proc hp)

theorem Control.past_of_flagged (h : c.flagged = true) : c.past .swapSemaphore = true := by
  unfold Control.flagged at h
  unfold Control.past
  split at h
  · split at h <;> simp_all
  all_goals exact absurd h (by simp)

theorem Control.not_entering_of_flagged (h : c.flagged = true) : c.entering = false := by
  unfold Control.flagged at h
  split at h
  · split at h <;> first | rfl | exact absurd h (by simp)
  all_goals exact absurd h (by simp)

/-- A U-proc between two statements of its critical section is inside. -/
theorem Orderly.inside (h : Orderly s vacant) (hp : s.uproc p = some (a, c))
    (hc : c.past .swapSemaphore = true) (he : c.entering = false) : s.Inside p := by
  obtain ⟨parent, hproc⟩ := State.uproc_eq_some.mp hp
  refine ⟨(State.past_iff hproc).mpr hc, fun hm => ?_⟩
  obtain ⟨a', c', hu, he'⟩ := h.waiting p hm
  rw [hp, Option.some.injEq, Prod.mk.injEq] at hu
  rw [hu.2, he'] at he
  exact absurd he (by simp)

theorem Exclusive.exclusion (h : Exclusive s vacant t) : SwapExclusion s t := by
  have hm := h.owned.toMutex
  constructor
  · exact hm.unique
  · constructor
    · intro hv p hp
      have := hm.value_eq_zero hp.1
      omega
    · intro hn
      rcases hm.value with h0 | ⟨h1, _⟩
      · obtain ⟨p, hp⟩ := h.owned.owned h0
        exact absurd hp (hn p)
      · exact h1
  · exact hm.le_one
  · exact h.balanced.live
  · intro e hs hb
    exact h.orderly.inside_of_verhogen hs hb
  · intro a hf
    obtain ⟨hv, hall⟩ := h.orderly.flag a hf
    obtain ⟨p, c, hp⟩ := h.alive a hv
    have hc := hall p c hp
    exact ⟨p, c, hp, h.orderly.inside hp (Control.past_of_flagged hc)
      (Control.not_entering_of_flagged hc)⟩

end Run

theorem Started.exclusive {s : State} (h : Started s) : Exclusive s s.unused .zero := by
  refine { orderly := h.orderly, owned := ?_, alive := ?_, balanced := ?_ }
  · refine { toMutex := h.orderly.mutex, owned := fun hv => ?_ }
    rw [h.swapSemaphore] at hv
    exact absurd hv (by simp)
  · intro a ha
    simp only [State.unused, Set.mem_ofPred_eq, not_forall, not_not] at ha
    exact ha
  · refine Balanced.zero fun p a c hp => ?_
    obtain ⟨parent, hproc⟩ := State.uproc_eq_some.mp hp
    rw [(uproc_fresh hproc (h.fresh p _ hproc).1 hp).2]
    rfl

theorem Boot.exclusive {s : State} (h : Boot s) : Exclusive s s.unused .zero := by
  refine { orderly := h.orderly, owned := ?_, alive := ?_, balanced := ?_ }
  · refine { toMutex := h.orderly.mutex, owned := fun _ => ⟨1, ⟨⟨0, .test .initSemaphores⟩, ?_, rfl⟩, ?_⟩ }
    · rw [h.proc]
      exact Function.update_self ..
    · rw [h.sem]
      exact List.not_mem_nil
  · intro a ha
    simp only [State.unused, Set.mem_ofPred_eq, not_forall, not_not] at ha
    exact ha
  · exact Balanced.zero fun p a c hp => absurd hp (h.uproc_ne p a c)

/-- In every run that starts after `initSwapPool`, at most one U-proc is inside the Swap
Pool, `swapSemaphore` is 1 exactly when none is, every P is balanced by one V of the same
U-proc, and a flag is set only while its U-proc is inside. -/
theorem swap_exclusion {x : (State × Set Asid) × Tally} (h : exclusionRuns.Reachable x) :
    SwapExclusion x.1.1 x.2 := by
  have hinv : Exclusive x.1.1 x.1.2 x.2 := by
    refine h.invariant (I := fun x => Exclusive x.1.1 x.1.2 x.2) (fun x hx => ?_)
      fun x e x' _ ih hs => ?_
    · rw [hx.2, hx.1.2]
      exact hx.1.1.exclusive
    · obtain ⟨⟨halone, hprep, hexec, hvac⟩, htally⟩ := hs
      have hstep := ih.step (State.steps_of_exec hexec) hprep halone
      rw [htally, hvac]
      exact hstep
  exact hinv.exclusion

/-- Nobody creates a U-proc or ends. -/
def quiet (s : State) (e : Event) : Bool := (s.prepares e.1).isNone && s.service e != .term

/-- The events of a page fault up to the P on `swapSemaphore`. -/
def faultEvents (p : ℕ) (va : Word) : List Event :=
  [(p, .refill va none), (p, .fault va false), (p, .go), (p, .go)]

/-- Two U-procs fault; the first one is inside, the second one waits. -/
def contention : List Event := faultEvents 2 0x80000000 ++ faultEvents 3 0xBFFFF004

theorem swap_exclusion_contention : ∃ x : (State × Set Asid) × Tally,
    (startState 1 2 fun _ _ _ => 0).run quiet contention = some x.1.1 ∧
      SwapExclusion x.1.1 x.2 := by
  have h₀ : ((supportRuns Started).restrict DiesAlone).Reachable
      (startState 1 2 fun _ _ _ => 0, (startState 1 2 fun _ _ _ => 0).unused) :=
    .init ⟨startState_started (by decide) _, rfl⟩
  have hsome : ((startState 1 2 fun _ _ _ => 0).run quiet contention).isSome = true := by
    decide
  obtain ⟨s, hs⟩ := Option.isSome_iff_exists.mp hsome
  have hok : ∀ (x : State × Set Asid) e, quiet x.1 e = true →
      x.1.prepares e.1 = none ∧ DiesAlone x e := by
    intro x e h
    simp only [quiet, Bool.and_eq_true, Option.isNone_iff_eq_none, bne_iff_ne, ne_eq] at h
    exact ⟨h.1, fun ht => absurd ht h.2⟩
  obtain ⟨g, hg⟩ := supportRuns_run hok h₀ hs
  obtain ⟨t, ht⟩ : ∃ t, exclusionRuns.Reachable ((s, g), t) := hg.exists_history
  exact ⟨((s, g), t), hs, swap_exclusion ht⟩

end PandOSsh.SupportLevel
