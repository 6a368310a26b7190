import PandOSsh.SupportLevel.Moves

/-!
# Steps of the system

What a step of one process does to the state: the process moves, and the service
it requested changes one semaphore, adds a process or removes some. The mutex
invariant is carried over every step on this level, from what the step does to
the classification of its process.
-/

namespace PandOSsh.SupportLevel
open Library

/-- The service that the process requests with its next step. -/
def State.service (s : State) (e : Event) : Service :=
  ((s.proc e.1).bind fun r => r.body.next s.vm e.2).elim .none fun n => n.2.2

/-- A step of the process p. -/
inductive Steps (s : State) (p : ℕ) (inp : Input) : State → Prop
  | test {parent : ℕ} {pt pt' : TestPoint} {vm : Vm} {svc : Service}
      (hp : s.proc p = some ⟨parent, .test pt⟩) (hb : ¬ s.Blocked p)
      (hs : s.service (p, inp) = svc) (hm : TestMoves s.vm pt inp pt' vm svc) :
      Steps s p inp ((s.move p ⟨parent, .test pt'⟩ vm).serve p svc)
  | uproc {parent : ℕ} {a : Asid} {c c' : Control} {vm : Vm} {svc : Service}
      (hp : s.proc p = some ⟨parent, .uproc a c⟩) (hb : ¬ s.Blocked p)
      (hs : s.service (p, inp) = svc) (hm : Moves a s.vm c inp c' vm svc) :
      Steps s p inp ((s.move p ⟨parent, .uproc a c'⟩ vm).serve p svc)

namespace State
variable {s s' : State} {p q : ℕ} {inp : Input} {r : Proc} {vm : Vm} {x y : Sem} {a : Asid}
  {c : Control}

theorem steps_of_exec (h : s.exec p inp = some s') : Steps s p inp s' := by
  simp only [exec, Option.bind_eq_some_iff] at h
  obtain ⟨⟨parent, body⟩, hp, h⟩ := h
  split at h
  · exact absurd h (by simp)
  · next hb =>
    simp only [Option.map_eq_some_iff] at h
    obtain ⟨⟨body', vm, svc⟩, hn, rfl⟩ := h
    have hs : s.service (p, inp) = svc := by
      simp only [service, hp, Option.bind_some, hn, Option.elim_some]
    cases body with
    | test pt =>
        simp only [Body.next, Option.map_eq_some_iff] at hn
        obtain ⟨⟨pt', vm', svc'⟩, ht, he⟩ := hn
        simp only [Prod.mk.injEq] at he
        obtain ⟨rfl, rfl, rfl⟩ := he
        exact .test hp hb hs (testStep_moves ht)
    | uproc a c =>
        simp only [Body.next, Option.map_eq_some_iff] at hn
        obtain ⟨⟨c', vm', svc'⟩, ht, he⟩ := hn
        simp only [Prod.mk.injEq] at he
        obtain ⟨rfl, rfl, rfl⟩ := he
        exact .uproc hp hb hs (next_moves ht)

/-- The step of a U-proc, with its statement. -/
theorem exec_uproc {parent : ℕ} (h : s.exec p inp = some s') (hp : s.proc p = some ⟨parent, .uproc a c⟩) :
    ¬ s.Blocked p ∧ ∃ c' vm svc, next a s.vm c inp = some (c', vm, svc) ∧
      s.service (p, inp) = svc ∧ s' = (s.move p ⟨parent, .uproc a c'⟩ vm).serve p svc := by
  simp only [exec, hp, Option.bind_some] at h
  split at h
  · exact absurd h (by simp)
  · next hb =>
    simp only [Body.next, Option.map_map, Option.map_eq_some_iff, Function.comp] at h
    obtain ⟨⟨c', vm, svc⟩, hn, rfl⟩ := h
    refine ⟨hb, c', vm, svc, hn, ?_, rfl⟩
    simp only [service, hp, Option.bind_some, Body.next, hn, Option.map_some, Option.elim_some]

/-- The ASID and the control of a U-proc. -/
def uproc (s : State) (p : ℕ) : Option (Asid × Control) :=
  (s.proc p).bind fun r =>
    match r.body with
    | .uproc a c => some (a, c)
    | .test _ => none

theorem uproc_eq_some : s.uproc p = some (a, c) ↔ ∃ parent, s.proc p = some ⟨parent, .uproc a c⟩ := by
  simp only [uproc, Option.bind_eq_some_iff]
  constructor
  · rintro ⟨⟨parent, body⟩, hp, h⟩
    cases body with
    | test pt => exact absurd h (by simp)
    | uproc a' c' =>
        simp only [Option.some.injEq, Prod.mk.injEq] at h
        obtain ⟨rfl, rfl⟩ := h
        exact ⟨parent, hp⟩
  · rintro ⟨parent, hp⟩
    exact ⟨_, hp, rfl⟩

theorem uproc_of_proc {parent : ℕ} (h : s.proc p = some ⟨parent, .uproc a c⟩) :
    s.uproc p = some (a, c) := uproc_eq_some.mpr ⟨parent, h⟩

section Move

@[simp] theorem move_sem : (s.move p r vm).sem = s.sem := rfl
@[simp] theorem move_vm : (s.move p r vm).vm = vm := rfl
@[simp] theorem move_nextPid : (s.move p r vm).nextPid = s.nextPid := rfl
@[simp] theorem move_self : (s.move p r vm).proc p = some r := Function.update_self ..

theorem move_of_ne (h : q ≠ p) : (s.move p r vm).proc q = s.proc q := Function.update_of_ne h ..

theorem move_uproc_of_ne (h : q ≠ p) : (s.move p r vm).uproc q = s.uproc q := by
  rw [uproc, move_of_ne h, uproc]

@[simp] theorem setSem_proc {σ : Semaphore ℕ} : (s.setSem x σ).proc = s.proc := rfl
@[simp] theorem setSem_vm {σ : Semaphore ℕ} : (s.setSem x σ).vm = s.vm := rfl
@[simp] theorem setSem_nextPid {σ : Semaphore ℕ} : (s.setSem x σ).nextPid = s.nextPid := rfl
@[simp] theorem setSem_self {σ : Semaphore ℕ} : (s.setSem x σ).sem x = σ := Function.update_self ..

theorem setSem_of_ne {σ : Semaphore ℕ} (h : y ≠ x) : (s.setSem x σ).sem y = s.sem y :=
  Function.update_of_ne h ..

@[simp] theorem serve_vm {svc : Service} : (s.serve p svc).vm = s.vm := by
  cases svc with
  | create a ok => cases ok <;> rfl
  | none | initSemaphores | passeren | verhogen | term => rfl

end Move

section Descends

/-- Every process descends from itself. -/
theorem descends_self (n : ℕ) : s.descends p (n + 1) p = true := by
  simp [descends]

/-- Without children, a process is its only descendant. -/
theorem eq_of_descends (hp : ∀ q r, s.proc q = some r → r.parent ≠ p) :
    ∀ n q, s.descends p n q = true → q = p := by
  intro n
  induction n with
  | zero => intro q h; simp [descends] at h
  | succ n ih =>
      intro q h
      simp only [descends, Bool.or_eq_true, beq_iff_eq, Option.any_eq_true] at h
      rcases h with h | ⟨r, hr, hd⟩
      · exact h
      · exact absurd (ih _ hd) (hp q r hr)

theorem kill_proc : (s.kill p).proc q = if s.descends p s.nextPid q then none else s.proc q := rfl

theorem proc_of_kill (h : (s.kill p).proc q = some r) :
    s.proc q = some r ∧ s.descends p s.nextPid q = false := by
  rw [kill_proc] at h
  split at h
  · exact absurd h (by simp)
  · next hd => exact ⟨h, by simpa using hd⟩

end Descends
end State

/-- The Instantiator has not yet given the semaphore its initial unit. -/
def TestPoint.past : Sem → TestPoint → Bool
  | .swapSemaphore, .initSemaphores | .swapSemaphore, .initSwapPool => true
  | .termWriteSemaphore, .initSemaphores | .termReadSemaphore, .initSemaphores => true
  | _, _ => false

/-- A U-proc stands between its P and its V on the semaphore. -/
def Control.past (x : Sem) : Control → Bool
  | run code => code.past x
  | pager _ back pt => back.past x || x == .swapSemaphore && match pt with
      | .cause _ | .passeren => false
      | _ => true
  | sys2 pt => x == .swapSemaphore && match pt with
      | .releaseMutex | .sweep | .verhogen => true
      | _ => false
  | sys6 _ _ => false

def Body.past (x : Sem) : Body → Bool
  | .test pt => pt.past x
  | .uproc _ c => c.past x

namespace State
variable {s s' : State} {p q : ℕ} {inp : Input} {r : Proc} {vm : Vm} {x y : Sem} {a : Asid}
  {c : Control}

/-- The processes past their P on the semaphore. -/
def past (s : State) (x : Sem) (p : ℕ) : Prop := ∃ r, s.proc p = some r ∧ r.body.past x = true

theorem past_iff (h : s.proc p = some r) : s.past x p ↔ r.body.past x = true := by
  simp [past, h]

theorem past_congr (h : s'.proc p = s.proc p) : s'.past x p ↔ s.past x p := by
  rw [past, past, h]

/-- What a step does to the place of its process with respect to a semaphore. -/
inductive Crosses (x : Sem) : Service → Bool → Bool → Prop
  | passeren : Crosses x (.passeren x) false true
  | verhogen : Crosses x (.verhogen x) true false
  | stays {svc : Service} {b : Bool} (hp : svc ≠ .passeren x) (hv : svc ≠ .verhogen x)
      (hi : svc = .initSemaphores → x = .swapSemaphore) : Crosses x svc b b

theorem Crosses.of_verhogen {b b' : Bool} (h : Crosses x (.verhogen x) b b') :
    b = true ∧ b' = false := by
  cases h with
  | verhogen => exact ⟨rfl, rfl⟩
  | stays _ hv => exact absurd rfl hv

theorem serve_sem_of_ne {svc : Service} (hp : svc ≠ .passeren x) (hv : svc ≠ .verhogen x)
    (hi : svc = .initSemaphores → x = .swapSemaphore) (ht : svc ≠ .term) :
    (s.serve p svc).sem x = s.sem x := by
  cases svc with
  | none => rfl
  | initSemaphores =>
      rw [hi rfl]
      rfl
  | passeren y => exact setSem_of_ne fun he => hp (he ▸ rfl)
  | verhogen y => exact setSem_of_ne fun he => hv (he ▸ rfl)
  | create a ok => cases ok <;> rfl
  | term => exact absurd rfl ht

theorem serve_proc {svc : Service} (hc : ∀ a, svc ≠ .create a true) (ht : svc ≠ .term) :
    (s.serve p svc).proc = s.proc := by
  cases svc with
  | none | initSemaphores | passeren | verhogen => rfl
  | create a ok =>
      cases ok
      · rfl
      · exact absurd rfl (hc a)
  | term => exact absurd rfl ht

/-- A new U-proc is not past any P. -/
theorem past_create (hn : s.proc s.nextPid = none) :
    (s.serve p (.create a true)).past x q ↔ s.past x q := by
  by_cases hq : q = s.nextPid
  · subst hq
    simp [past, serve, hn, Body.past, Control.past, Code.past]
  · exact past_congr (Function.update_of_ne hq ..)

theorem past_serve {svc : Service} (hn : s.proc s.nextPid = none) (ht : svc ≠ .term) :
    (s.serve p svc).past x q ↔ s.past x q := by
  by_cases hc : ∃ a, svc = .create a true
  · obtain ⟨a, rfl⟩ := hc
    exact past_create hn
  · rw [not_exists] at hc
    exact past_congr (congrFun (serve_proc hc ht) q)

theorem past_kill : (s.kill p).past x q ↔ s.past x q ∧ s.descends p s.nextPid q = false := by
  constructor
  · rintro ⟨r, hr, hpast⟩
    obtain ⟨hr, hd⟩ := proc_of_kill hr
    exact ⟨⟨r, hr, hpast⟩, hd⟩
  · rintro ⟨⟨r, hr, hpast⟩, hd⟩
    refine ⟨r, ?_, hpast⟩
    rw [kill_proc, hd]
    exact hr

section Step
variable {r' : Proc} {svc : Service}

theorem past_move_of_ne (h : q ≠ p) : (s.move p r' vm).past x q ↔ s.past x q :=
  past_congr (move_of_ne h)

theorem past_move_self : (s.move p r' vm).past x p ↔ r'.body.past x = true := past_iff move_self

theorem past_move_same (hp : s.proc p = some r) (h : r'.body.past x = r.body.past x) :
    (s.move p r' vm).past x q ↔ s.past x q := by
  by_cases hq : q = p
  · rw [hq, past_move_self, past_iff hp, h]
  · exact past_move_of_ne hq

theorem move_fresh (hp : s.proc p = some r) (hn : s.proc s.nextPid = none) :
    (s.move p r' vm).proc s.nextPid = none := by
  have hne : s.nextPid ≠ p := fun he => by rw [he, hp] at hn; exact absurd hn (by simp)
  rw [move_of_ne hne, hn]

/-- What a step of p that is not its last one does to a semaphore. -/
theorem sem_step (hn : s.proc s.nextPid = none) (hp : s.proc p = some r) (hb : ¬ s.Blocked p)
    (hc : Crosses x svc (r.body.past x) (r'.body.past x)) (ht : svc ≠ .term) :
    (s.sem x).Step (s.past x) p (((s.move p r' vm).serve p svc).past x)
      (((s.move p r' vm).serve p svc).sem x) := by
  generalize hbr : r.body.past x = b at hc
  generalize hbr' : r'.body.past x = b' at hc
  cases hc with
  | passeren =>
      rw [show ((s.move p r' vm).serve p (.passeren x)).sem x = (s.sem x).passeren p from setSem_self]
      change (s.sem x).Step (s.past x) p ((s.move p r' vm).past x) _
      refine .passeren ?_ (past_move_self.mpr hbr') fun q hq => past_move_of_ne hq
      rw [past_iff hp, hbr]
      exact Bool.false_ne_true
  | verhogen =>
      rw [show ((s.move p r' vm).serve p (.verhogen x)).sem x = (s.sem x).verhogen from setSem_self]
      change (s.sem x).Step (s.past x) p ((s.move p r' vm).past x) _
      refine .verhogen ⟨(past_iff hp).mpr hbr, fun hq => hb ⟨x, hq⟩⟩ ?_
        fun q hq => past_move_of_ne hq
      intro hpast
      rw [past_move_self.mp hpast] at hbr'
      exact absurd hbr' (by simp)
  | stays h1 h2 h3 =>
      rw [serve_sem_of_ne h1 h2 h3 ht]
      exact .none fun q =>
        (past_serve (move_fresh hp hn) ht).trans (past_move_same hp (hbr'.trans hbr.symm))

theorem Crosses.of_term {b b' : Bool} (h : Crosses x .term b b') : b' = b := by
  cases h
  rfl

/-- The mutex invariant goes through every step whose process crosses the borders of
its critical section with P and V only. -/
theorem mutex_step (hm : (s.sem x).Mutex (s.past x)) (hn : s.proc s.nextPid = none)
    (hp : s.proc p = some r) (hb : ¬ s.Blocked p)
    (hc : Crosses x svc (r.body.past x) (r'.body.past x)) :
    (((s.move p r' vm).serve p svc).sem x).Mutex (((s.move p r' vm).serve p svc).past x) := by
  by_cases ht : svc = .term
  · subst ht
    refine hm.filter _ fun q => ?_
    rw [Bool.not_eq_true', ← past_move_same hp hc.of_term]
    exact past_kill
  · exact hm.step (sem_step hn hp hb hc ht)

/-- The same for the invariant that names a holder, when a process dies alone. -/
theorem owned_step (hm : (s.sem x).Owned (s.past x)) (hn : s.proc s.nextPid = none)
    (hp : s.proc p = some r) (hb : ¬ s.Blocked p) (hpar : r'.parent = r.parent)
    (hc : Crosses x svc (r.body.past x) (r'.body.past x))
    (ht : svc = .term → r'.body.past x = false ∧ ∀ q r, s.proc q = some r → r.parent ≠ p) :
    (((s.move p r' vm).serve p svc).sem x).Owned (((s.move p r' vm).serve p svc).past x) := by
  by_cases hterm : svc = .term
  · subst hterm
    obtain ⟨hnot, hchild⟩ := ht rfl
    have hmove : ∀ q r₀, (s.move p r' vm).proc q = some r₀ → r₀.parent ≠ p := by
      intro q r₀ hr₀
      by_cases hq : q = p
      · subst hq
        rw [move_self, Option.some.injEq] at hr₀
        rw [← hr₀, hpar]
        exact hchild q r hp
      · rw [move_of_ne hq] at hr₀
        exact hchild q r₀ hr₀
    have hsame : ∀ q, (s.move p r' vm).past x q ↔ s.past x q := fun q =>
      past_move_same hp hc.of_term
    have halive : ∀ q, (s.move p r' vm).past x q →
        (s.move p r' vm).descends p (s.move p r' vm).nextPid q = false := by
      intro q hq
      rw [Bool.eq_false_iff]
      intro hd
      have he := eq_of_descends hmove _ q hd
      rw [he, past_move_self, hnot] at hq
      exact absurd hq (by simp)
    refine hm.filter _ (fun q hq => ?_) fun q => ?_
    · rw [Bool.not_eq_true']
      exact halive q ((hsame q).mpr hq)
    · rw [← hsame q]
      exact past_kill.trans ⟨And.left, fun h => ⟨h, halive q h⟩⟩
  · exact hm.step (sem_step hn hp hb hc hterm)

/-- What a semaphore protects goes through every step in which only the holder touches it
and leaves it ready at its V. -/
theorem protects_step {ready ready' : Prop} {held held' : ℕ → Prop}
    (h : (s.sem x).Protects (s.past x) ready held) (hm : (s.sem x).Mutex (s.past x))
    (hn : s.proc s.nextPid = none) (hp : s.proc p = some r) (hb : ¬ s.Blocked p)
    (hc : Crosses x svc (r.body.past x) (r'.body.past x))
    (ht : svc = .term → r.body.past x = false)
    (hout : r.body.past x = false → (ready → ready') ∧ ∀ q, q ≠ p → held q → held' q)
    (hin : r.body.past x = true → held p →
      (r'.body.past x = true → held' p) ∧ (r'.body.past x = false → ready'))
    (hnext : ready' → ∀ q, q ∈ (s.sem x).queue ∧ q ≠ p ∨ q = p ∧ r.body.past x = false →
      ((s.move p r' vm).serve p svc).past x q → held' q) :
    (((s.move p r' vm).serve p svc).sem x).Protects
      (((s.move p r' vm).serve p svc).past x) ready' held' := by
  by_cases hterm : svc = .term
  · subst hterm
    obtain ⟨hr, hother⟩ := hout (ht rfl)
    refine h.filter _ (fun q => ?_) hr fun q hq => hother q fun he => ?_
    · rw [Bool.not_eq_true', ← past_move_same hp hc.of_term]
      exact past_kill
    · rw [he, past_iff hp, ht rfl] at hq
      exact Bool.false_ne_true hq
  · have hstep : (s.sem x).Step (s.past x) p (((s.move p r' vm).serve p svc).past x)
        (((s.move p r' vm).serve p svc).sem x) := sem_step hn hp hb hc hterm
    have hself : ((s.move p r' vm).serve p svc).past x p ↔ r'.body.past x = true :=
      (past_serve (move_fresh hp hn) hterm).trans past_move_self
    refine h.step hm hstep (fun hh => hout ?_) (fun hh hheld => ?_) fun hr q hq => hnext hr q ?_
    · rw [Bool.eq_false_iff]
      exact fun hpast => hh ⟨(past_iff hp).mpr hpast, fun hq => hb ⟨x, hq⟩⟩
    · obtain ⟨h1, h2⟩ := hin ((past_iff hp).mp hh.1) hheld
      refine ⟨fun hp' => h1 (hself.mp hp'), fun hn' => h2 ?_⟩
      rw [Bool.eq_false_iff]
      exact fun hp' => hn' (hself.mpr hp')
    · rcases hq with hq | ⟨he, hnot⟩
      · exact .inl hq
      · refine .inr ⟨he, ?_⟩
        rw [Bool.eq_false_iff]
        exact fun hpast => hnot ((past_iff hp).mpr hpast)

end Step

/-- The processes after a step: the one that took it unless it is gone, the others,
and a new one. -/
theorem proc_after {r' : Proc} {svc : Service} (hlt : p < s.nextPid)
    (h : ((s.move p r' vm).serve p svc).proc q = some r) :
    q = p ∧ r = r' ∧ svc ≠ .term ∨ q ≠ p ∧ s.proc q = some r ∨
      ∃ a, svc = .create a true ∧ q = s.nextPid ∧ r = ⟨p, .uproc a (.run .user)⟩ := by
  by_cases ht : svc = .term
  · subst ht
    obtain ⟨h, hd⟩ := proc_of_kill h
    have hne : q ≠ p := by
      intro he
      obtain ⟨n, hn⟩ : ∃ n, s.nextPid = n + 1 := ⟨s.nextPid - 1, by omega⟩
      rw [he, move_nextPid, hn, descends_self] at hd
      exact absurd hd (by simp)
    rw [move_of_ne hne] at h
    exact .inr (.inl ⟨hne, h⟩)
  · by_cases hcr : ∃ a, svc = .create a true
    · obtain ⟨a, rfl⟩ := hcr
      by_cases hq : q = s.nextPid
      · subst hq
        have hnew : ((s.move p r' vm).serve p (.create a true)).proc s.nextPid =
            some ⟨p, .uproc a (.run .user)⟩ := Function.update_self ..
        rw [hnew, Option.some.injEq] at h
        exact .inr (.inr ⟨a, rfl, rfl, h.symm⟩)
      · have hsame : ((s.move p r' vm).serve p (.create a true)).proc q = (s.move p r' vm).proc q :=
          Function.update_of_ne hq ..
        rw [hsame] at h
        by_cases hqp : q = p
        · subst hqp
          rw [move_self, Option.some.injEq] at h
          exact .inl ⟨rfl, h.symm, ht⟩
        · rw [move_of_ne hqp] at h
          exact .inr (.inl ⟨hqp, h⟩)
    · rw [not_exists] at hcr
      rw [serve_proc hcr ht] at h
      by_cases hqp : q = p
      · subst hqp
        rw [move_self, Option.some.injEq] at h
        exact .inl ⟨rfl, h.symm, ht⟩
      · rw [move_of_ne hqp] at h
        exact .inr (.inl ⟨hqp, h⟩)

/-- The other processes stay, unless they are killed. -/
theorem proc_keep {r' : Proc} {svc : Service} (hn : q ≠ s.nextPid) (hq : q ≠ p)
    (ht : svc = .term → (s.move p r' vm).descends p s.nextPid q = false) :
    ((s.move p r' vm).serve p svc).proc q = s.proc q := by
  by_cases hterm : svc = .term
  · subst hterm
    rw [serve, kill_proc, move_nextPid, ht rfl]
    exact move_of_ne hq
  · by_cases hc : ∃ a, svc = .create a true
    · obtain ⟨a, rfl⟩ := hc
      have hsame : ((s.move p r' vm).serve p (.create a true)).proc q = (s.move p r' vm).proc q :=
        Function.update_of_ne hn ..
      rw [hsame, move_of_ne hq]
    · rw [not_exists] at hc
      rw [serve_proc hc hterm, move_of_ne hq]

/-- The process that took the step stays, unless it ended itself. -/
theorem proc_self {r' : Proc} {svc : Service} (hn : p ≠ s.nextPid) (ht : svc ≠ .term) :
    ((s.move p r' vm).serve p svc).proc p = some r' := by
  by_cases hc : ∃ a, svc = .create a true
  · obtain ⟨a, rfl⟩ := hc
    have hsame : ((s.move p r' vm).serve p (.create a true)).proc p = (s.move p r' vm).proc p :=
      Function.update_of_ne hn ..
    rw [hsame, move_self]
  · rw [not_exists] at hc
    rw [serve_proc hc ht, move_self]

/-- Whoever waits after a step waited before, or has just requested a P. -/
theorem mem_queue_after {r' : Proc} {svc : Service}
    (h : q ∈ (((s.move p r' vm).serve p svc).sem x).queue) :
    q ∈ (s.sem x).queue ∧ (svc = .term → (s.move p r' vm).descends p s.nextPid q = false) ∨
      q = p ∧ svc = .passeren x := by
  cases svc with
  | none => exact .inl ⟨h, by simp⟩
  | initSemaphores =>
      refine .inl ⟨?_, by simp⟩
      cases x <;> exact h
  | passeren y =>
      by_cases hy : x = y
      · subst hy
        rw [show ((s.move p r' vm).serve p (.passeren x)).sem x = (s.sem x).passeren p from
          setSem_self, Semaphore.passeren] at h
        split at h
        · exact .inl ⟨h, by simp⟩
        · rcases List.mem_append.mp h with h | h
          · exact .inl ⟨h, by simp⟩
          · exact .inr ⟨List.mem_singleton.mp h, rfl⟩
      · rw [show ((s.move p r' vm).serve p (.passeren y)).sem x = s.sem x from setSem_of_ne hy] at h
        exact .inl ⟨h, by simp⟩
  | verhogen y =>
      by_cases hy : x = y
      · subst hy
        rw [show ((s.move p r' vm).serve p (.verhogen x)).sem x = (s.sem x).verhogen from
          setSem_self, Semaphore.verhogen] at h
        refine .inl ⟨?_, by simp⟩
        split at h
        · exact h
        · next hqueue =>
          rw [hqueue]
          exact List.mem_cons_of_mem _ h
      · rw [show ((s.move p r' vm).serve p (.verhogen y)).sem x = s.sem x from setSem_of_ne hy] at h
        exact .inl ⟨h, by simp⟩
  | create a ok =>
      refine .inl ⟨?_, by simp⟩
      cases ok <;> exact h
  | term =>
      obtain ⟨h, hd⟩ := List.mem_filter.mp h
      exact .inl ⟨h, fun _ => by simpa using hd⟩

end State
end PandOSsh.SupportLevel
