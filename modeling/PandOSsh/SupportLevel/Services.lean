import PandOSsh.Library.Processes
import PandOSsh.SupportLevel.Execute

/-!
# The services of the Support Level

The Phase 3 system asks the Nucleus for P, V, CREATEPROCESS and TERMPROCESS
only. What these do to it are the operations of the machine of processes that
the Nucleus implements: the two levels agree on the services between them.
-/

namespace PandOSsh.SupportLevel
open Library

namespace Service

/-- The operation that a service of the process `p` is, when `n` is the next PID. -/
def op (p n : ℕ) : Service → Processes.Op ℕ Sem Unit
  | .passeren x => .passeren p x
  | .verhogen x => .verhogen x
  | .create _ true => .create p n ()
  | .term => .kill p
  | _ => .none

/-- `test` gives the semaphores of the Support Level their values. -/
def values (svc : Service) (m : Processes ℕ Sem Unit) : Processes ℕ Sem Unit :=
  if svc = .initSemaphores then
    m.assign fun x => if x = .swapSemaphore then (m.sem x).value else State.initialValue x
  else m

end Service

namespace State

/-- The Instantiator has no parent among the processes. -/
def processes (s : State) : Processes ℕ Sem Unit where
  info p := (s.proc p).map fun r => ⟨if r.parent = 0 then none else some r.parent, ()⟩
  sem := s.sem

/-- PIDs grow from parent to child. -/
def Born (s : State) : Prop := ∀ p r, s.proc p = some r → r.parent < p ∧ p < s.nextPid

variable {s s' : State} {p q n : ℕ} {r r' : Proc} {vm : Vm} {inp : Input} {svc : Service}

theorem live_processes : s.processes.Live p ↔ ∃ r, s.proc p = some r := by
  rw [Processes.Live, processes, Option.isSome_map, Option.isSome_iff_exists]

theorem child_processes : s.processes.Child p q ↔ ∃ r, s.proc q = some r ∧ r.parent = p ∧ p ≠ 0 := by
  constructor
  · rintro ⟨d, hd⟩
    obtain ⟨r, hr, he⟩ := Option.map_eq_some_iff.mp hd
    refine ⟨r, hr, ?_⟩
    rw [Info.mk.injEq] at he
    have h := he.1
    split at h
    · cases h
    · next h0 =>
      obtain rfl := Option.some.inj h
      exact ⟨rfl, h0⟩
  · rintro ⟨r, hr, rfl, h0⟩
    refine ⟨(), Option.map_eq_some_iff.mpr ⟨r, hr, ?_⟩⟩
    rw [if_neg h0]

/-- The kill of NSYS2 looks as far up as there are PIDs. -/
theorem Born.descends_iff (h : s.Born) (hp : p ≠ 0) (hn : q < n) :
    s.descends p n q = true ↔ s.processes.Below p q := by
  induction n generalizing q with
  | zero => omega
  | succ n ih =>
      rw [descends, Bool.or_eq_true, beq_iff_eq, Option.any_eq_true]
      constructor
      · rintro (rfl | ⟨r, hr, hd⟩)
        · exact .refl
        · have hlt := (h q r hr).1
          have h0 : r.parent ≠ 0 := fun h0 => by
            have hb := (ih (by omega)).mp hd
            rw [h0] at hb
            rcases hb.cases_tail with he | ⟨c, -, hc⟩
            · exact hp he.symm
            · obtain ⟨r₀, hr₀, -⟩ := child_processes.mp hc
              exact absurd (h 0 r₀ hr₀).1 (Nat.not_lt_zero _)
          exact ((ih (by omega)).mp hd).tail (child_processes.mpr ⟨r, hr, rfl, h0⟩)
      · intro hb
        rcases hb.cases_tail with rfl | ⟨c, hc, hcq⟩
        · exact .inl rfl
        · obtain ⟨r, hr, rfl, -⟩ := child_processes.mp hcq
          have hlt := (h q r hr).1
          exact .inr ⟨r, hr, (ih (by omega)).mpr hc⟩

theorem Born.move (h : s.Born) (hp : s.proc p = some r) (hr : r'.parent = r.parent) :
    (s.move p r' vm).Born := by
  intro q r₀ hq
  by_cases hqp : q = p
  · subst hqp
    rw [move_self, Option.some.injEq] at hq
    subst hq
    rw [hr]
    exact h q r hp
  · rw [move_of_ne hqp] at hq
    exact h q r₀ hq

theorem Born.serve (h : s.Born) (hp : p < s.nextPid) : (s.serve p svc).Born := by
  cases svc with
  | none | initSemaphores | passeren | verhogen => exact h
  | create a ok =>
      cases ok with
      | false => exact h
      | true =>
          intro q r hq
          have hq' : Function.update s.proc s.nextPid (some ⟨p, .uproc a (.run .user)⟩) q =
            some r := hq
          have hn : (s.serve p (.create a true)).nextPid = s.nextPid + 1 := rfl
          rw [hn]
          by_cases hqn : q = s.nextPid
          · rw [hqn, Function.update_self, Option.some.injEq] at hq'
            subst hq'
            rw [hqn]
            exact ⟨hp, Nat.lt_succ_self _⟩
          · rw [Function.update_of_ne hqn] at hq'
            exact ⟨(h q r hq').1, Nat.lt_succ_of_lt (h q r hq').2⟩
  | term => exact fun q r hq => h q r (proc_of_kill hq).1

theorem move_processes (hp : s.proc p = some r) (hr : r'.parent = r.parent) :
    (s.move p r' vm).processes = s.processes := by
  refine Processes.ext (funext fun q => ?_) rfl
  simp only [processes]
  by_cases hqp : q = p
  · rw [hqp, move_self, hp, Option.map_some, Option.map_some, hr]
  · rw [move_of_ne hqp]

open Classical in
theorem kill_processes (h : s.Born) (hp : p ≠ 0) (hq : ∀ x, ∀ q ∈ (s.sem x).queue, q < s.nextPid) :
    (s.kill p).processes = s.processes.kill p := by
  refine Processes.ext (funext fun q => ?_) (funext fun x => ?_)
  · have hinfo : (s.processes.kill p).info q =
        if s.processes.Below p q then none else s.processes.info q := rfl
    rw [hinfo]
    cases hr : s.proc q with
    | none =>
        have hk : (s.kill p).proc q = none := by rw [kill_proc, hr, ite_self]
        have h1 : (s.kill p).processes.info q = none := Option.map_eq_none_iff.mpr hk
        have h2 : s.processes.info q = none := Option.map_eq_none_iff.mpr hr
        rw [h1, h2, ite_self]
    | some r =>
        have hd := h.descends_iff hp (h q r hr).2
        by_cases hb : s.processes.Below p q
        · rw [if_pos hb]
          exact Option.map_eq_none_iff.mpr (kill_proc.trans (if_pos (hd.mpr hb)))
        · rw [if_neg hb]
          have hk : (s.kill p).proc q = s.proc q := kill_proc.trans (if_neg fun he => hb (hd.mp he))
          exact congrArg (Option.map _) hk
  · have hfilter : (s.sem x).queue.filter (fun q => !s.descends p s.nextPid q) =
        (s.sem x).queue.filter fun q => ¬ s.processes.Below p q := by
      refine List.filter_congr fun q hm => ?_
      have hd := h.descends_iff hp (hq x q hm)
      by_cases hb : s.processes.Below p q
      · rw [hd.mpr hb, decide_eq_false (not_not.mpr hb)]
        rfl
      · rw [Bool.eq_false_iff.mpr fun he => hb (hd.mp he), decide_eq_true hb]
        rfl
    exact congrArg (Semaphore.mk (s.sem x).value) hfilter

/-- What a service does to the processes. -/
theorem serve_processes (h : s.Born) (hp : p ≠ 0)
    (hq : ∀ x, ∀ q ∈ (s.sem x).queue, q < s.nextPid) :
    (s.serve p svc).processes = (svc.op p s.nextPid).run (svc.values s.processes) := by
  cases svc with
  | none | passeren | verhogen => rfl
  | initSemaphores =>
      refine Processes.ext rfl (funext fun x => ?_)
      cases x <;> rfl
  | create a ok =>
      cases ok with
      | false => rfl
      | true =>
          refine Processes.ext (funext fun q => ?_) rfl
          simp only [processes, Service.op, Processes.Op.run, serve, Service.values,
            Function.update_apply]
          by_cases hqn : q = s.nextPid <;> simp [hqn, hp]
  | term => exact kill_processes h hp hq

/-- What the machine relies on, at the Support Level. -/
structure Familiar (s : State) : Prop where
  born : s.Born
  sound : s.processes.Sound 1

theorem Familiar.queued (h : s.Familiar) : ∀ x, ∀ q ∈ (s.sem x).queue, q < s.nextPid := by
  intro x q hq
  obtain ⟨r, hr⟩ := live_processes.mp (h.sound.live q x hq)
  exact (h.born q r hr).2

/-- The process that takes a step can run, the service it asks for is an operation that
it may ask for, and the processes are as this operation leaves them. -/
structure Serves (s : State) (p : ℕ) (svc : Service) (s' : State) : Prop where
  runnable : s.processes.Runnable p
  allowed : (svc.op p s.nextPid).Allowed (svc.values s.processes)
  done : s'.processes = (svc.op p s.nextPid).run (svc.values s.processes)

theorem Familiar.allowed (h : s.Familiar) (hr : s.processes.Runnable p) :
    (svc.op p s.nextPid).Allowed (svc.values s.processes) := by
  cases svc with
  | passeren => exact hr
  | create a ok =>
      cases ok with
      | false => trivial
      | true =>
          refine ⟨hr.1, fun hl => ?_⟩
          obtain ⟨r, hr⟩ := live_processes.mp hl
          exact absurd (h.born _ r hr).2 (Nat.lt_irrefl _)
  | _ => trivial

theorem Familiar.serves (h : s.Familiar) (hp : s.proc p = some r) (hb : ¬ s.Blocked p)
    (hr : r'.parent = r.parent) :
    Serves s p svc ((s.move p r' vm).serve p svc) ∧ ((s.move p r' vm).serve p svc).Familiar := by
  have hlive : s.processes.Live p := live_processes.mpr ⟨r, hp⟩
  have hrun : s.processes.Runnable p := ⟨hlive, fun x hx => hb ⟨x, hx⟩⟩
  have hallow : (svc.op p s.nextPid).Allowed (svc.values s.processes) := h.allowed hrun
  have hborn : (s.move p r' vm).Born := h.born.move hp hr
  have hsame : (s.move p r' vm).processes = s.processes := move_processes hp hr
  have hdone : ((s.move p r' vm).serve p svc).processes =
      (svc.op p s.nextPid).run (svc.values s.processes) := by
    rw [← hsame]
    exact serve_processes hborn (Nat.ne_zero_of_lt (h.born p r hp).1) h.queued
  have hsound : (svc.values s.processes).Sound 1 := by
    rw [Service.values]
    split
    · exact h.sound.assign _
    · exact h.sound
  exact ⟨⟨hrun, hallow, hdone⟩, hborn.serve (h.born p r hp).2, hdone ▸ hsound.run hallow⟩

theorem Familiar.step (h : s.Familiar) (hs : Steps s p inp s') :
    Serves s p (s.service (p, inp)) s' ∧ s'.Familiar := by
  cases hs with
  | test hp hb hsvc | uproc hp hb hsvc =>
      rw [hsvc]
      exact h.serves hp hb rfl

end State

theorem Boot.familiar {s : State} (hs : Boot s) : s.Familiar := by
  have hone : ∀ p r, s.proc p = some r → p = 1 ∧ r.parent = 0 := by
    intro p r hp
    rw [hs.proc] at hp
    by_cases h1 : p = 1
    · rw [h1, Function.update_self, Option.some.injEq] at hp
      subst hp
      exact ⟨h1, rfl⟩
    · rw [Function.update_of_ne h1] at hp
      cases hp
  have hwait : ∀ q x, ¬ s.processes.Waits q x := fun q x hq => by
    have hq' : q ∈ (s.sem x).queue := hq
    rw [hs.sem] at hq'
    cases hq'
  constructor
  · intro p r hp
    obtain ⟨rfl, h0⟩ := hone p r hp
    rw [h0, hs.nextPid]
    decide
  · refine ⟨⟨fun q hq => ?_, fun p q hc => ?_⟩, fun q x hq => absurd hq (hwait q x), fun x => ?_,
      fun q x y hq => absurd hq (hwait q x)⟩
    · obtain ⟨r, hr⟩ := State.live_processes.mp hq
      rw [(hone q r hr).1]
      exact .refl
    · obtain ⟨r, hr, hpar, h0⟩ := State.child_processes.mp hc
      exact absurd (hpar.symm.trans (hone q r hr).2) h0
    · have hnil : (s.sem x).queue = [] := by rw [hs.sem]
      exact hnil ▸ List.nodup_nil

end PandOSsh.SupportLevel
