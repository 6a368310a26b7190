import PandOSsh.SupportLevel.Exclusion
import PandOSsh.SupportLevel.SwapPool

/-!
# Paging in every run

The stages of all U-procs and the coherence of the tables, carried over the steps
of the system. As long as the holder of `swapSemaphore` has a frame out of use, it
is the only one who may proceed in the critical section.
-/

namespace PandOSsh.SupportLevel
open Library Coherent

/-- A frame is out of use, and the holder of `swapSemaphore`, if it is still there, is
working on it. -/
def Engaged (s : State) : Prop :=
  (s.sem .swapSemaphore).value = 0 ∧
    ∀ p a c, s.uproc p = some (a, c) → s.Inside p → c.working = true

/-- What holds in every run: the tables agree, and every U-proc is at its stage. -/
structure Paged (exact : Prop) (s : State) (vacant : Set Asid) (busy : Busy) : Prop where
  orderly : Orderly s vacant
  coherent : Coherent exact s.vm vacant busy
  stage : ∀ p a c, s.uproc p = some (a, c) → Stage s.vm vacant busy a c
  testing : ∀ p parent pt, s.proc p = some ⟨parent, .test pt⟩ → pt = .passeren ∨ pt = .term
  engaged : busy ≠ .idle → Engaged s

/-- `supportPool` is zeroed storage: no page is present before the first page fault. -/
structure Unpaged (s : State) : Prop extends Started s where
  absent : ∀ a k, ¬ Present s.vm a k

section Initial
variable {exact : Prop} {s : State} {a b : Asid} {flash : Word → BitVec 24 → Page}

theorem Unpaged.paged (h : Unpaged s) : Paged exact s s.unused .idle := by
  have hfree : ∀ i, s.vm.swapPool i = Vm.freeEntry := by
    intro i
    rw [← h.swapPool]
    rfl
  have huser : ∀ p a c, s.uproc p = some (a, c) → c = .run .user := by
    intro p a c hp
    obtain ⟨parent, hp'⟩ := State.uproc_eq_some.mp hp
    exact (uproc_fresh hp' (h.fresh p _ hp').1 hp).2
  refine { orderly := h.toStarted.orderly, coherent := ?_, stage := ?_, testing := ?_, engaged := ?_ }
  · constructor
    · intro a ha
      simp only [State.unused, Set.mem_ofPred_eq, not_forall, not_not] at ha
      obtain ⟨p, c, hp⟩ := ha
      obtain ⟨parent, hp'⟩ := State.uproc_eq_some.mp hp
      rw [← h.table p _ a hp' (uproc_fresh hp' (h.fresh p _ hp').1 hp).1]
      exact init_built
    · intro hi lo hlo
      rw [h.tlb] at hlo
      exact absurd hlo (by simp)
    · intro a k hp
      exact absurd hp (h.absent a k)
    · intro i _
      exact .inl (hfree i)
    · intro _ i a k _ hi
      rw [hfree] at hi
      exact absurd (congrArg SwapEntry.swAsid hi).symm (entry_swAsid_ne a k)
    · intro _ i a k hb
      exact absurd hb (by simp [Busy.at])
  · intro p a c hp
    rw [huser p a c hp]
    trivial
  · intro p parent pt hp
    have hf := (h.fresh p _ hp).1
    cases hf
    exact .inl rfl
  · intro hne
    exact absurd rfl hne

theorem startState_unpaged (h : a ≠ b) : Unpaged (startState a b flash) := by
  refine { toStarted := startState_started h flash, absent := fun x k => ?_ }
  simp [Present, startState, startVm, isValid, dirtyOn, validOn]

end Initial

section Step
variable {exact : Prop} {s s' : State} {vacant vacant' : Set Asid} {busy : Busy} {p q : ℕ}
  {inp : Input} {a b : Asid} {c c' : Control} {vm : Vm} {svc : Service} {parent : ℕ} {r r' : Proc}

/-- A step from outside the critical section lets nobody in while a frame is out of use. -/
theorem Engaged.outside (h : Engaged s) (hlt : p < s.nextPid)
    (hc : State.Crosses .swapSemaphore svc false (r'.body.past .swapSemaphore)) :
    Engaged ((s.move p r' vm).serve p svc) := by
  generalize hr' : r'.body.past .swapSemaphore = b' at hc
  cases hc with
  | passeren =>
      have hsem : ((s.move p r' vm).serve p (.passeren .swapSemaphore)).sem .swapSemaphore =
          ⟨(s.sem .swapSemaphore).value, (s.sem .swapSemaphore).queue ++ [p]⟩ := by
        rw [show ((s.move p r' vm).serve p (.passeren .swapSemaphore)).sem .swapSemaphore =
          (s.sem .swapSemaphore).passeren p from State.setSem_self, Semaphore.passeren, if_neg]
        rw [h.1]
        omega
      refine ⟨by rw [hsem]; exact h.1, fun q a c hq hin => ?_⟩
      rw [State.Inside, Semaphore.Holds, hsem] at hin
      simp only [List.mem_append, List.mem_singleton, not_or] at hin
      have hsame : (s.move p r' vm).uproc q = s.uproc q := State.move_uproc_of_ne hin.2.2
      have hpq : (s.move p r' vm).past .swapSemaphore q ↔ s.past .swapSemaphore q :=
        State.past_move_of_ne hin.2.2
      exact h.2 q a c (hsame ▸ hq) ⟨hpq.mp hin.1, hin.2.1⟩
  | stays hpass hver hinit =>
      have hval : (((s.move p r' vm).serve p svc).sem .swapSemaphore).value = 0 := by
        by_cases ht : svc = .term
        · subst ht
          exact h.1
        · rw [State.serve_sem_of_ne hpass hver hinit ht]
          exact h.1
      refine ⟨hval, fun q a c hq hin => ?_⟩
      obtain ⟨parent, hproc⟩ := State.uproc_eq_some.mp hq
      rw [State.Inside, Semaphore.Holds, State.past_iff hproc] at hin
      rcases State.proc_after hlt hproc with ⟨_, hr, _⟩ | ⟨hne, hold⟩ | ⟨_, _, _, hr⟩
      · rw [hr, hr'] at hin
        exact absurd hin.1 (by simp)
      · refine h.2 q a c (State.uproc_of_proc hold) ⟨(State.past_iff hold).mpr hin.1, fun hm => ?_⟩
        by_cases ht : svc = .term
        · subst ht
          have hd := (State.proc_of_kill hproc).2
          exact hin.2 (List.mem_filter.mpr ⟨hm, by rw [hd]; rfl⟩)
        · rw [State.serve_sem_of_ne hpass hver hinit ht] at hin
          exact hin.2 hm
      · rw [hr] at hin
        exact absurd hin.1 (by simp [Body.past, Control.past, Code.past])

theorem Control.past_of_working (h : c.working = true) : c.past .swapSemaphore = true := by
  cases c with
  | pager hi back pt =>
      cases pt with
      | write | read | record | install => simp [Control.past]
      | cause | passeren | setFlag | choose | evict | clearFlagFailed | verhogenFailed | clearFlag |
        verhogen => exact absurd h (by simp [Control.working])
  | run | sys2 | sys6 => exact absurd h (by simp [Control.working])

/-- The holder goes on working, or gives the frame back before its V. -/
theorem Engaged.holder (hord : Orderly s vacant) (h : busy ≠ .idle → Engaged s)
    (hp : s.proc p = some ⟨parent, .uproc a c⟩) (hb : ¬ s.Blocked p)
    (hm : Moves a s.vm c inp c' vm svc) (hpast : c.past .swapSemaphore = true)
    (hc : State.Crosses .swapSemaphore svc (c.past .swapSemaphore) (c'.past .swapSemaphore))
    (hne : c'.busy busy ≠ .idle) : Engaged ((s.move p ⟨parent, .uproc a c'⟩ vm).serve p svc) := by
  have hin : s.Inside p := ⟨(State.past_iff hp).mpr hpast, fun hq => hb ⟨_, hq⟩⟩
  have hlt := hord.bound _ _ hp
  have hwork : busy ≠ .idle → c.working = true := fun hbusy =>
    (h hbusy).2 p a c (State.uproc_of_proc hp) hin
  have hw : c'.working = true := by
    by_contra hnw
    rw [Bool.not_eq_true] at hnw
    rcases Control.busy_eq hnw with he | he
    · exact hne he
    · rw [he] at hne
      rcases hm.working (hwork hne) with hw | hi
      · rw [hnw] at hw
        exact absurd hw (by simp)
      · rw [he] at hi
        exact hne hi
  rw [hpast, Control.past_of_working hw] at hc
  cases hc with
  | stays hpass hver hinit =>
      have ht : svc ≠ .term := by
        intro ht
        subst ht
        rw [hm.of_term.2] at hw
        exact absurd hw (by simp [Control.working])
      have hsem : ((s.move p ⟨parent, .uproc a c'⟩ vm).serve p svc).sem .swapSemaphore =
          s.sem .swapSemaphore := State.serve_sem_of_ne hpass hver hinit ht
      refine ⟨by rw [hsem]; exact hord.mutex.value_eq_zero hin.1, fun q b d hq hq' => ?_⟩
      rcases uproc_after hlt hq with ⟨_, _, rfl, _⟩ | ⟨hqp, hold⟩ | ⟨rfl, rfl, rfl⟩
      · exact hw
      · obtain ⟨par, hq₀⟩ := State.uproc_eq_some.mp hq
        obtain ⟨par', hold'⟩ := State.uproc_eq_some.mp hold
        rw [State.Inside, Semaphore.Holds, State.past_iff hq₀, hsem] at hq'
        exact absurd (hord.mutex.unique q p ⟨(State.past_iff hold').mpr hq'.1, hq'.2⟩ hin) hqp
      · obtain ⟨par, hq₀⟩ := State.uproc_eq_some.mp hq
        rw [State.Inside, Semaphore.Holds, State.past_iff hq₀] at hq'
        exact absurd hq'.1 (by simp [Body.past, Control.past, Code.past])

/-- What the holder of the Swap Pool is doing after a step of p. -/
def State.busyAfter (s' : State) (p : ℕ) (busy : Busy) : Busy :=
  (s'.uproc p).elim busy fun x => x.2.busy busy

theorem busyAfter_uproc (hm : Moves a s.vm c inp c' vm svc) (hlt : p < s.nextPid) :
    ((s.move p ⟨parent, .uproc a c'⟩ vm).serve p svc).busyAfter p busy = c'.busy busy := by
  rw [State.busyAfter]
  by_cases ht : svc = .term
  · subst ht
    cases hu : ((s.move p ⟨parent, .uproc a c'⟩ vm).serve p .term).uproc p with
    | none =>
        rw [hm.of_term.2]
        rfl
    | some x =>
        rcases uproc_after hlt hu with ⟨_, _, _, hne⟩ | ⟨hne, _⟩ | ⟨hc, _⟩
        · exact absurd rfl hne
        · exact absurd rfl hne
        · exact absurd hc (by simp)
  · rw [State.uproc_of_proc (State.proc_self (Nat.ne_of_lt hlt) ht)]
    rfl

theorem busyAfter_test {pt' : TestPoint} (hlt : p < s.nextPid) :
    ((s.move p ⟨parent, .test pt'⟩ vm).serve p svc).busyAfter p busy = busy := by
  rw [State.busyAfter]
  cases hu : ((s.move p ⟨parent, .test pt'⟩ vm).serve p svc).uproc p with
  | none => rfl
  | some x =>
      rcases uproc_after_test hlt hu with ⟨hne, _⟩ | ⟨_, hp, _⟩
      · exact absurd rfl hne
      · omega

/-- The tables remain coherent when an ASID is given out or given back. -/
theorem coherent_vacancy (h : Coherent exact vm vacant busy) (hs : s.service (p, inp) = svc)
    (hcreate : ∀ b, svc = .create b true → Built vm b)
    (hterm : svc = .term → ∀ b c, s.uproc p = some (b, c) → Swept vm b) :
    Coherent exact vm (s.vacancy (p, inp) s' vacant) busy := by
  unfold State.vacancy
  rw [hs]
  split
  · exact h.create (hcreate _ rfl)
  · cases hu : s.uproc p with
    | none => simpa using h
    | some x =>
        refine h.vacate (hterm rfl x.1 x.2 hu) (fun b hb => ?_) fun b hb => .inl hb
        rcases hb with hb | ⟨c, hc⟩
        · exact .inl hb
        · rw [Option.some.injEq] at hc
          exact .inr (congrArg Prod.fst hc).symm
  · exact h

/-- Whose ASID becomes vacant has swept its frames. -/
theorem swept_of_vacancy (hs : s.service (p, inp) = svc)
    (hterm : svc = .term → ∀ b c, s.uproc p = some (b, c) → Swept vm b) (hb : b ∉ vacant) :
    b ∉ s.vacancy (p, inp) s' vacant ∨ Swept vm b := by
  by_cases hv : b ∈ s.vacancy (p, inp) s' vacant
  · rcases mem_vacancy hv with ⟨h, _⟩ | ⟨ht, c, hc⟩
    · exact absurd h hb
    · exact .inr (hterm (hs ▸ ht) b c hc)
  · exact .inl hv

theorem Paged.hold (h : Paged exact s vacant busy)
    (hp : s.proc p = some ⟨parent, .uproc a c⟩) (hb : ¬ s.Blocked p)
    (hpast : c.past .swapSemaphore = true) (hw : c.working = false) : busy = .idle := by
  by_contra hne
  have hin : s.Inside p := ⟨(State.past_iff hp).mpr hpast, fun hq => hb ⟨_, hq⟩⟩
  rw [(h.engaged hne).2 p a c (State.uproc_of_proc hp) hin] at hw
  exact absurd hw (by simp)

theorem Paged.moves (h : Paged exact s vacant busy)
    (hp : s.proc p = some ⟨parent, .uproc a c⟩) (hb : ¬ s.Blocked p)
    (hm : Moves a s.vm c inp c' vm svc) (hprep : ∀ a, s.prepares p = some a → a ∈ vacant)
    (hrel : exact → Reloads s (p, inp)) :
    Coherent exact vm vacant (c'.busy busy) ∧ Stage vm vacant (c'.busy busy) a c' := by
  have hu := State.uproc_of_proc hp
  refine hm.coherent h.coherent (h.orderly.inUse p a c hu) (h.stage p a c hu) (h.hold hp hb)
    (fun child hc => hprep child ?_) fun he hi back i w hc hinp => ?_
  · rw [State.prepares, hp, hc]
    rfl
  · subst hc
    exact hrel he a hi back i w hu hinp

theorem Paged.crosses (h : Paged exact s vacant busy)
    (hp : s.proc p = some ⟨parent, .uproc a c⟩) (hm : Moves a s.vm c inp c' vm svc) :
    State.Crosses .swapSemaphore svc (c.past .swapSemaphore) (c'.past .swapSemaphore) := by
  refine hm.crosses_swap fun hc => ?_
  subst hc
  exact h.orderly.flag_of_checkFlag (State.uproc_of_proc hp)

theorem Paged.testing_step {pt : TestPoint} (h : Paged exact s vacant busy) (hs : Steps s p inp s')
    (hq : s'.proc q = some ⟨parent, .test pt⟩) : pt = .passeren ∨ pt = .term := by
  cases hs with
  | test hp hb hsvc hm =>
      rcases State.proc_after (h.orderly.bound _ _ hp) hq with ⟨_, hr, ht⟩ | ⟨_, hq⟩ | ⟨b, _, _, hr⟩
      · simp only [Proc.mk.injEq, Body.test.injEq] at hr
        rw [hr.2]
        rcases h.testing p _ _ hp with rfl | rfl <;> cases hm
        · exact .inr rfl
        · exact absurd rfl ht
      · exact h.testing q parent pt hq
      · simp at hr
  | uproc hp hb hsvc hm =>
      rcases State.proc_after (h.orderly.bound _ _ hp) hq with ⟨_, hr, _⟩ | ⟨_, hq⟩ | ⟨b, _, _, hr⟩
      · simp at hr
      · exact h.testing q parent pt hq
      · simp at hr

/-- Who is past its P on `swapSemaphore` and not blocked is the holder. -/
theorem Paged.holder (h : Paged exact s vacant busy) (hp : s.proc p = some ⟨parent, .uproc a c⟩)
    (hb : ¬ s.Blocked p) (hpast : c.past .swapSemaphore = true) (hq : s.Inside q) : q = p := by
  have hin : s.Inside p := ⟨(State.past_iff hp).mpr hpast, fun hq => hb ⟨_, hq⟩⟩
  exact h.orderly.mutex.unique q p hq hin

theorem Paged.stage_uproc (h : Paged exact s vacant busy)
    (hp : s.proc p = some ⟨parent, .uproc a c⟩) (hb : ¬ s.Blocked p)
    (hm : Moves a s.vm c inp c' vm svc) (hst : Stage vm vacant (c'.busy busy) a c')
    (hq : ((s.move p ⟨parent, .uproc a c'⟩ vm).serve p svc).uproc q = some (b, d)) :
    Stage vm vacant (c'.busy busy) b d := by
  have hu := State.uproc_of_proc hp
  rcases uproc_after (h.orderly.bound _ _ hp) hq with ⟨_, rfl, rfl, _⟩ | ⟨hne, hq₁⟩ | ⟨_, _, rfl⟩
  · exact hst
  · have hba : b ≠ a := by
      rintro rfl
      exact hne (h.orderly.distinct q p b d c hq₁ hu)
    refine (h.stage q b d hq₁).other hm (h.coherent.built a (h.orderly.inUse p a c hu)) hba
      fun hd he => ?_
    by_contra hpast
    rw [Bool.not_eq_false] at hpast
    exact hne (h.holder hp hb hpast (h.orderly.inside hq₁ hd he))
  · trivial

theorem Paged.engaged_uproc (h : Paged exact s vacant busy)
    (hp : s.proc p = some ⟨parent, .uproc a c⟩) (hb : ¬ s.Blocked p)
    (hm : Moves a s.vm c inp c' vm svc) (hne : c'.busy busy ≠ .idle) :
    Engaged ((s.move p ⟨parent, .uproc a c'⟩ vm).serve p svc) := by
  cases hpast : c.past .swapSemaphore with
  | true => exact Engaged.holder h.orderly h.engaged hp hb hm hpast (h.crosses hp hm) hne
  | false =>
      rw [(hm.outside hpast).2] at hne
      have hcross := h.crosses hp hm
      rw [hpast] at hcross
      exact (h.engaged hne).outside (h.orderly.bound _ _ hp) hcross

theorem Paged.step_test {pt pt' : TestPoint} (h : Paged exact s vacant busy)
    (hp : s.proc p = some ⟨parent, .test pt⟩) (hsvc : s.service (p, inp) = svc)
    (hm : TestMoves s.vm pt inp pt' vm svc) :
    let s' := (s.move p ⟨parent, .test pt'⟩ vm).serve p svc
    Coherent exact s'.vm (s.vacancy (p, inp) s' vacant) busy ∧
      (∀ q b d, s'.uproc q = some (b, d) → Stage s'.vm (s.vacancy (p, inp) s' vacant) busy b d) ∧
      (busy ≠ .idle → Engaged s') := by
  have hlt := h.orderly.bound _ _ hp
  have hnone : ∀ b c, s.uproc p = some (b, c) → Swept vm b := by
    intro b c hu
    obtain ⟨par, hp'⟩ := State.uproc_eq_some.mp hu
    rw [hp] at hp'
    exact absurd hp' (by simp)
  have hquiet : vm = s.vm ∧ (∀ b, svc ≠ .create b true) ∧ pt.past .swapSemaphore = false := by
    rcases h.testing p parent pt hp with rfl | rfl <;> cases hm <;> simp [TestPoint.past]
  obtain ⟨rfl, hcr, hpast⟩ := hquiet
  refine ⟨?_, fun q b d hq => ?_, fun hne => ?_⟩
  · rw [State.serve_vm]
    exact coherent_vacancy h.coherent hsvc (fun b hc => absurd hc (hcr b)) fun _ => hnone
  · rw [State.serve_vm]
    rcases uproc_after_test hlt hq with ⟨_, hq⟩ | ⟨hc, _, _⟩
    · exact (h.stage q b d hq).vacancy fun x => swept_of_vacancy hsvc fun _ => hnone
    · exact absurd hc (hcr b)
  · have hcross := hm.crosses_swap
    rw [hpast] at hcross
    exact (h.engaged hne).outside hlt hcross

theorem Paged.step_uproc (h : Paged exact s vacant busy)
    (hp : s.proc p = some ⟨parent, .uproc a c⟩) (hb : ¬ s.Blocked p)
    (hsvc : s.service (p, inp) = svc) (hm : Moves a s.vm c inp c' vm svc)
    (hprep : ∀ a, s.prepares p = some a → a ∈ vacant) (hrel : exact → Reloads s (p, inp)) :
    let s' := (s.move p ⟨parent, .uproc a c'⟩ vm).serve p svc
    Coherent exact s'.vm (s.vacancy (p, inp) s' vacant) (c'.busy busy) ∧
      (∀ q b d, s'.uproc q = some (b, d) →
        Stage s'.vm (s.vacancy (p, inp) s' vacant) (c'.busy busy) b d) ∧
      (c'.busy busy ≠ .idle → Engaged s') := by
  have hu := State.uproc_of_proc hp
  obtain ⟨hcoh, hst⟩ := h.moves hp hb hm hprep hrel
  have hterm : svc = .term → ∀ b d, s.uproc p = some (b, d) → Swept vm b := by
    intro ht b d hb'
    subst ht
    rw [hu, Option.some.injEq, Prod.mk.injEq] at hb'
    rw [hm.of_term.2] at hst
    exact hb'.1 ▸ hst
  refine ⟨?_, fun q b d hq => ?_, h.engaged_uproc hp hb hm⟩
  · rw [State.serve_vm]
    refine coherent_vacancy hcoh hsvc (fun b hc => ?_) hterm
    subst hc
    have hbuilt := h.stage p a c hu
    rw [hm.of_create] at hbuilt
    cases hm
    exact hbuilt
  · rw [State.serve_vm]
    exact (h.stage_uproc hp hb hm hst hq).vacancy fun x => swept_of_vacancy hsvc hterm

theorem Paged.step (h : Paged exact s vacant busy) (hs : Steps s p inp s')
    (hprep : ∀ a, s.prepares p = some a → a ∈ vacant) (hrel : exact → Reloads s (p, inp)) :
    Paged exact s' (s.vacancy (p, inp) s' vacant) (s'.busyAfter p busy) := by
  have hord := h.orderly.step hs hprep
  have htest : ∀ q parent pt, s'.proc q = some ⟨parent, .test pt⟩ → pt = .passeren ∨ pt = .term :=
    fun q parent pt hq => h.testing_step hs hq
  cases hs with
  | test hp hb hsvc hm =>
      rw [busyAfter_test (h.orderly.bound _ _ hp)]
      obtain ⟨hcoh, hst, heng⟩ := h.step_test hp hsvc hm
      exact ⟨hord, hcoh, hst, htest, heng⟩
  | uproc hp hb hsvc hm =>
      rw [busyAfter_uproc hm (h.orderly.bound _ _ hp)]
      obtain ⟨hcoh, hst, heng⟩ := h.step_uproc hp hb hsvc hm hprep hrel
      exact ⟨hord, hcoh, hst, htest, heng⟩

end Step
end PandOSsh.SupportLevel
