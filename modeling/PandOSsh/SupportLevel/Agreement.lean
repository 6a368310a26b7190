import PandOSsh.SupportLevel.Paging

/-!
# Swap Pool and page tables describe each other

While nobody holds `swapSemaphore`, no frame is out of use; so the coherence of
the tables says that the records of the Swap Pool and the valid page table
entries correspond. A FLASHREAD that fails after an eviction breaks this.
-/

namespace PandOSsh.SupportLevel
open Library Coherent

/-- U-procs end in `sys2`: also those that a TERMPROCESS takes with it. -/
def EndsInSys2 (x : State × Set Asid) (e : Event) : Prop :=
  x.1.service e = .term → ∀ q a c, x.1.uproc q = some (a, c) →
    x.1.descends e.1 x.1.nextPid q = true → ∃ pt, c = .sys2 pt

/-- The runs after `initSwapPool`. -/
def pagingRuns : System (State × Set Asid) Event := (supportRuns Unpaged).restrict EndsInSys2

/-- Frame i records the page with index k of a U-proc. -/
def Records (vm : Vm) (i : Frame) (a : Asid) (k : PageIdx) : Prop :=
  (vm.swapPool i).swAsid = a.num ∧ (vm.swapPool i).swPageNo = pageNo k

/-- The Swap Pool and the page tables of live U-procs describe each other. -/
structure Agreement (s : State) : Prop where
  recorded : ∀ i, (s.vm.swapPool i).swAsid ≠ -1 → ∃ a k, Records s.vm i a k ∧
    (s.vm.swapPool i).swPte = some (a, k) ∧ Present s.vm a k ∧
    pfn (s.vm.privatePgTbl a k).entryLO = pfn (physicalFrame i)
  present : ∀ p a c k, s.uproc p = some (a, c) → Present s.vm a k → ∃! i, Records s.vm i a k
  once : ∀ i j a k, Records s.vm i a k → Records s.vm j a k → i = j

section Runs
variable {exact : Prop} {s s' : State} {vacant : Set Asid} {busy : Busy} {p : ℕ} {inp : Input}
  {x : State × Set Asid}

theorem paged_reachable {P : State × Set Asid → Event → Prop}
    (hP : exact → ∀ x e, P x e → Reloads x.1 e)
    (h : ((supportRuns Unpaged).restrict P).Reachable x) : ∃ busy, Paged exact x.1 x.2 busy := by
  refine h.invariant (I := fun x => ∃ busy, Paged exact x.1 x.2 busy) (fun x hx => ?_)
    fun x e x' _ ih hs => ?_
  · rw [hx.2]
    exact ⟨.idle, hx.1.paged⟩
  · obtain ⟨busy, ih⟩ := ih
    obtain ⟨hPe, hprep, hexec, hvac⟩ := hs
    have hstep := ih.step (State.steps_of_exec hexec) hprep fun he => hP he x e hPe
    rw [hvac]
    exact ⟨_, hstep⟩

/-- The U-proc that has a frame out of use is alive. -/
def Worked (s : State) (busy : Busy) : Prop :=
  busy ≠ .idle → ∃ p a c, s.uproc p = some (a, c) ∧ c.working = true

theorem descends_move {r r' : Proc} {vm : Vm} (hp : s.proc p = some r)
    (hpar : r'.parent = r.parent) (q₀ : ℕ) :
    ∀ n q, (s.move p r' vm).descends q₀ n q = s.descends q₀ n q := by
  intro n
  induction n with
  | zero => intro q; rfl
  | succ n ih =>
      intro q
      simp only [State.descends]
      by_cases hq : q = p
      · subst hq
        rw [State.move_self, hp, Option.any_some, Option.any_some, ih, hpar]
      · rw [State.move_of_ne hq]
        cases s.proc q with
        | none => rfl
        | some r => rw [Option.any_some, Option.any_some, ih]

/-- A U-proc at work outlives the step of another process. -/
theorem working_keep {r r' : Proc} {vm : Vm} {svc : Service} {q : ℕ} {a : Asid} {c : Control}
    (hord : Orderly s vacant) (hend : EndsInSys2 (s, vacant) (p, inp)) (hp : s.proc p = some r)
    (hpar : r'.parent = r.parent) (hsvc : s.service (p, inp) = svc) (hqp : q ≠ p)
    (hq : s.uproc q = some (a, c)) (hw : c.working = true) :
    ((s.move p r' vm).serve p svc).uproc q = some (a, c) := by
  obtain ⟨par, hq'⟩ := State.uproc_eq_some.mp hq
  rw [uproc_congr (State.proc_keep (Nat.ne_of_lt (hord.bound q _ hq')) hqp fun ht => ?_), hq]
  rw [Bool.eq_false_iff]
  intro hd
  rw [descends_move hp hpar] at hd
  obtain ⟨pt, rfl⟩ := hend (hsvc.trans ht) q a c hq hd
  exact absurd hw (by simp [Control.working])

theorem Worked.step (h : Worked s busy) (hord : Orderly s vacant) (hs : Steps s p inp s')
    (hend : EndsInSys2 (s, vacant) (p, inp)) : Worked s' (s'.busyAfter p busy) := by
  intro hne
  cases hs with
  | @test parent pt pt' vm svc hp hb hsvc hm =>
      rw [busyAfter_test (hord.bound _ _ hp)] at hne
      obtain ⟨q, a, c, hq, hw⟩ := h hne
      have hqp : q ≠ p := by
        intro he
        subst he
        obtain ⟨par, hq'⟩ := State.uproc_eq_some.mp hq
        rw [hp] at hq'
        exact absurd hq' (by simp)
      exact ⟨q, a, c, working_keep hord hend hp rfl hsvc hqp hq hw, hw⟩
  | @uproc parent a c c' vm svc hp hb hsvc hm =>
      have hlt := hord.bound _ _ hp
      have hu := State.uproc_of_proc hp
      rw [busyAfter_uproc hm hlt] at hne
      cases hw' : c'.working with
      | true =>
          have ht : svc ≠ .term := by
            intro ht
            subst ht
            rw [hm.of_term.2] at hw'
            exact absurd hw' (by simp [Control.working])
          exact ⟨p, a, c', State.uproc_of_proc (State.proc_self (Nat.ne_of_lt hlt) ht), hw'⟩
      | false =>
          rcases Control.busy_eq hw' with he | he
          · exact absurd he hne
          · rw [he] at hne
            obtain ⟨q, b, d, hq, hw⟩ := h hne
            refine ⟨q, b, d, working_keep hord hend hp rfl hsvc (fun hqp => ?_) hq hw, hw⟩
            subst hqp
            rw [hu, Option.some.injEq, Prod.mk.injEq] at hq
            rw [← hq.2] at hw
            rcases hm.working hw with hw'' | hi
            · rw [hw'] at hw''
              exact absurd hw'' (by simp)
            · rw [he] at hi
              exact hne hi

theorem Paged.idle_of_free (h : Paged exact s vacant busy) (hw : Worked s busy)
    (hfree : ∀ p, ¬ s.Inside p) : busy = .idle := by
  by_contra hne
  obtain ⟨p, a, c, hp, hwork⟩ := hw hne
  refine hfree p (h.orderly.inside hp (Control.past_of_working hwork) ?_)
  cases c with
  | pager hi back pt => cases pt <;> first | rfl | exact absurd hwork (by simp [Control.working])
  | run | sys2 | sys6 => exact absurd hwork (by simp [Control.working])

theorem Paged.agreement (h : Paged True s vacant .idle) : Agreement s := by
  have hc := h.coherent
  have hentry : ∀ {i a k}, Records s.vm i a k → s.vm.swapPool i = entry a k := by
    intro i a k ⟨h1, h2⟩
    rcases hc.recorded i (by simp) with hf | ⟨b, l, _, hs⟩
    · have := num_pos a
      rw [hf] at h1
      simp only [Vm.freeEntry] at h1
      omega
    · rw [hs] at h1 h2
      obtain rfl := num_injective h1
      obtain rfl := pageNo_injective h2
      exact hs
  have hlo : ∀ {i a k}, s.vm.swapPool i = entry a k →
      (s.vm.privatePgTbl a k).entryLO = loOf i := fun hs => hc.used trivial _ _ _ rfl hs
  have honce : ∀ i j a k, Records s.vm i a k → Records s.vm j a k → i = j := by
    intro i j a k hi hj
    exact loOf_injective ((hlo (hentry hi)).symm.trans (hlo (hentry hj)))
  constructor
  · intro i hi
    rcases hc.recorded i (by simp) with hf | ⟨a, k, _, hs⟩
    · exact absurd (congrArg SwapEntry.swAsid hf) hi
    · refine ⟨a, k, ⟨by rw [hs]; rfl, by rw [hs]; rfl⟩, by rw [hs]; rfl, ?_, ?_⟩
      · rw [Present, hlo hs]
        exact isValid_loOf i
      · rw [hlo hs, pfn_loOf]
  · intro p a c k hp hpr
    obtain ⟨i, _, hs, _⟩ := hc.mapped a k hpr
    have hi : Records s.vm i a k := ⟨by rw [hs]; rfl, by rw [hs]; rfl⟩
    exact ⟨i, hi, fun j hj => honce j i a k hj hi⟩
  · exact honce

/-- In every run in which no FLASHREAD into an evicted frame fails, whenever nobody holds
`swapSemaphore` the Swap Pool and the page tables describe each other. -/
theorem swap_pool_agreement (h : (pagingRuns.restrict fun x e => Reloads x.1 e).Reachable x)
    (hfree : ∀ p, ¬ x.1.Inside p) : Agreement x.1 := by
  have hinv : ∃ busy, Paged True x.1 x.2 busy ∧ Worked x.1 busy := by
    refine h.invariant (I := fun x => ∃ busy, Paged True x.1 x.2 busy ∧ Worked x.1 busy)
      (fun x hx => ?_) fun x e x' _ ih hs => ?_
    · rw [hx.2]
      exact ⟨.idle, hx.1.paged, fun hne => absurd rfl hne⟩
    · obtain ⟨busy, ih, hw⟩ := ih
      obtain ⟨hrel, hend, hprep, hexec, hvac⟩ := hs
      have hsteps := State.steps_of_exec hexec
      rw [hvac]
      exact ⟨_, ih.step hsteps hprep fun _ => hrel, hw.step ih.orderly hsteps hend⟩
  obtain ⟨busy, hp, hw⟩ := hinv
  obtain rfl := hp.idle_of_free hw hfree
  exact hp.agreement

end Runs

section Failing

/-- The rest of a page fault, after the P on `swapSemaphore`, that finds a free frame. -/
def loadEvents (p : ℕ) : List Event :=
  [(p, .go), (p, .go), (p, .go), (p, .status 1), (p, .go), (p, .go), (p, .go), (p, .go)]

/-- The first U-proc fills the Swap Pool. -/
def fillEvents : List Event :=
  (List.range 16).flatMap fun n =>
    faultEvents 2 (kuseg + BitVec.ofNat 32 n * pageSize) ++ loadEvents 2

/-- It faults once more; the page of frame 0 is written back, and the FLASHREAD fails. -/
def failEvents : List Event :=
  faultEvents 2 0x80010000 ++
    [(2, .go), (2, .go), (2, .go), (2, .status 1), (2, .status 2), (2, .go), (2, .go)]

/-- Nobody creates a U-proc or ends, and no device command fails. -/
def successful (s : State) (e : Event) : Bool :=
  quiet s e && match e.2 with
    | .status w => w == 1
    | _ => true

theorem quiet_iff {s : State} {e : Event} : quiet s e = true ↔
    s.prepares e.1 = none ∧ s.service e ≠ .term := by
  simp [quiet, Option.isNone_iff_eq_none]

theorem reloads_of_successful {s : State} {e : Event} (h : successful s e = true) : Reloads s e := by
  intro a hi back i w _ he _
  simp only [successful, he, Bool.and_eq_true, beq_iff_eq] at h
  exact h.2

theorem startState_reachable {P : State × Set Asid → Event → Prop} {a b : Asid} (h : a ≠ b)
    (flash : Word → BitVec 24 → Page) : ((supportRuns Unpaged).restrict P).Reachable
      (startState a b flash, (startState a b flash).unused) :=
  .init ⟨startState_unpaged h, rfl⟩

/-- Nobody is inside while `swapSemaphore` is 1. -/
theorem Orderly.not_inside {s : State} {vacant : Set Asid} (h : Orderly s vacant)
    (hv : (s.sem .swapSemaphore).value = 1) (p : ℕ) : ¬ s.Inside p := by
  intro hp
  have := h.mutex.value_eq_zero hp.1
  omega

theorem swap_pool_agreement_full : ∃ x : State × Set Asid,
    (startState 0 1 fun _ _ _ => 0).run successful fillEvents = some x.1 ∧ Agreement x.1 := by
  have hone : ((startState 0 1 fun _ _ _ => 0).run successful fillEvents).any
      (fun s => (s.sem .swapSemaphore).value == 1) = true := by
    decide +kernel
  obtain ⟨s, hs, hv⟩ := (Option.any_eq_true _ _).mp hone
  have hok : ∀ (x : State × Set Asid) e, successful x.1 e = true →
      x.1.prepares e.1 = none ∧ EndsInSys2 x e ∧ Reloads x.1 e := by
    intro x e h
    have hq := quiet_iff.mp (Bool.and_eq_true_iff.mp h).1
    exact ⟨hq.1, fun ht => absurd ht hq.2, reloads_of_successful h⟩
  obtain ⟨g, hg⟩ := supportRuns_run hok (startState_reachable (by decide) _) hs
  have hfree : ∀ p, ¬ s.Inside p :=
    (orderly_reachable (fun s h => h.toStarted.orderly) hg.of_restrict).not_inside (by simpa using hv)
  exact ⟨(s, g), hs, swap_pool_agreement hg.restrict_restrict hfree⟩

/-- Frame 0 records a page that is not present, and `swapSemaphore` is free. -/
def disagrees (s : State) : Bool :=
  (s.sem .swapSemaphore).value == 1 && s.vm.swapPool 0 == entry 0 0 &&
    !isValid (s.vm.privatePgTbl 0 0).entryLO

theorem not_agreement {s : State} (h : disagrees s = true) : ¬ Agreement s := by
  simp only [disagrees, Bool.and_eq_true, beq_iff_eq, Bool.not_eq_true'] at h
  intro hagree
  obtain ⟨a, k, _, hpte, hpr, _⟩ := hagree.recorded 0 (by rw [h.1.2]; decide)
  rw [h.1.2] at hpte
  simp only [entry, Option.some.injEq, Prod.mk.injEq] at hpte
  rw [Present, ← hpte.1, ← hpte.2, h.2] at hpr
  exact absurd hpr (by simp)

/-- A FLASHREAD that fails after an eviction leaves the record of a page that is gone. -/
theorem evicted_reload_disagrees : ∃ x : State × Set Asid, pagingRuns.Reachable x ∧
    (startState 0 1 fun _ _ _ => 0).run quiet (fillEvents ++ failEvents) = some x.1 ∧
    (∀ p, ¬ x.1.Inside p) ∧ ¬ Agreement x.1 := by
  have hend : ((startState 0 1 fun _ _ _ => 0).run quiet (fillEvents ++ failEvents)).any
      disagrees = true := by
    decide +kernel
  obtain ⟨s, hs, hdis⟩ := (Option.any_eq_true _ _).mp hend
  have hok : ∀ (x : State × Set Asid) e, quiet x.1 e = true →
      x.1.prepares e.1 = none ∧ EndsInSys2 x e := by
    intro x e h
    exact ⟨(quiet_iff.mp h).1, fun ht => absurd ht (quiet_iff.mp h).2⟩
  obtain ⟨g, hg⟩ := supportRuns_run hok (startState_reachable (by decide) _) hs
  have hv : (s.sem .swapSemaphore).value = 1 := by
    simp only [disagrees, Bool.and_eq_true, beq_iff_eq] at hdis
    exact hdis.1.1
  exact ⟨(s, g), hg, hs,
    (orderly_reachable (fun s h => h.toStarted.orderly) hg.of_restrict).not_inside hv,
    not_agreement hdis⟩

end Failing
end PandOSsh.SupportLevel
