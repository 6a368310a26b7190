import PandOSsh.SupportLevel.Agreement

/-!
# The write-back of an evicted page

From the moment the pager starts to write a victim back until its FLASHREAD has
ended, no other process touches the frame or a flash device. So what happens to
the contents of the victim depends on the two device statuses only.
-/

namespace PandOSsh.SupportLevel
open Library Coherent

/-- The contents of frame i. -/
def Vm.frame (vm : Vm) (i : Frame) : Page := vm.ram (pfn (physicalFrame i))

section Frame
variable {exact : Prop} {a b : Asid} {vm vm' : Vm} {vacant : Set Asid} {busy : Busy}
  {c c' : Control} {inp : Input} {svc : Service} {k : PageIdx} {i : Frame} {va : Word} {x : Byte}

/-- A store goes to a frame that is in use. -/
theorem store_frame (hc : Coherent exact vm vacant busy) (hv : vm.store a va x = some vm') :
    ∃ k j, accessHI a va = pteHI a k ∧ (vm.privatePgTbl a k).entryLO = loOf j ∧
      vm.swapPool j = entry a k ∧ busy.at j = false ∧
      vm' = vm.setRam (pfn (physicalFrame j)) (Function.update (vm.frame j) (offset va) x) := by
  obtain ⟨lo, hlo, hvalid, rfl⟩ := Vm.store_eq hv
  obtain ⟨b, k, _, hhi, rfl⟩ := hc.tlb _ _ hlo
  obtain rfl := eq_of_accessHI hhi
  obtain ⟨j, hj, hs, hb⟩ := hc.mapped a k hvalid
  refine ⟨k, j, hhi, hj, hs, hb, ?_⟩
  rw [hj, pfn_loOf]
  rfl

theorem setRam_frame {n : BitVec 20} {page : Page} :
    (vm.setRam n page).frame i = if pfn (physicalFrame i) = n then page else vm.frame i := by
  simp only [Vm.frame, Vm.setRam, Function.update_apply]

/-- A frame that is out of use, and the flash devices, are left alone by everybody who is
outside the critical section. -/
theorem Moves.frame (h : Moves a vm c inp c' vm' svc) (hc : Coherent exact vm vacant busy)
    (hi : busy.at i = true) (hout : c.past .swapSemaphore = false) :
    vm'.frame i = vm.frame i ∧ vm'.flash = vm.flash := by
  cases h with
  | store _ hv =>
      obtain ⟨k, j, _, _, _, hj, rfl⟩ := store_frame hc hv
      have hne : pfn (physicalFrame i) ≠ pfn (physicalFrame j) := by
        intro he
        rw [pfn_injective he, hj] at hi
        exact absurd hi (by simp)
      exact ⟨by rw [setRam_frame, if_neg hne], rfl⟩
  | choose | evict | evictFree | write | read | readFailed | clearFlagFailed | record | install |
    clearFlag | sweep | setFlag | verhogen | verhogenFailed | releaseMutex | sys2Verhogen =>
      simp [Control.past] at hout
  | code | refill | fault | trap | terminate | terminal | execute | codePasseren | codeVerhogen |
    cause | causeMod | passeren | checkHeld | check | signal | sys2Passeren | term | init |
    create | createFailed | sys6Passeren => exact ⟨rfl, rfl⟩

end Frame

/-- Steps of other processes than p. -/
def Meanwhile (p : ℕ) : State × Set Asid → State × Set Asid → Prop :=
  Relation.ReflTransGen fun x x' => ∃ e : Event, e.1 ≠ p ∧ (supportRuns Unpaged).step x e x'

/-- A pager writes back the page that frame i records, then other processes go on, then
it reads the missing page into the frame; the statuses are w and r. -/
structure Refilled (p : ℕ) (a : Asid) (hi : Word) (back : Code) (i : Frame) (w r : Word)
    (x₀ x₁ x₂ x₃ : State × Set Asid) : Prop where
  reachable : (supportRuns Unpaged).Reachable x₀
  evicting : ∃ x k, x₀.1.uproc p = some (a, .pager hi back (.write i x k))
  written : (supportRuns Unpaged).step x₀ (p, .status w) x₁
  meanwhile : Meanwhile p x₁ x₂
  read : (supportRuns Unpaged).step x₂ (p, .status r) x₃

/-- The frame is overwritten only if its contents are on the flash block of the victim;
if the write-back fails, they stay in the frame and the fault becomes a program trap. -/
structure Preserved (p : ℕ) (a : Asid) (hi : Word) (back : Code) (i : Frame) (w r : Word)
    (b : Asid) (l : PageIdx) (x₀ x₂ x₃ : State) : Prop where
  stored : r = 1 → x₂.vm.flash (flashReg b) (blockOf l) = x₀.vm.frame i
  kept : w ≠ 1 → x₃.vm.frame i = x₀.vm.frame i ∧
    x₃.uproc p = some (a, .pager hi back .clearFlagFailed)

section Step
variable {exact : Prop} {s s' : State} {vacant : Set Asid} {busy : Busy} {p q : ℕ} {inp : Input}
  {a : Asid} {c : Control} {hi w r : Word} {back : Code} {i : Frame} {f : Word → BitVec 24 → Page}
  {page : Page} {x x' x₀ x₁ x₂ x₃ : State × Set Asid}

/-- What a step of another process leaves as it is, while p has a frame out of use. -/
theorem Paged.frame_other (h : Paged exact s vacant busy) (hs : Steps s q inp s') (hne : q ≠ p)
    (hi : busy.at i = true) (hin : s.Inside p) :
    s'.vm.frame i = s.vm.frame i ∧ s'.vm.flash = s.vm.flash ∧ s'.busyAfter q busy = busy := by
  cases hs with
  | @test parent pt pt' vm svc hp hb hsvc hm =>
      rw [State.serve_vm, State.move_vm, busyAfter_test (h.orderly.bound _ _ hp)]
      rcases h.testing q parent pt hp with rfl | rfl <;> cases hm <;> exact ⟨rfl, rfl, rfl⟩
  | @uproc parent b c c' vm svc hp hb hsvc hm =>
      have hout : c.past .swapSemaphore = false := by
        rw [Bool.eq_false_iff]
        intro hpast
        have hq : s.Inside q := ⟨(State.past_iff hp).mpr hpast, fun hm => hb ⟨_, hm⟩⟩
        exact hne (h.orderly.mutex.unique q p hq hin)
      rw [State.serve_vm, State.move_vm, busyAfter_uproc hm (h.orderly.bound _ _ hp),
        (hm.outside hout).2]
      exact ⟨(hm.frame h.coherent hi hout).1, (hm.frame h.coherent hi hout).2, rfl⟩

/-- Where another process stands does not change, unless it is killed. -/
theorem uproc_other (hord : Orderly s vacant) (hs : Steps s q inp s') (hne : q ≠ p)
    (hlt : p < s.nextPid) : s'.uproc p = s.uproc p ∨ s'.uproc p = none := by
  cases hu : s'.uproc p with
  | none => exact .inr rfl
  | some x =>
      left
      cases hs with
      | test hp hb hsvc hm =>
          rcases uproc_after_test (hord.bound _ _ hp) hu with ⟨_, h⟩ | ⟨_, h, _⟩
          · exact h.symm
          · omega
      | uproc hp hb hsvc hm =>
          rcases uproc_after (hord.bound _ _ hp) hu with ⟨h, _⟩ | ⟨_, h⟩ | ⟨_, h, _⟩
          · exact absurd h.symm hne
          · exact h.symm
          · omega

theorem nextPid_le (hs : Steps s q inp s') : s.nextPid ≤ s'.nextPid := by
  cases hs with
  | test hp hb hsvc hm =>
      exact nextPid_le_serve (t := s.move _ _ _)
  | uproc hp hb hsvc hm =>
      exact nextPid_le_serve (t := s.move _ _ _)

/-- p still waits for its FLASHREAD, and nobody has touched frame i or a flash device. -/
structure Waits (p : ℕ) (a : Asid) (hi : Word) (back : Code) (i : Frame) (page : Page)
    (f : Word → BitVec 24 → Page) (s : State) (vacant : Set Asid) : Prop where
  paged : Paged False s vacant (.loading i)
  control : s.uproc p = some (a, .pager hi back (.read i))
  frame : s.vm.frame i = page
  flash : s.vm.flash = f

theorem Waits.inside (h : Waits p a hi back i page f s vacant) : s.Inside p :=
  h.paged.orderly.inside h.control (by simp [Control.past]) rfl

/-- Other processes leave a pager in its FLASHREAD alone, or kill it. -/
theorem Waits.meanwhile (hm : Meanwhile p x₁ x₂) (h : Waits p a hi back i page f x₁.1 x₁.2) :
    p < x₂.1.nextPid ∧ (∃ busy, Paged False x₂.1 x₂.2 busy) ∧
      (x₂.1.uproc p = none ∨ Waits p a hi back i page f x₂.1 x₂.2) := by
  induction hm with
  | refl =>
      obtain ⟨parent, hp⟩ := State.uproc_eq_some.mp h.control
      exact ⟨h.paged.orderly.bound p _ hp, ⟨_, h.paged⟩, .inr h⟩
  | @tail x x' _ hs ih =>
      obtain ⟨⟨q, inp⟩, hne, hprep, hexec, hvac⟩ := hs
      obtain ⟨hlt, ⟨busy, hpaged⟩, hcase⟩ := ih
      have hsteps := State.steps_of_exec hexec
      rw [hvac]
      refine ⟨lt_of_lt_of_le hlt (nextPid_le hsteps), ⟨_, hpaged.step hsteps hprep False.elim⟩, ?_⟩
      rcases uproc_other hpaged.orderly hsteps hne hlt with hsame | hgone
      · rcases hcase with hnone | hw
        · exact .inl (hsame.trans hnone)
        · right
          obtain ⟨h1, h2, h3⟩ :=
            hw.paged.frame_other hsteps hne (i := i) (by simp [Busy.at]) hw.inside
          have hstep := hw.paged.step hsteps hprep False.elim
          rw [h3] at hstep
          exact ⟨hstep, hsame.trans hw.control, h1.trans hw.frame, h2.trans hw.flash⟩
      · exact .inl hgone

theorem uproc_of_status (hs : Steps s p (.status r) s') : ∃ b d, s.uproc p = some (b, d) := by
  cases hs with
  | test hp hb hsvc hm => cases hm
  | uproc hp hb hsvc hm => exact ⟨_, _, State.uproc_of_proc hp⟩

/-- A device ends the command of a U-proc, and the pager goes on. -/
theorem steps_status (hs : Steps s p (.status w) s') (hc : s.uproc p = some (a, c)) :
    ∃ c' vm svc, Moves a s.vm c (.status w) c' vm svc ∧ s'.vm = vm ∧
      ((p < s.nextPid → svc ≠ .term → s'.uproc p = some (a, c'))) := by
  cases hs with
  | test hp hb hsvc hm => cases hm
  | @uproc parent b c₀ c' vm svc hp hb hsvc hm =>
      rw [State.uproc_of_proc hp, Option.some.injEq, Prod.mk.injEq] at hc
      obtain ⟨rfl, rfl⟩ := hc
      refine ⟨c', vm, svc, hm, by rw [State.serve_vm, State.move_vm], fun hlt ht => ?_⟩
      exact State.uproc_of_proc (State.proc_self (Nat.ne_of_lt hlt) ht)

/-- After the write-back p waits for its FLASHREAD; the frame has not changed. -/
theorem Paged.written {b : Asid} {l : PageIdx} {y z : ℤ} (h : Paged False s vacant busy)
    (hc : s.uproc p = some (a, .pager hi back (.write i y z))) (hs : Steps s p (.status w) s')
    (hprep : ∀ a, s.prepares p = some a → a ∈ vacant) (hb : s.vm.swapPool i = entry b l) :
    Waits p a hi back i (s.vm.frame i) s'.vm.flash s' (s.vacancy (p, .status w) s' vacant) ∧
      (w = 1 → s'.vm.flash (flashReg b) (blockOf l) = s.vm.frame i) := by
  have hpaged := h.step hs hprep False.elim
  obtain ⟨parent, hp⟩ := State.uproc_eq_some.mp hc
  obtain ⟨_, _, b', l', _, hs', rfl, rfl⟩ := h.stage p a _ hc
  rw [hb] at hs'
  obtain ⟨rfl, rfl⟩ := entry_injective hs'
  obtain ⟨c', vm, svc, hm, hvm, hc'⟩ := steps_status hs hc
  cases hm
  have hu := hc' (h.orderly.bound p _ hp) (by simp)
  have hbusy : s'.busyAfter p busy = .loading i := by
    rw [State.busyAfter, hu]
    rfl
  rw [hbusy] at hpaged
  rw [readWriteFlashdrive_write] at hvm
  refine ⟨⟨hpaged, hu, ?_, rfl⟩, fun hw => ?_⟩
  · rw [hvm]
    split <;> rfl
  · rw [hvm, if_pos hw]
    simp [Vm.setFlash, Vm.frame]

/-- The FLASHREAD overwrites the frame if the device is ready, else the pager gives up. -/
theorem Waits.read (h : Waits p a hi back i page f s vacant) (hs : Steps s p (.status r) s') :
    (r = 1 → s'.uproc p = some (a, .pager hi back (.record i))) ∧
      (r ≠ 1 → s'.vm.frame i = page ∧
        s'.uproc p = some (a, .pager hi back .clearFlagFailed)) := by
  obtain ⟨⟨k, rfl, _⟩, _, _⟩ := h.paged.stage p a _ h.control
  obtain ⟨parent, hp⟩ := State.uproc_eq_some.mp h.control
  obtain ⟨c', vm, svc, hm, hvm, hc'⟩ := steps_status hs h.control
  have hlt := h.paged.orderly.bound p _ hp
  cases hm with
  | read hr =>
      rw [missingPage_pteHI, readWriteFlashdrive_status] at hr
      exact ⟨fun _ => hc' hlt (by simp), fun hne => absurd hr hne⟩
  | readFailed hr =>
      rw [missingPage_pteHI, readWriteFlashdrive_status] at hr
      rw [missingPage_pteHI, readWriteFlashdrive_read, if_neg hr] at hvm
      refine ⟨fun he => absurd he hr, fun _ => ⟨?_, hc' hlt (by simp)⟩⟩
      rw [hvm, h.frame]

/-- The victim of an eviction is preserved exactly if its write-back succeeds or the
FLASHREAD that follows fails. -/
theorem victim_preserved_iff {b : Asid} {l : PageIdx}
    (h : Refilled p a hi back i w r x₀ x₁ x₂ x₃) (hv : x₀.1.vm.swapPool i = entry b l) :
    Preserved p a hi back i w r b l x₀.1 x₂.1 x₃.1 ↔ w = 1 ∨ r ≠ 1 := by
  obtain ⟨busy, hpaged⟩ := paged_reachable (x := x₀) False.elim h.reachable.restrict_true
  obtain ⟨y, z, hc⟩ := h.evicting
  obtain ⟨hprep, hexec, hvac⟩ := h.written
  obtain ⟨_, hexec', _⟩ := h.read
  have hsteps := State.steps_of_exec hexec'
  obtain ⟨hwait, hstored⟩ := hpaged.written hc (State.steps_of_exec hexec) hprep hv
  rw [← hvac] at hwait
  have hwait₂ : Waits p a hi back i (x₀.1.vm.frame i) x₁.1.vm.flash x₂.1 x₂.2 := by
    obtain ⟨_, _, hnone | hw⟩ := hwait.meanwhile h.meanwhile
    · obtain ⟨b, d, hu⟩ := uproc_of_status hsteps
      rw [hnone] at hu
      exact absurd hu (by simp)
    · exact hw
  obtain ⟨hok, hfail⟩ := hwait₂.read hsteps
  constructor
  · intro hp
    by_cases hw : w = 1
    · exact .inl hw
    · right
      intro hr
      have hrec := (hp.kept hw).2
      rw [hok hr] at hrec
      exact absurd hrec (by simp)
  · intro hcond
    constructor
    · intro hr
      have hw : w = 1 := by
        rcases hcond with hw | hne
        · exact hw
        · exact absurd hr hne
      rw [hwait₂.flash, hstored hw]
    · intro hw
      have hr : r ≠ 1 := by
        rcases hcond with hw' | hne
        · exact absurd hw' hw
        · exact hne
      exact hfail hr

end Step

section Concrete

/-- A run up to a write-back of the first U-proc, its end and the end of the FLASHREAD. -/
theorem refilled_of_run (es : List Event) (hi w r : Word) (back : Code) (i : Frame) (x k : ℤ)
    (check : State → State → Bool)
    (h : ((startState 0 1 fun _ _ _ => 0).run quiet es).any (fun s₀ =>
      (s₀.prepares 2).isNone && s₀.uproc 2 == some (0, .pager hi back (.write i x k)) &&
        (s₀.exec 2 (.status w)).any fun s₁ => (s₁.prepares 2).isNone &&
          (s₁.exec 2 (.status r)).any fun s₃ => check s₀ s₃) = true) :
    ∃ x₀ x₁ x₃, Refilled 2 0 hi back i w r x₀ x₁ x₁ x₃ ∧ check x₀.1 x₃.1 = true := by
  obtain ⟨s₀, hrun, h⟩ := (Option.any_eq_true _ _).mp h
  simp only [Bool.and_eq_true, Option.isNone_iff_eq_none, beq_iff_eq, Option.any_eq_true] at h
  obtain ⟨⟨hprep, hu⟩, s₁, hexec, hprep', s₃, hexec', hcheck⟩ := h
  have hok : ∀ (x : State × Set Asid) e, quiet x.1 e = true → x.1.prepares e.1 = none ∧ True := by
    intro x e hq
    exact ⟨(quiet_iff.mp hq).1, trivial⟩
  obtain ⟨g, hg⟩ := supportRuns_run hok (startState_reachable (by decide) _) hrun
  refine ⟨(s₀, g), (s₁, s₀.vacancy (2, .status w) s₁ g), (s₃, _), ⟨hg.of_restrict, ⟨x, k, hu⟩,
    ⟨fun a ha => ?_, hexec, rfl⟩, .refl, fun a ha => ?_, hexec', rfl⟩, hcheck⟩
  · rw [hprep] at ha
    exact absurd ha (by simp)
  · rw [hprep'] at ha
    exact absurd ha (by simp)

/-- The first U-proc fills the Swap Pool, stores to its first page and faults once more:
its first page is about to be written back. -/
def evictEvents : List Event :=
  fillEvents ++ (2, .store 0x80000000 0x2A) :: faultEvents 2 0x80010000 ++ [(2, .go), (2, .go), (2, .go)]

/-- The write-back succeeds, and so does the FLASHREAD. -/
theorem victim_preserved_stored : ∃ x₀ x₁ x₃ : State × Set Asid,
    Refilled 2 0 0x80010040 .user 0 1 1 x₀ x₁ x₁ x₃ ∧
      Preserved 2 0 0x80010040 .user 0 1 1 0 0 x₀.1 x₁.1 x₃.1 := by
  obtain ⟨x₀, x₁, x₃, h, hcheck⟩ := refilled_of_run evictEvents 0x80010040 1 1 .user 0 1 0x80000
    (fun s₀ _ => s₀.vm.swapPool 0 == entry 0 0) (by decide +kernel)
  exact ⟨x₀, x₁, x₃, h, (victim_preserved_iff h (by simpa using hcheck)).mpr (.inl rfl)⟩

/-- The write-back fails and the FLASHREAD succeeds: the byte that was stored is gone. -/
theorem victim_lost : ∃ x₀ x₁ x₃ : State × Set Asid,
    Refilled 2 0 0x80010040 .user 0 4 1 x₀ x₁ x₁ x₃ ∧
      ¬ Preserved 2 0 0x80010040 .user 0 4 1 0 0 x₀.1 x₁.1 x₃.1 ∧
      x₀.1.vm.frame 0 0 = 0x2A ∧ x₃.1.vm.frame 0 0 = 0 ∧
      x₃.1.vm.flash (flashReg 0) (blockOf 0) 0 = 0 := by
  obtain ⟨x₀, x₁, x₃, h, hcheck⟩ := refilled_of_run evictEvents 0x80010040 4 1 .user 0 1 0x80000
    (fun s₀ s₃ => s₀.vm.frame 0 0 == 0x2A && s₃.vm.frame 0 0 == 0 &&
      s₃.vm.flash (flashReg 0) (blockOf 0) 0 == 0) (by decide +kernel)
  simp only [Bool.and_eq_true, beq_iff_eq] at hcheck
  refine ⟨x₀, x₁, x₃, h, fun hp => ?_, hcheck.1.1, hcheck.1.2, hcheck.2⟩
  have hkept := (hp.kept (by decide)).1
  have hbyte := congrFun hkept 0
  rw [hcheck.1.1, hcheck.1.2] at hbyte
  exact absurd hbyte (by decide)

end Concrete
end PandOSsh.SupportLevel
