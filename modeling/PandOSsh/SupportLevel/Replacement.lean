import PandOSsh.Library.Fifo
import PandOSsh.SupportLevel.Agreement

/-!
# Page replacement (`pager`)

The Swap Pool as a store of slots with `fifoCont` as its hand. It is protected by
`swapSemaphore`: between the choice of a frame and the record of its new page it
is out of order, and only the holder sees it so.
-/

namespace PandOSsh.SupportLevel
open Library Coherent

/-- The page that a frame records: its ASID and its number. -/
def SwapEntry.page (e : SwapEntry) : Option (ℤ × ℤ) :=
  if e.swAsid = -1 then none else some (e.swAsid, e.swPageNo)

def Vm.pool (vm : Vm) : Slots poolSize (ℤ × ℤ) := ⟨fun i => (vm.swapPool i).page, vm.fifoCont⟩

/-- The pages in the order in which they have been loaded, the frames in the order in which
they have been evicted, and whether no page has left the Swap Pool otherwise: no U-proc
that ended had one, and no frame that was evicted has been reloaded without success. -/
structure PoolHistory where
  loads : List (ℤ × ℤ)
  victims : List Frame
  steady : Prop

/-- The number of evictions, modulo `POOLSIZE`. -/
def PoolHistory.turn (h : PoolHistory) : Frame := Fin.ofNat poolSize h.victims.length

/-- A step of the U-proc with this control. -/
def PoolHistory.note (h : PoolHistory) (a : Asid) (vm : Vm) (c : Control) (inp : Input) :
    PoolHistory :=
  match c with
  | .pager hi _ (.record _) => { h with loads := h.loads ++ [(a.num, missingPage hi)] }
  | .pager _ _ (.evict i) =>
      if (vm.swapPool i).swAsid = -1 then h else { h with victims := h.victims ++ [i] }
  | .pager _ _ (.read i) =>
      { h with steady := h.steady ∧ ((vm.swapPool i).swAsid ≠ -1 → inp = .status 1) }
  | .sys2 .sweep => { h with steady := h.steady ∧ ∀ i, (vm.swapPool i).swAsid ≠ a.num }
  | _ => h

def State.note (s : State) (e : Event) (h : PoolHistory) : PoolHistory :=
  (s.uproc e.1).elim h fun x => h.note x.1 s.vm x.2 e.2

/-- The runs after `initSwapPool`, with `fifoCont` at its initial value. -/
def poolRuns : System ((State × Set Asid) × PoolHistory) Event :=
  (supportRuns fun s => Unpaged s ∧ s.vm.fifoCont = 0).withHistory (fun _ => ⟨[], [], True⟩)
    fun x e _ h => x.1.note e h

/-- The Swap Pool as the U-procs find it after their P. -/
structure PoolHistory.Ready (h : PoolHistory) (pool : Slots poolSize (ℤ × ℤ)) : Prop where
  turn : pool.hand = h.turn
  inOrder : h.steady → pool.InOrder h.loads

/-- Frame i has been chosen, and is to be evicted unless it is free. -/
structure PoolHistory.Elected (h : PoolHistory) (pool : Slots poolSize (ℤ × ℤ)) (i : Frame) :
    Prop where
  free : pool.slot i = none → pool.hand = h.turn
  full : pool.slot i ≠ none → (∀ j, pool.slot j ≠ none) ∧ i = h.turn ∧ pool.hand = h.turn + 1
  chosen : h.steady → pool.Chosen i h.loads

/-- Frame i is going to hold a new page. -/
structure PoolHistory.Filling (h : PoolHistory) (pool : Slots poolSize (ℤ × ℤ)) (i : Frame) :
    Prop where
  turn : pool.hand = h.turn
  chosen : h.steady → pool.Chosen i h.loads

/-- What the holder of `swapSemaphore` knows of the Swap Pool. -/
def PoolHistory.Known (h : PoolHistory) (pool : Slots poolSize (ℤ × ℤ)) : Control → Prop
  | .pager _ _ (.evict i) => h.Elected pool i
  | .pager _ _ (.write i _ _) | .pager _ _ (.read i) | .pager _ _ (.record i) => h.Filling pool i
  | _ => h.Ready pool

section Pool
variable {vm vm' : Vm} {h : PoolHistory} {i j : Frame} {a : Asid} {n : ℤ}
  {asid vpn : ℤ} {data0 op w : Word}

theorem page_eq_none {e : SwapEntry} : e.page = none ↔ e.swAsid = -1 := by
  unfold SwapEntry.page
  split <;> simp_all

theorem page_congr {e e' : SwapEntry} (h1 : e'.swAsid = e.swAsid) (h2 : e'.swPageNo = e.swPageNo) :
    e'.page = e.page := by
  rw [SwapEntry.page, SwapEntry.page, h1, h2]

theorem pool_congr (hs : vm'.swapPool = vm.swapPool) (hf : vm'.fifoCont = vm.fifoCont) :
    vm'.pool = vm.pool := by
  rw [Vm.pool, Vm.pool, hs, hf]

/-- The pager chooses a frame as a store of slots does. -/
theorem pool_chooseFrame : vm.pool.choose = (vm.chooseFrame.1, vm.chooseFrame.2.pool) := by
  have hp : (fun j => (vm.swapPool j).swAsid == -1) = fun j => (vm.pool.slot j).isNone := by
    funext j
    rw [Bool.eq_iff_iff, beq_iff_eq, Option.isNone_iff_eq_none]
    exact page_eq_none.symm
  rw [Vm.chooseFrame, hp, Slots.choose]
  cases (List.finRange poolSize).find? fun j => (vm.pool.slot j).isNone <;> rfl

theorem evict_fifoCont : (vm.evict i).fifoCont = vm.fifoCont := by
  unfold Vm.evict Vm.tlbUpdate
  split
  · simp only
    split <;> rfl
  · rfl

theorem flashDevice_fifoCont {reg command status : Word} :
    (vm.flashDevice reg data0 command status).fifoCont = vm.fifoCont := by
  unfold Vm.flashDevice
  split_ifs <;> rfl

theorem readWriteFlashdrive_fifoCont :
    (vm.readWriteFlashdrive asid vpn data0 op w).1.fifoCont = vm.fifoCont := by
  unfold Vm.readWriteFlashdrive
  cases getFlashRegister asid with
  | none => rfl
  | some reg =>
      simp only
      split_ifs
      · rfl
      · exact flashDevice_fifoCont

theorem pool_readWriteFlashdrive : (vm.readWriteFlashdrive asid vpn data0 op w).1.pool = vm.pool :=
  pool_congr Vm.readWriteFlashdrive_frame.2.1 readWriteFlashdrive_fifoCont

theorem pool_evict : (vm.evict i).pool = vm.pool := pool_congr Vm.evict_swapPool evict_fifoCont

theorem pool_recordPage : (vm.recordPage a n i).pool = vm.pool.fill i (a.num, n) := by
  refine Slots.ext (funext fun j => ?_) rfl
  by_cases hj : j = i
  · subst hj
    have hne : a.num ≠ -1 := by
      have := num_pos a
      omega
    rw [Slots.fill_self]
    change SwapEntry.page ((vm.recordPage a n j).swapPool j) = _
    rw [Vm.recordPage, Vm.setSwap_self, SwapEntry.page, if_neg hne]
  · rw [Slots.fill_of_ne hj]
    exact congrArg SwapEntry.page (Vm.setSwap_of_ne hj)

theorem install_fifoCont : (vm.install a n i).fifoCont = vm.fifoCont := by
  unfold Vm.install Vm.tlbUpdate
  cases pteAt a (getFlashBlock n) with
  | none => rfl
  | some x =>
      simp only
      split <;> rfl

/-- The pointer to the page table entry is no part of the page. -/
theorem pool_install : (vm.install a n i).pool = vm.pool := by
  refine Slots.ext (funext fun j => ?_) install_fifoCont
  have hswap : (vm.install a n i).swapPool = (vm.setSwap i { vm.swapPool i with
      swPte := pteAt a (getFlashBlock n) }).swapPool := by
    unfold Vm.install
    cases pteAt a (getFlashBlock n) <;> simp
  change SwapEntry.page ((vm.install a n i).swapPool j) = SwapEntry.page (vm.swapPool j)
  rw [hswap]
  by_cases hj : j = i
  · subst hj
    rw [Vm.setSwap_self]
    exact page_congr rfl rfl
  · rw [Vm.setSwap_of_ne hj]

theorem foldl_freeFrame_fifoCont (js : List Frame) (vm : Vm) :
    (js.foldl (Vm.freeFrame asid) vm).fifoCont = vm.fifoCont := by
  induction js generalizing vm with
  | nil => rfl
  | cons j js ih =>
      rw [List.foldl_cons, ih]
      unfold Vm.freeFrame
      split
      · cases (vm.swapPool j).swPte <;> rfl
      · rfl

theorem freeSwapFrames_fifoCont : (vm.freeSwapFrames asid).fifoCont = vm.fifoCont :=
  foldl_freeFrame_fifoCont _ vm

/-- Whoever has no frame frees none. -/
theorem pool_freeSwapFrames (hn : ∀ j, (vm.swapPool j).swAsid ≠ a.num) :
    (vm.freeSwapFrames a.num).pool = vm.pool := by
  refine pool_congr (funext fun j => ?_) freeSwapFrames_fifoCont
  rw [sweep_swapPool, if_neg (hn j)]

theorem turn_concat {vs : List Frame} {steady : Prop} {ls : List (ℤ × ℤ)} :
    (PoolHistory.mk ls (vs ++ [i]) steady).turn = (PoolHistory.mk ls vs steady).turn + 1 := by
  rw [PoolHistory.turn, PoolHistory.turn, List.length_append, List.length_singleton]
  refine Fin.ext ?_
  rw [Fin.val_add]
  exact Nat.add_mod _ _ _

end Pool

section Moves
variable {a : Asid} {vm vm' : Vm} {c c' : Control} {inp : Input} {svc : Service} {h : PoolHistory}
  {i : Frame}

/-- Outside the critical section neither the Swap Pool nor its history changes. -/
theorem Moves.pool_outside (hm : Moves a vm c inp c' vm' svc)
    (hc : c.past .swapSemaphore = false) : vm'.pool = vm.pool ∧ h.note a vm c inp = h := by
  cases hm with
  | store _ hv =>
      obtain ⟨_, _, _, rfl⟩ := Vm.store_eq hv
      exact ⟨rfl, rfl⟩
  | choose | evict | evictFree | write | read | readFailed | clearFlagFailed | record | install |
    clearFlag | sweep | setFlag | verhogen | verhogenFailed | releaseMutex | sys2Verhogen =>
      simp [Control.past] at hc
  | code | refill | fault | trap | terminate | terminal | execute | codePasseren | codeVerhogen |
    cause | causeMod | passeren | checkHeld | check | signal | sys2Passeren | term | init |
    create | createFailed | sys6Passeren => exact ⟨rfl, rfl⟩

theorem PoolHistory.Ready.elected (hr : h.Ready vm.pool) :
    h.Elected vm.chooseFrame.2.pool vm.chooseFrame.1 := by
  have hch : vm.pool.choose = (vm.chooseFrame.1, vm.chooseFrame.2.pool) := pool_chooseFrame
  have hord : h.steady → vm.chooseFrame.2.pool.Chosen vm.chooseFrame.1 h.loads := fun hs => by
    have hc := (hr.inOrder hs).chosen
    rw [hch] at hc
    exact hc
  rcases vm.pool.choose_cases with ⟨hn, hsame⟩ | ⟨hfull, hnext⟩
  · rw [hch] at hn hsame
    simp only at hn hsame
    refine ⟨fun _ => ?_, fun hne => absurd hn (hsame ▸ hne), hord⟩
    rw [hsame]
    exact hr.turn
  · rw [hch, Prod.mk.injEq] at hnext
    refine ⟨fun hn => ?_, fun _ => ⟨fun j => ?_, ?_, ?_⟩, hord⟩
    · rw [hnext.2] at hn
      exact absurd hn (hfull _)
    · rw [hnext.2]
      exact hfull j
    · rw [hnext.1]
      exact hr.turn
    · rw [hnext.2, ← hr.turn]

/-- What the holder knows goes through each of its steps. -/
theorem Moves.known (hm : Moves a vm c inp c' vm' svc) (hc : c.past .swapSemaphore = true)
    (hk : h.Known vm.pool c)
    (hread : ∀ hi back i w, c = .pager hi back (.read i) → inp = .status w →
      (vm.readWriteFlashdrive a.num (missingPage hi) (physicalFrame i) flashRead w).2 = w) :
    (h.note a vm c inp).Known vm'.pool c' := by
  cases hm with
  | code | store | refill | fault | trap | terminate | terminal | execute | codePasseren |
    codeVerhogen => simp [Control.past, past_swap_code] at hc
  | cause | causeMod | passeren => simp [Control.past, past_swap_code] at hc
  | check | checkHeld | signal | sys2Passeren | term | init | create | createFailed |
    sys6Passeren => simp [Control.past] at hc
  | setFlag | clearFlagFailed | verhogenFailed | clearFlag | releaseMutex | sys2Verhogen => exact hk
  | verhogen => exact hk
  | choose => exact hk.elected
  | @evictFree hi back i hf =>
      have hn : vm.pool.slot i = none := page_eq_none.mpr hf
      have hnote : h.note a vm (.pager hi back (.evict i)) .go = h := if_pos hf
      rw [hnote]
      exact ⟨hk.free hn, hk.chosen⟩
  | @evict hi back i hf =>
      have hn : vm.pool.slot i ≠ none := fun he => hf (page_eq_none.mp he)
      have hnote : h.note a vm (.pager hi back (.evict i)) .go =
          { h with victims := h.victims ++ [i] } := if_neg hf
      rw [hnote, pool_evict]
      exact ⟨(hk.full hn).2.2.trans turn_concat.symm, hk.chosen⟩
  | write =>
      rw [pool_readWriteFlashdrive]
      exact hk
  | read hr =>
      rw [pool_readWriteFlashdrive]
      exact ⟨hk.turn, fun hs => hk.chosen hs.1⟩
  | @readFailed hi back i w hr =>
      rw [pool_readWriteFlashdrive]
      refine ⟨hk.turn, fun hs => (hk.chosen hs.1).free (page_eq_none.mpr ?_)⟩
      by_contra hne
      have hw : Input.status w = .status 1 := hs.2 hne
      rw [hread hi back i w rfl rfl] at hr
      exact hr (Input.status.inj hw)
  | record =>
      rw [pool_recordPage]
      exact ⟨hk.turn, fun hs => (hk.chosen hs).fill _⟩
  | install =>
      rw [pool_install]
      exact hk
  | sweep =>
      refine ⟨freeSwapFrames_fifoCont.trans hk.turn, fun hs => ?_⟩
      rw [pool_freeSwapFrames hs.2]
      exact hk.inOrder hs.1

end Moves

/-- What the holder p of `swapSemaphore` knows. -/
def State.KnownBy (s : State) (h : PoolHistory) (p : ℕ) : Prop :=
  ∀ a c, s.uproc p = some (a, c) → c.past .swapSemaphore = true → h.Known s.vm.pool c

/-- The frames that have been evicted go round the Swap Pool. -/
def PoolHistory.Rotates (h : PoolHistory) : Prop :=
  h.victims = (List.range h.victims.length).map (Fin.ofNat poolSize)

/-- The history of the Swap Pool, and what `swapSemaphore` protects. -/
structure Pooled (s : State) (vacant : Set Asid) (h : PoolHistory) : Prop where
  paged : ∃ busy, Paged False s vacant busy
  protects : (s.sem .swapSemaphore).Protects (s.past .swapSemaphore) (h.Ready s.vm.pool)
    (s.KnownBy h)
  rotation : h.Rotates

section Step
variable {s s' : State} {vacant : Set Asid} {h : PoolHistory} {p q : ℕ} {inp : Input} {a b : Asid}
  {c c' d : Control} {vm vm₁ : Vm} {svc : Service} {parent : ℕ}

theorem known_of_entering (hc : c.entering = true) (hr : h.Ready vm.pool) : h.Known vm.pool c := by
  cases c with
  | pager hi back pt => cases pt <;> first | exact hr | simp [Control.entering] at hc
  | sys2 pt => exact hr
  | run | sys6 => exact hr

/-- Whoever waits finds the Swap Pool ready. -/
theorem Pooled.next {h' : PoolHistory} (hpl : Pooled s vacant h)
    (hq : q ∈ (s.sem .swapSemaphore).queue) (hu : s.uproc q = some (a, c))
    (hr : h'.Ready vm.pool) : h'.Known vm.pool c := by
  obtain ⟨busy, hpg⟩ := hpl.paged
  obtain ⟨b, d, hd, hent⟩ := hpg.orderly.waiting q hq
  rw [hd, Option.some.injEq, Prod.mk.injEq] at hu
  exact known_of_entering (hu.2 ▸ hent) hr

/-- Whoever gets past its P finds the Swap Pool ready. -/
theorem known_of_crosses (hm : Moves a vm c inp c' vm₁ svc)
    (hcross : State.Crosses .swapSemaphore svc (c.past .swapSemaphore) (c'.past .swapSemaphore))
    (hc : c.past .swapSemaphore = false) (hc' : c'.past .swapSemaphore = true)
    (hr : h.Ready vm₁.pool) : h.Known vm₁.pool c' := by
  rw [hc, hc'] at hcross
  cases hcross with
  | passeren => exact known_of_entering hm.entering hr

theorem ready_of_outside (hc : c.past .swapSemaphore = false) (hk : h.Known vm.pool c) :
    h.Ready vm.pool := by
  cases c with
  | pager hi back pt =>
      cases pt with
      | evict | write | read | record => simp [Control.past] at hc
      | cause | passeren | setFlag | choose | clearFlagFailed | verhogenFailed | install |
        clearFlag | verhogen => exact hk
  | run | sys2 | sys6 => exact hk

theorem Pooled.known (hpl : Pooled s vacant h) (hp : s.proc p = some ⟨parent, .uproc a c⟩)
    (hm : Moves a s.vm c inp c' vm svc) (hc : c.past .swapSemaphore = true)
    (hk : h.Known s.vm.pool c) : (h.note a s.vm c inp).Known vm.pool c' := by
  obtain ⟨busy, hpg⟩ := hpl.paged
  refine hm.known hc hk fun hi back i w he _ => ?_
  have hst := hpg.stage p a c (State.uproc_of_proc hp)
  rw [he] at hst
  obtain ⟨⟨k, rfl, _⟩, _⟩ := hst
  rw [missingPage_pteHI, readWriteFlashdrive_status]

/-- Only the holder touches the Swap Pool, and leaves it ready. -/
theorem Pooled.protects_uproc (hpl : Pooled s vacant h)
    (hp : s.proc p = some ⟨parent, .uproc a c⟩) (hb : ¬ s.Blocked p)
    (hm : Moves a s.vm c inp c' vm svc) :
    let s' := (s.move p ⟨parent, .uproc a c'⟩ vm).serve p svc
    (s'.sem .swapSemaphore).Protects (s'.past .swapSemaphore)
      ((h.note a s.vm c inp).Ready vm.pool) (s'.KnownBy (h.note a s.vm c inp)) := by
  intro s'
  obtain ⟨busy, hpg⟩ := hpl.paged
  have hu := State.uproc_of_proc hp
  have hlt := hpg.orderly.bound _ _ hp
  have hvm : s'.vm = vm := State.serve_vm
  have hself : ∀ b d, s'.uproc p = some (b, d) → d = c' := by
    intro b d hq
    rcases uproc_after hlt hq with ⟨_, _, hd, _⟩ | ⟨hne, _⟩ | ⟨_, hn, _⟩
    · exact hd
    · exact absurd rfl hne
    · exact absurd hn (Nat.ne_of_lt hlt)
  refine State.protects_step hpl.protects hpg.orderly.mutex hpg.orderly.fresh hp hb
    (hpg.crosses hp hm) (fun ht => ?_) (fun hc => ?_) (fun hc hk => ?_) fun hr q hq hpast => ?_
  · subst ht
    rw [hm.of_term.1]
    rfl
  · obtain ⟨hpool, hnote⟩ := hm.pool_outside (h := h) hc
    rw [hpool, hnote]
    refine ⟨id, fun q hne hk b d hq hpast => ?_⟩
    rw [hvm, hpool]
    rcases uproc_after hlt hq with ⟨he, _⟩ | ⟨_, hq⟩ | ⟨_, _, rfl⟩
    · exact absurd he hne
    · exact hk b d hq hpast
    · exact absurd hpast Bool.false_ne_true
  · have hk' := hpl.known hp hm hc (hk a c hu hc)
    refine ⟨fun _ b d hq _ => ?_, fun hc' => ready_of_outside hc' hk'⟩
    rw [hvm, hself b d hq]
    exact hk'
  · intro b d hu' hd
    rw [hvm]
    rcases hq with ⟨hq, hne⟩ | ⟨rfl, hout⟩
    · rcases uproc_after hlt hu' with ⟨he, _⟩ | ⟨_, hold⟩ | ⟨_, _, rfl⟩
      · exact absurd he hne
      · exact hpl.next hq hold hr
      · exact hr
    · rw [hself b d hu'] at hd ⊢
      exact known_of_crosses hm (hpg.crosses hp hm) hout hd hr

theorem rotates_note (hr : h.Rotates) (hk : c.past .swapSemaphore = true → h.Known vm.pool c) :
    (h.note a vm c inp).Rotates := by
  unfold PoolHistory.note
  split
  · exact hr
  · next hi back i =>
    split
    · exact hr
    · next hf =>
      have hne : vm.pool.slot i ≠ none := fun he => hf (page_eq_none.mp he)
      have hi : i = h.turn := ((hk (by simp [Control.past])).full hne).2.1
      rw [PoolHistory.Rotates, List.length_append, List.length_singleton, List.range_succ,
        List.map_append, ← hr, List.map_singleton]
      exact congrArg (h.victims ++ [·]) hi
  · exact hr
  · exact hr
  · exact hr

theorem Pooled.held (hpl : Pooled s vacant h) (hp : s.uproc p = some (a, c)) (hb : ¬ s.Blocked p)
    (hc : c.past .swapSemaphore = true) : h.Known s.vm.pool c := by
  obtain ⟨parent, hproc⟩ := State.uproc_eq_some.mp hp
  exact hpl.protects.held p ⟨(State.past_iff hproc).mpr hc, fun hq => hb ⟨_, hq⟩⟩ a c hp hc

theorem Pooled.step (hpl : Pooled s vacant h) (hs : Steps s p inp s')
    (hprep : ∀ a, s.prepares p = some a → a ∈ vacant) :
    Pooled s' (s.vacancy (p, inp) s' vacant) (s.note (p, inp) h) := by
  obtain ⟨busy, hpg⟩ := hpl.paged
  have hpaged := hpg.step hs hprep False.elim
  cases hs with
  | @uproc parent a c c' vm svc hp hb hsvc hm =>
      have hu := State.uproc_of_proc hp
      have hnote : s.note (p, inp) h = h.note a s.vm c inp := by
        rw [State.note, hu, Option.elim_some]
      rw [hnote]
      refine ⟨⟨_, hpaged⟩, ?_, rotates_note hpl.rotation (hpl.held hu hb)⟩
      rw [State.serve_vm, State.move_vm]
      exact hpl.protects_uproc hp hb hm
  | @test parent pt pt' vm svc hp hb hsvc hm =>
      have hnote : s.note (p, inp) h = h := by
        rw [State.note, State.uproc, hp]
        rfl
      have hlt := hpg.orderly.bound _ _ hp
      obtain ⟨rfl, hcr, hpast, hpast'⟩ : vm = s.vm ∧ (∀ b, svc ≠ .create b true) ∧
          pt.past .swapSemaphore = false ∧ pt'.past .swapSemaphore = false := by
        rcases hpg.testing p parent pt hp with rfl | rfl <;> cases hm <;> simp [TestPoint.past]
      rw [hnote]
      refine ⟨⟨_, hpaged⟩, ?_, hpl.rotation⟩
      rw [State.serve_vm, State.move_vm]
      have hkeep : ∀ q, s.KnownBy h q →
          ((s.move p ⟨parent, .test pt'⟩ s.vm).serve p svc).KnownBy h q := by
        intro q hk b d hq hd
        rw [State.serve_vm]
        rcases uproc_after_test hlt hq with ⟨_, hq⟩ | ⟨hc, _, _⟩
        · exact hk b d hq hd
        · exact absurd hc (hcr b)
      refine State.protects_step hpl.protects hpg.orderly.mutex hpg.orderly.fresh hp hb
        hm.crosses_swap (fun _ => hpast) (fun _ => ⟨id, fun q _ => hkeep q⟩)
        (fun hc => absurd (hpast.symm.trans hc) Bool.false_ne_true) fun hr q hq _ b d hu _ => ?_
      rw [State.serve_vm]
      rcases uproc_after_test hlt hu with ⟨hne, hold⟩ | ⟨hc, _, _⟩
      · exact hpl.next (hq.resolve_right fun he => hne he.1).1 hold hr
      · exact absurd hc (hcr b)

end Step

section Runs
variable {x : (State × Set Asid) × PoolHistory}

theorem pooled_reachable (hr : poolRuns.Reachable x) : Pooled x.1.1 x.1.2 x.2 := by
  refine hr.invariant (I := fun x => Pooled x.1.1 x.1.2 x.2) (fun x hx => ?_) fun x e x' _ ih hs => ?_
  · obtain ⟨⟨⟨hun, hfifo⟩, hvac⟩, hh⟩ := hx
    rw [hvac, hh]
    have hfree : ∀ i, x.1.1.vm.pool.slot i = none := fun i =>
      page_eq_none.mpr (by rw [← hun.swapPool]; rfl)
    have hord : x.1.1.vm.pool.InOrder [] := ⟨fun _ => hfifo, fun i => by simp [hfree, lastOf]⟩
    refine ⟨⟨.idle, hun.paged⟩, ⟨fun _ => ⟨hfifo, fun _ => hord⟩, fun p _ a c hu _ => ?_⟩, rfl⟩
    obtain ⟨parent, hp⟩ := State.uproc_eq_some.mp hu
    rw [(uproc_fresh hp (hun.fresh p _ hp).1 hu).2]
    exact ⟨hfifo, fun _ => hord⟩
  · obtain ⟨⟨hprep, hexec, hvac⟩, hh⟩ := hs
    rw [hvac, hh]
    exact ih.step (State.steps_of_exec hexec) hprep

/-- Which page a page fault replaces. -/
structure Replacement (s : State) (h : PoolHistory) : Prop where
  rotates : h.Rotates
  full : ∀ p a hi back i, s.uproc p = some (a, .pager hi back (.evict i)) →
    s.vm.pool.slot i ≠ none → (∀ j, s.vm.pool.slot j ≠ none) ∧ i = h.turn
  oldest : ∀ p a hi back i, s.uproc p = some (a, .pager hi back (.evict i)) →
    s.vm.pool.slot i ≠ none → h.steady →
      poolSize ≤ h.loads.length ∧ s.vm.pool.slot i = (lastOf poolSize h.loads).head?

/-- A page is evicted only from a full Swap Pool, the frames take turns at it, and as long
as pages leave the Swap Pool in no other way, the page that leaves is the oldest. -/
theorem page_replacement (hr : poolRuns.Reachable x) : Replacement x.1.1 x.2 := by
  have hpl := pooled_reachable hr
  have held : ∀ p a hi back i, x.1.1.uproc p = some (a, .pager hi back (.evict i)) →
      x.2.Elected x.1.1.vm.pool i := by
    intro p a hi back i hu
    obtain ⟨busy, hpg⟩ := hpl.paged
    obtain ⟨parent, hp⟩ := State.uproc_eq_some.mp hu
    have hpast : (Control.pager hi back (.evict i)).past .swapSemaphore = true := by
      simp [Control.past]
    refine hpl.protects.held p ⟨(State.past_iff hp).mpr hpast, fun hq => ?_⟩ a _ hu hpast
    obtain ⟨b, d, hd, hent⟩ := hpg.orderly.waiting p hq
    rw [hu, Option.some.injEq, Prod.mk.injEq] at hd
    rw [← hd.2] at hent
    exact absurd hent Bool.false_ne_true
  refine ⟨hpl.rotation, fun p a hi back i hu hne => ?_, fun p a hi back i hu hne hs => ?_⟩
  · obtain ⟨hfull, hi, _⟩ := (held p a hi back i hu).full hne
    exact ⟨hfull, hi⟩
  · exact ((held p a hi back i hu).chosen hs).oldest hne

/-- The first U-proc has filled the Swap Pool, and its first page is about to leave. -/
theorem page_replacement_full : ∃ x, poolRuns.Reachable x ∧
    x.1.1.uproc 2 = some (0, .pager (accessHI 0 0x80010000) .user (.evict 0)) ∧
    x.1.1.vm.pool.slot 0 = some (1, 0x80000) ∧ Replacement x.1.1 x.2 := by
  have hend : ((startState 0 1 fun _ _ _ => 0).run successful
      (fillEvents ++ faultEvents 2 0x80010000 ++ [(2, .go), (2, .go)])).any (fun s =>
      s.uproc 2 == some (0, .pager (accessHI 0 0x80010000) .user (.evict 0)) &&
        s.vm.pool.slot 0 == some (1, 0x80000)) = true := by
    decide +kernel
  obtain ⟨s, hs, hcheck⟩ := (Option.any_eq_true _ _).mp hend
  simp only [Bool.and_eq_true, beq_iff_eq] at hcheck
  have h₀ : ((supportRuns fun s => Unpaged s ∧ s.vm.fifoCont = 0).restrict fun _ _ =>
      True).Reachable (startState 0 1 fun _ _ _ => 0, (startState 0 1 fun _ _ _ => 0).unused) :=
    .init ⟨⟨startState_unpaged (by decide), rfl⟩, rfl⟩
  have hok : ∀ (x : State × Set Asid) e, successful x.1 e = true →
      x.1.prepares e.1 = none ∧ True := fun x e h =>
    ⟨(quiet_iff.mp (Bool.and_eq_true_iff.mp h).1).1, trivial⟩
  obtain ⟨g, hg⟩ := supportRuns_run hok h₀ hs
  obtain ⟨h, hh⟩ : ∃ h, poolRuns.Reachable ((s, g), h) := hg.of_restrict.exists_history
  exact ⟨((s, g), h), hh, hcheck.1, hcheck.2, page_replacement hh⟩

end Runs
end PandOSsh.SupportLevel
