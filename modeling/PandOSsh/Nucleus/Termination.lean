import PandOSsh.Nucleus.Counters

/-!
# Termination and lookup, each from an arbitrary orderly state

What `terminateProcess` and `findPcbByPid` do is told here of every kernel
state that keeps their assumptions, reachable or not, and of the pointers
themselves. The live PCBs are those outside the free list.
-/

namespace PandOSsh.Nucleus
open Library

section Count
variable {Q : Type} [QueueApi Q] [Layout] {k k' : Kernel Q} {p : Pcb} {n : ℕ}

omit [Layout] in
theorem killChildren_processCount {f : Pcb → Kernel Q → Option (Kernel Q)}
    (hf : ∀ c k k', f c k = some k' → k'.processCount ≤ k.processCount)
    (h : killChildren f n p k = some k') : k'.processCount ≤ k.processCount := by
  induction n generalizing k with
  | zero => cases h
  | succ n ih =>
      unfold killChildren at h
      obtain ⟨empty, -, h⟩ := Option.bind_eq_some_iff.mp h
      split at h
      · exact Option.some.inj h ▸ le_rfl
      · obtain ⟨r, -, h⟩ := Option.bind_eq_some_iff.mp h
        obtain ⟨k₁, h₁, h⟩ := Option.bind_eq_some_iff.mp h
        apply (ih h).trans
        split at h₁
        · exact Option.some.inj h₁ ▸ le_rfl
        · exact hf _ { k with store := r.1 } _ h₁

theorem unlink_processCount (h : unlink p k = some k') : k'.processCount = k.processCount := by
  unfold unlink at h
  split at h
  · exact Option.some.inj h ▸ rfl
  · split at h
    · obtain ⟨r, -, rfl⟩ := Option.map_eq_some_iff.mp h
      dsimp only
      split <;> rfl
    · obtain ⟨r, -, rfl⟩ := Option.map_eq_some_iff.mp h
      rfl

omit [Layout] in
theorem release_processCount (h : release p k = some k') :
    k'.processCount = k.processCount - 1 := by
  unfold release at h
  obtain ⟨r, -, h⟩ := Option.bind_eq_some_iff.mp h
  obtain ⟨s, -, rfl⟩ := Option.map_eq_some_iff.mp h
  rfl

/-- Every termination that ends has counted at least one process out. -/
theorem terminateProcess_processCount (h : terminateProcess n p k = some k') :
    k'.processCount < k.processCount := by
  induction n generalizing k k' p with
  | zero => cases h
  | succ n ih =>
      unfold terminateProcess at h
      obtain ⟨k₂, h, hr⟩ := Option.bind_eq_some_iff.mp h
      obtain ⟨k₁, hk, hu⟩ := Option.bind_eq_some_iff.mp h
      have hle := killChildren_processCount (fun c k k' hc => (ih hc).le) hk
      have hun := unlink_processCount hu
      have hrel := release_processCount hr
      omega

omit [Layout] in
theorem dispatch_processCount (h : dispatch k = some k') : k'.processCount = k.processCount := by
  unfold dispatch at h
  split at h
  · split at h
    · exact Option.some.inj h ▸ rfl
    · split at h <;> exact Option.some.inj h ▸ rfl
  · obtain ⟨r, -, h⟩ := Option.bind_eq_some_iff.mp h
    obtain ⟨p, -, rfl⟩ := Option.map_eq_some_iff.mp h
    rfl

end Count

section Exact
variable {k : Kernel Pointers} {l : Kernel Lists} {p : Pcb}

/-- The queues of the pointers share no PCB with the free list. -/
theorem queued_not_free (h : KernelRel k l)
    (hp : p ∈ l.lists.ready ∨ p ∈ l.lists.blocked) : p ∉ l.lists.free := by
  have hr : k.store.lists.links.Rings l.lists.rings := h.store.lists.rings
  have hfree : l.lists.rings .pcbFreeH = some (l.lists.free.map .pList) := rfl
  have hapart : ∀ a xs, l.lists.rings a = some xs → .pcbFreeH ≠ a → .pList p ∈ xs →
      p ∉ l.lists.free := by
    intro a xs ha hne hx hf
    exact hr.disjoint hfree ha hne (List.mem_cons_of_mem _ (List.mem_map_of_mem hf))
      (List.mem_cons_of_mem _ hx)
  rcases hp with hp | hp
  · exact hapart .readyQueue _ rfl (by simp) (List.mem_map_of_mem hp)
  · obtain ⟨d, hd, hp⟩ := List.mem_flatMap.mp hp
    exact hapart (.sProcq d.semd) _ (h.store.lists.rings_sProcq hd) (by simp)
      (List.mem_map_of_mem hp)

/-- What the lookup relies on. The live PCBs are those outside the free list. -/
structure Searchable (k : Kernel Lists) : Prop where
  current : ∀ p, k.currProc = some p → p ∉ k.lists.free
  held : ∀ p, p ∉ k.lists.free → Held k p
  tree : Tree k.lists fun p => (k.pcb p).pParent
  pids : ∀ p q, p ∉ k.lists.free → q ∉ k.lists.free → (k.pcb p).pPid = (k.pcb q).pPid → p = q

/-- The lookup by PID and NSYS2 tell the live process with the PID `pid`. -/
structure LooksUp [Layout] (live : Pcb → Prop) (pid : Word) (k : Kernel Pointers) : Prop where
  found : ∃ r, findPcbByPid pid k = some r ∧ ∀ p, r = some p ↔ live p ∧ (k.pcb p).pPid = pid
  kills : pid ≠ 0 → ∀ p, live p → (k.pcb p).pPid = pid →
    nsys2 pid k = (terminateProcess treeBudget p k).bind dispatch
  refuses : pid ≠ 0 → (nsys2 pid k = some (k.setExcA0 noProc).ldst ↔
    ∀ p, live p → (k.pcb p).pPid ≠ pid)

theorem findPcbByPid_exact (h : KernelRel k l) (hs : Searchable l) (pid : Word) :
    ∃ r, findPcbByPid pid k = some r ∧
      ∀ p, r = some p ↔ p ∉ l.lists.free ∧ (k.pcb p).pPid = pid := by
  have hh : ∀ p, Held l p → p ∉ l.lists.free := by
    intro p hp
    rcases hp with hc | hq
    · exact hs.current p hc
    · exact queued_not_free h hq
  obtain ⟨r, hr, hf⟩ := findPcbByPid_spec hs.tree hh pid
  obtain ⟨r', hr', rfl⟩ := findPcbByPid_refines pid h r hr
  refine ⟨_, hr', fun p => ?_⟩
  rw [h.pcb]
  cases r' with
  | some q =>
      obtain ⟨hq, hpid⟩ := hf
      constructor
      · intro he
        exact Option.some.inj he ▸ ⟨hq, hpid⟩
      · intro hp
        rw [hs.pids q p hq hp.1 (hpid.trans hp.2.symm)]
  | none =>
      constructor
      · intro he
        cases he
      · intro hp
        exact absurd hp.2 (hf p (hs.held p hp.1))

theorem lookup_exact [Layout] (h : KernelRel k l) (hs : Searchable l) (pid : Word) :
    LooksUp (fun p => p ∉ l.lists.free) pid k := by
  obtain ⟨r, hr, hf⟩ := findPcbByPid_exact h hs pid
  have hkills : pid ≠ 0 → ∀ p, p ∉ l.lists.free → (k.pcb p).pPid = pid →
      nsys2 pid k = (terminateProcess treeBudget p k).bind dispatch := by
    intro h0 p hp hpid
    rw [nsys2, if_neg h0, hr, (hf p).mpr ⟨hp, hpid⟩]
    rfl
  refine ⟨⟨r, hr, hf⟩, hkills, fun h0 => ?_⟩
  constructor
  · -- a termination changes `processCount`, and so is no refusal
    intro hn p hp hpid
    rw [hkills h0 p hp hpid] at hn
    obtain ⟨k₁, hk₁, hd⟩ := Option.bind_eq_some_iff.mp hn
    have hlt := terminateProcess_processCount hk₁
    have heq := dispatch_processCount hd
    exact absurd heq (ne_of_gt hlt)
  · intro hno
    have hnone : r = none := by
      cases hc : r with
      | none => rfl
      | some p =>
          obtain ⟨hp, hpid⟩ := (hf p).mp hc
          exact absurd hpid (hno p hp)
    rw [nsys2, if_neg h0, hr, hnone]
    rfl

end Exact
section Subtree
variable [Layout] {k k' : Kernel Lists} {p q : Pcb} {D : Finset Pcb}

/-- What `terminateProcess` relies on: everybody is in one place, `p_semAdd`
tells in which, the live processes are a forest and the counters are exact. -/
structure Accounted (k : Kernel Lists) : Prop where
  wf : WF k
  held : ∀ p, p ∉ k.lists.free → Held k p
  ready : ∀ p ∈ k.lists.ready, (k.pcb p).pSemAdd = null
  blocked : ∀ p ∈ k.lists.blocked, (k.pcb p).pSemAdd ≠ null
  process : k.processCount = (k.lists.free.toFinsetᶜ.card : ℤ)
  soft : SoftExact k

theorem Accounted.consistent (h : Accounted k) (q : Pcb) : Consistent k q :=
  fun _ => ⟨h.ready q, h.blocked q⟩

/-- A live process is charged to a device exactly when it waits there. -/
theorem Accounted.softKilled_iff (h : Accounted k) (hq : q ∉ k.lists.free) :
    SoftKilled k q ↔ q ∈ softBlocked k := by
  rw [mem_softBlocked]
  constructor
  · intro hs
    refine ⟨?_, hs.2⟩
    rcases h.held q hq with hc | hr | hb
    · exact absurd hc hs.1
    · have hdev := hs.2
      rw [h.ready q hr, isDeviceSemaphore_null] at hdev
      cases hdev
    · exact hb
  · intro hs
    exact ⟨fun hc => h.wf.not_blocked hc hs.1, hs.2⟩

/-- `D` is the subtree of `p`, and exactly its processes have been removed. -/
structure SubtreeRemoved (p : Pcb) (D : Finset Pcb) (k k' : Kernel Lists) : Prop where
  subtree : ∀ q, q ∈ D ↔ Descendant k.lists p q
  freed : ∃ ds : List Pcb, ds.Nodup ∧ (∀ q, q ∈ ds ↔ q ∈ D) ∧ k'.lists.free = ds ++ k.lists.free
  live : ∀ q ∈ D, q ∉ k.lists.free
  gone : ∀ q ∈ D, ¬ Held k' q
  ready : k'.lists.ready = k.lists.ready.filter fun q => q ∉ D
  waiters : ∀ a, k'.lists.waiters a = (k.lists.waiters a).filter fun q => q ∉ D
  pcb : ∀ q, q ∉ D → k'.pcb q = k.pcb q
  child : ∀ q, q ∉ D → k'.lists.child q = (k.lists.child q).erase p
  keys : ∀ a, a ∈ k'.lists.asl.map Desc.key ↔ ∃ q ∈ k.lists.waiters a, q ∉ D
  descriptors : (k'.lists.asl.map Desc.semd ++ k'.lists.idle).Perm (List.finRange maxProc)
  data : k'.toKernelData = { k.toKernelData with
    processCount := k.processCount - D.card
    softBlockCount := k.softBlockCount - (softBlocked k ∩ D).card
    currProc := k.currProc.filter fun q => q ∉ D }

omit [Layout] in
/-- Of the children of a survivor, only `p` can be in the subtree of `p`. -/
theorem child_filter {v : Lists} {parent : Pcb → Option Pcb} (ht : Tree v parent)
    (hD : ∀ x, x ∈ D ↔ Descendant v p x) (hq : q ∉ D) :
    ((v.child q).filter fun c => c ∉ D) = (v.child q).erase p := by
  rw [(ht.nodup q).erase_eq_filter]
  apply List.filter_congr
  intro c hc
  have hiff : c ∈ D ↔ c = p := by
    constructor
    · intro hcD
      cases ((hD c).mp hcD).cases_tail with
      | inl he => exact he
      | inr hx =>
          obtain ⟨x, hx, hxc⟩ := hx
          -- the parent of `c` is unique
          have hxq := ((ht.child_iff x c).mp hxc).symm.trans ((ht.child_iff q c).mp hc)
          rw [Option.some.injEq] at hxq
          exact absurd ((hD x).mpr hx) (hxq ▸ hq)
    · rintro rfl
      exact (hD c).mpr .refl
  simp only [hiff]
  by_cases hcp : c = p <;> simp [hcp]

theorem Killed.subtreeRemoved (h : Killed p D k k') (ha : Accounted k) :
    SubtreeRemoved p D k k' where
  subtree q := h.mem_iff
  freed := h.free
  live := h.live
  gone q hq := by
    rintro (hc | hr | hb)
    · exact (h.curr_eq_some.mp hc).2 hq
    · rw [h.ready, List.mem_filter] at hr
      simp [hq] at hr
    · exact (h.mem_blocked.mp hb).1 hq
  ready := h.ready
  waiters := h.waiters
  pcb q hq := by rw [h.pcb, if_neg hq]
  child q hq := by rw [h.child, child_filter ha.wf.tree (fun _ => h.mem_iff) hq]
  keys a := by
    rw [h.active.mem_keys, h.waiters, Ne, List.filter_eq_nil_iff]
    simp
  descriptors := h.active.semds_perm
  data := by
    have hsoft : D.filter (SoftKilled k) = softBlocked k ∩ D := by
      ext q
      rw [Finset.mem_filter, Finset.mem_inter]
      constructor
      · intro hq
        exact ⟨(ha.softKilled_iff (h.live q hq.1)).mp hq.2, hq.1⟩
      · intro hq
        exact ⟨hq.2, (ha.softKilled_iff (h.live q hq.2)).mpr hq.1⟩
    rw [h.data, hsoft]

theorem Killed.accounted (h : Killed p D k k') (ha : Accounted k) : Accounted k' where
  wf := h.wf' ha.wf
  held q hq := by
    rw [h.mem_free, not_or] at hq
    rcases ha.held q hq.2 with hc | hr | hb
    · exact .inl (h.curr_eq_some.mpr ⟨hc, hq.1⟩)
    · refine .inr (.inl ?_)
      rw [h.ready, List.mem_filter]
      exact ⟨hr, by simpa using hq.1⟩
    · exact .inr (.inr (h.mem_blocked.mpr ⟨hq.1, hb⟩))
  ready q hq := by
    rw [h.ready, List.mem_filter] at hq
    have hqD : q ∉ D := by simpa using hq.2
    rw [h.pcb, if_neg hqD]
    exact ha.ready q hq.1
  blocked q hq := by
    obtain ⟨hqD, hb⟩ := h.mem_blocked.mp hq
    rw [h.pcb, if_neg hqD]
    exact ha.blocked q hb
  process := by
    have hfree : k'.lists.free.toFinsetᶜ = k.lists.free.toFinsetᶜ \ D := by
      ext q
      simp [h.mem_free, and_comm]
    have hD : D ⊆ k.lists.free.toFinsetᶜ := by
      intro q hq
      simpa using h.live q hq
    have hcard := Finset.card_sdiff_add_card_eq_card hD
    have hp : k'.processCount = k.processCount - D.card := by rw [h.data]
    rw [hp, ha.process, hfree]
    omega
  soft := h.softExact ha.wf (fun q hq hs => by
    have hlive := h.live q (h.mem_iff.mpr hq)
    exact (mem_softBlocked.mp ((ha.softKilled_iff hlive).mp hs)).1) ha.soft

/-- `terminateProcess` ends, removes exactly a subtree and keeps what it relies on. -/
theorem terminates_subtree {k : Kernel Pointers} {l : Kernel Lists} (h : KernelRel k l)
    (ha : Accounted l) (hp : p ∉ l.lists.free) :
    ∃ k' l' D, terminateProcess treeBudget p k = some k' ∧ KernelRel k' l' ∧
      SubtreeRemoved p D l l' ∧ Accounted l' := by
  obtain ⟨l', D, hl', hkill⟩ := terminateProcess_killed ha.wf hp fun q _ => ha.consistent q
  obtain ⟨k', hk', hr⟩ := terminateProcess_refines treeBudget p h l' hl'
  exact ⟨k', l', D, hk', hr, hkill.subtreeRemoved ha, hkill.accounted ha⟩

end Subtree

section Booted
variable [Layout] {b : BootImage} {p q : Pcb} {k : Kernel Lists}

theorem Booted.live_iff (h : Booted b p k) : q ∉ k.lists.free ↔ q = p := by
  rw [h.mem_free, not_not]

end Booted

section Concrete

/-- The entries by which a family grows and one of it waits. -/
def growing (k : Kernel Pointers) (e : Entry) : Bool :=
  tidy k && match action e with
    | .createProcess _ _ _ | .yield | .clockWait => true
    | _ => false

theorem calm_of_growing {k : Kernel Pointers} {e : Entry} (h : growing k e = true) :
    (KillsByPlace k e ∧ KillsCaller k e) ∧
      @SparesDevices ramLayout e ∧ @Countable Pointers _ ramLayout k e := by
  let := ramLayout
  obtain ⟨htidy, hact⟩ := Bool.and_eq_true_iff.mp h
  obtain ⟨hplace, hwait⟩ := byPlace_of_tidy (e := e) htidy
  have hv : victim (action e) k = none := by
    cases ha : action e <;> rw [ha] at hact <;> first | rfl | cases hact
  refine ⟨⟨hplace, .of_victim hv⟩, fun a1 ha => ?_, hplace, fun p hp => ?_,
    fun a1 a2 ha => ?_, hwait⟩
  · rcases ha with ha | ha <;> rw [ha] at hact <;> cases hact
  · cases hv.symm.trans hp
  · rw [ha] at hact
    cases hact

/-- The first process runs, one child of it is ready and the other waits for the clock; that
one has a child, which is ready. -/
structure Grown (k : Kernel Pointers) : Prop where
  current : k.currProc = some 19
  ready : QueueApi.ready k.store = some [16, 17]
  blocked : QueueApi.blocked k.store = some [18]
  children : QueueApi.children 18 k.store = some [16]

theorem grown_run : ∃ k l, bareRun growing (familyEvents (request 0 clockWait 0)) = some k ∧
    Grown k ∧ KernelRel k l ∧ @Accounted ramLayout l ∧ Searchable l := by
  let := ramLayout
  have hany : (bareRun growing (familyEvents (request 0 clockWait 0))).any (fun k =>
      k.currProc = some 19 ∧ QueueApi.ready k.store = some [16, 17] ∧
        QueueApi.blocked k.store = some [18] ∧ QueueApi.children 18 k.store = some [16] ∧
          (k.pcb 16).pSemAdd = null ∧ (k.pcb 17).pSemAdd = null ∧ (k.pcb 18).pSemAdd ≠ null ∧
            [19, 16, 17, 18].map (fun p => (k.pcb p).pPid) = [1, 4, 3, 2]) = true := by
    decide +kernel
  obtain ⟨k, hk, hcheck⟩ := (Option.any_eq_true _ _).mp hany
  obtain ⟨hcurr, hready, hblocked, hchildren, h16, h17, h18, hpids⟩ := of_decide_eq_true hcheck
  have hreach : ((nucleus Pointers).restrict fun k e =>
      (KillsByPlace k e ∧ KillsCaller k e) ∧ SparesDevices e ∧ Countable k e).Reachable k :=
    bareRun_restrict (fun _ _ => calm_of_growing) hk
  have hkill : ∀ (l : Kernel Lists) (e : Entry), (KillsByPlace l e ∧ KillsCaller l e) ∧
      SparesDevices e ∧ Countable l e → KillsByPlace l e := fun _ _ hc => hc.1.1
  obtain ⟨l, hl, hr⟩ := (nucleus_refines hkill fun _ _ _ hr hs hc =>
    ⟨⟨hc.1.1.lists hr, hc.1.2.lists hr hs.wf⟩, hc.2.1, hc.2.2.lists hr⟩).reachable hreach
  have hw : WF l := (sound_of_reachable hkill hl).wf
  have hone : ∀ q, l.places q = 1 := places_eq_one (hl.restrict_mono fun _ _ hc => hc.1)
  have hcount : Counted l := counted (hl.restrict_mono fun _ _ hc => hc.2)
  have hheld : ∀ p, p ∉ l.lists.free → Held l p := fun p hp =>
    (mem_of_places (by rw [hone]; exact one_ne_zero)).resolve_left hp
  have hcurr' : l.currProc = some 19 := (congrArg KernelData.currProc hr.data).symm.trans hcurr
  have hready' : l.lists.ready = [16, 17] := Option.some.inj (hr.store.ready.symm.trans hready)
  have hblocked' : l.lists.blocked = [18] :=
    Option.some.inj (hr.store.blocked.symm.trans hblocked)
  have hmem : ∀ p, p ∉ l.lists.free → p ∈ [19, 16, 17, 18] := fun p hp => by
    have hh := hheld p hp
    rw [Held, hcurr', hready', hblocked'] at hh
    simpa [eq_comm, or_assoc] using hh
  have hpcb : ∀ p, k.pcb p = l.pcb p := hr.pcb
  rw [hpcb] at h16 h17 h18
  refine ⟨k, l, hk, ⟨hcurr, hready, hblocked, hchildren⟩, hr, ?_, ?_⟩
  · refine ⟨hw, hheld, fun p hp => ?_, fun p hp => ?_, ?_, hcount.soft⟩
    · rw [hready'] at hp
      simp only [List.mem_cons, List.not_mem_nil, or_false] at hp
      rcases hp with rfl | rfl
      · exact h16
      · exact h17
    · rw [hblocked', List.mem_singleton] at hp
      exact hp ▸ h18
    · have hcard := hcount.process.ncard hw fun q =>
        (by simp : q ∈ ((l.lists.free.toFinsetᶜ : Finset Pcb) : Set Pcb) ↔ q ∉ l.lists.free)
      rwa [Set.ncard_coe_finset] at hcard
  · refine ⟨fun p hp => hw.not_free hp, hheld, hw.tree, fun p q hp hq he => ?_⟩
    have hnodup : ([19, 16, 17, 18].map fun p => (k.pcb p).pPid).Nodup := by
      rw [hpids]
      decide
    rw [← hpcb, ← hpcb] at he
    exact List.inj_on_of_nodup_map hnodup (hmem p hp) (hmem q hq) he

/-- The kill of a process that waits takes its child out of the ready queue. -/
theorem terminates_subtree_grown : ∃ k l k' l' D, Grown k ∧ KernelRel k l ∧
    @terminateProcess Pointers _ ramLayout treeBudget 18 k = some k' ∧ KernelRel k' l' ∧
      @SubtreeRemoved ramLayout 18 D l l' ∧ @Accounted ramLayout l' := by
  let := ramLayout
  obtain ⟨k, l, -, hg, hr, hacc, -⟩ := grown_run
  have hblocked : l.lists.blocked = [18] :=
    Option.some.inj (hr.store.blocked.symm.trans hg.blocked)
  have hlive : (18 : Pcb) ∉ l.lists.free := hacc.wf.not_free_of_blocked (by simp [hblocked])
  obtain ⟨k', l', D, hrun, hr', hsub, hacc'⟩ := terminates_subtree hr hacc hlive
  exact ⟨k, l, k', l', D, hg, hr, hrun, hr', hsub, hacc'⟩

/-- The PID 4 is found below a process that waits, the PID 3 in the ready queue. -/
theorem lookup_exact_grown : ∃ k l, Grown k ∧ KernelRel k l ∧
    ∀ pid ∈ [1, 2, 3, 4, 5], @LooksUp ramLayout (fun p => p ∉ l.lists.free) pid k := by
  let := ramLayout
  obtain ⟨k, l, -, hg, hr, -, hsearch⟩ := grown_run
  exact ⟨k, l, hg, hr, fun pid _ => lookup_exact hr hsearch pid⟩

end Concrete
end PandOSsh.Nucleus
