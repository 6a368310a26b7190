import PandOSsh.Nucleus.Runs

/-!
# No process is in two places, and none is lost

A PCB is in one place at most as long as the kills go by place; it is in one
place at least as long as nobody kills a stranger. `live` is the history of
the processes created and not yet terminated.
-/

namespace PandOSsh.Nucleus
open Library

section OnePlace

/-- The walk over the queues ends, and no PCB is met twice on it or on the CPU. -/
def OnePlace (k : Kernel Pointers) : Prop :=
  ∃ qs, Pointer.queues k.store = some qs ∧
    (qs.free ++ qs.ready ++ qs.blocked ++ k.currProc.toList).Nodup

theorem WF.nodup {k : Kernel Lists} (hw : WF k) :
    (k.lists.free ++ k.lists.ready ++ k.lists.blocked ++ k.currProc.toList).Nodup := by
  rw [List.nodup_iff_count_le_one]
  intro q
  rw [List.count_append, List.count_append, List.count_append]
  exact hw.places q

theorem one_place [Layout] {k : Kernel Pointers}
    (h : ((nucleus Pointers).restrict fun k e => KillsByPlace k e ∧ WaitsAlone k e).Reachable k) :
    OnePlace k ∧ ∀ e, Possible k e → KillsByPlace k e → WaitsAlone k e →
      (kernelEntry e k).isSome := by
  have hC : ∀ (k : Kernel Pointers) (l : Kernel Lists) (e : Entry), KernelRel k l → Sound l →
      KillsByPlace k e ∧ WaitsAlone k e → KillsByPlace l e :=
    fun _ _ _ hr _ hc => hc.1.lists hr
  obtain ⟨l, hl, hr⟩ := (nucleus_refines (fun _ _ => id) hC).reachable h
  have hw := (sound_of_reachable (fun _ _ => id) hl).wf
  refine ⟨⟨_, hr.store.queues, ?_⟩, fun e hp hk ha =>
    kernelEntry_isSome (fun _ _ => id) hC h hp ⟨hk, ha⟩⟩
  rw [Lists.queues_blocked, congrArg KernelData.currProc hr.data]
  exact hw.nodup

/-- A child that has been woken by V is ready with a stale `p_semAdd`, and its
parent terminates: the freed child stays linked in the ready queue. -/
theorem freed_process_ready : ¬ ∀ (_ : Layout) (k : Kernel Pointers),
    (nucleus Pointers).Reachable k → OnePlace k := by
  intro h
  let run := bareRun (fun _ _ => true) [request 0 createProcess 0, request 0 yield 0, request 0 passeren 0x20002000,
    request 0 verhogen 0x20002000, request 0 termProcess 0]
  have hrun : run.isSome = true := by decide +kernel
  have hwalk : (run.bind fun k => Pointer.queues k.store).isNone = true := by decide +kernel
  obtain ⟨k, hk⟩ := Option.isSome_iff_exists.mp hrun
  obtain ⟨qs, hqs, -⟩ := h ramLayout k (bareRun_reachable hk)
  rw [hk, Option.bind_some, hqs] at hwalk
  cases hwalk

/-- The first process kills a child that waits, and a ready one below it. -/
theorem one_place_run : ∃ k, bareRun (fun k _ => tidy k)
    (killEvents (request 0 passeren 0x20002000)) = some k ∧ OnePlace k := by
  obtain ⟨k, hk⟩ := Option.isSome_iff_exists.mp (show (bareRun (fun k _ => tidy k)
    (killEvents (request 0 passeren 0x20002000))).isSome = true by decide +kernel)
  exact ⟨k, hk, (@one_place ramLayout k (bareRun_restrict (fun _ _ => byPlace_of_tidy) hk)).1⟩

end OnePlace

section History
variable {Q : Type} [QueueApi Q]

/-- The processes that an action terminates. -/
def terminated (a : Action) (k : Kernel Q) : Set Pcb :=
  {q | ∃ p, victim a k = some p ∧ InSubtree k p q}

/-- The process that an action creates. -/
def created (a : Action) (k : Kernel Q) : Set Pcb :=
  {q | ∃ a1 a2 a3 s, a = .createProcess a1 a2 a3 ∧ QueueApi.allocPcb k.store = some (s, some q)}

/-- A run together with the processes created and not yet terminated. -/
def withLive (S : System (Kernel Q) Entry) : System (Kernel Q × Set Pcb) Entry :=
  S.withHistory (fun k => {q | k.currProc = some q}) fun k e _ live =>
    live \ terminated (action e) k ∪ created (action e) k

theorem created_eq_empty {a : Action} {k : Kernel Q}
    (h : ∀ a1 a2 a3, a ≠ .createProcess a1 a2 a3) : created a k = ∅ := by
  refine Set.eq_empty_iff_forall_notMem.mpr fun q hq => ?_
  obtain ⟨a1, a2, a3, s, ha, -⟩ := hq
  exact h a1 a2 a3 ha

theorem terminated_eq_empty {a : Action} {k : Kernel Q} (h : victim a k = none) :
    terminated a k = ∅ := by
  refine Set.eq_empty_iff_forall_notMem.mpr fun q hq => ?_
  obtain ⟨p, hp, -⟩ := hq
  cases h.symm.trans hp

end History

section Free
variable {k k' : Kernel Lists} {key : Word} {p : Pcb}

theorem Dispatched.free (h : Dispatched k k') : k'.lists.free = k.lists.free := by
  cases h <;> rfl

theorem Woken.free {s : ProcessorState} (h : Woken key p s k k') :
    k'.lists.free = k.lists.free := by
  obtain ⟨v, hv, hl⟩ := h.queues
  rw [hl]
  exact hv.free

theorem WokenAll.free (h : WokenAll key k k') : k'.lists.free = k.lists.free := by
  induction h with
  | done => rfl
  | wake h _ _ ih => exact ih.trans h.free

theorem Requeued.free {t : Word} (h : Requeued p t k k') : k'.lists.free = k.lists.free := by
  rw [h.frame]

theorem Resumed.free (h : Resumed k k') : k'.lists.free = k.lists.free := by
  cases h with
  | ldst => rfl
  | dispatch _ hd => exact hd.free

theorem mem_terminated (hw : WF k) {a : Action} (hv : victim a k = some p) {q : Pcb} :
    q ∈ terminated a k ↔ Descendant k.lists p q := by
  constructor
  · rintro ⟨p', hp', hq⟩
    rw [hv, Option.some.injEq] at hp'
    subst hp'
    exact hw.inSubtree_iff.mp hq
  · exact fun hq => ⟨p, hv, hw.inSubtree_iff.mpr hq⟩

theorem mem_created (hw : WF k) {a1 a2 a3 : Word} {q : Pcb} :
    q ∈ created (.createProcess a1 a2 a3) k ↔ k.lists.free.head? = some q := by
  have hiff : q ∈ created (.createProcess a1 a2 a3) k ↔
      ∃ s, QueueApi.allocPcb k.store = some (s, some q) :=
    ⟨fun ⟨_, _, _, s, _, h⟩ => ⟨s, h⟩, fun ⟨s, h⟩ => ⟨a1, a2, a3, s, rfl, h⟩⟩
  rw [hiff]
  cases hf : k.lists.free with
  | nil => simp [allocPcb_full hf]
  | cons p free => simp [allocPcb_spec hw hf]

theorem victim_term {a1 : Word} (hv : if a1 = 0 then k.currProc = some p
    else findPcbByPid a1 k = some (some p)) : victim (.termProcess a1) k = some p := by
  simp only [victim]
  split at hv
  · next h0 => rw [if_pos h0, hv]
  · next h0 =>
    rw [if_neg h0, hv]
    rfl

variable [Layout]

theorem Signalled.free {i : ℕ} {status : Word} (h : Signalled i status k k') :
    k'.lists.free = k.lists.free := by
  cases h with
  | empty => rfl
  | wake h _ => exact h.free

/-- The free list loses what is created and gains what is terminated. -/
theorem Effect.mem_free {a : Action} (h : Effect a k k') (hw : WF k) (q : Pcb) :
    q ∈ k'.lists.free ↔ q ∉ created a k ∧ (q ∈ k.lists.free ∨ q ∈ terminated a k) := by
  have hsame : ∀ {a : Action} {k k' : Kernel Lists}, (∀ a1 a2 a3, a ≠ .createProcess a1 a2 a3) →
      victim a k = none → k'.lists.free = k.lists.free →
      (q ∈ k'.lists.free ↔ q ∉ created a k ∧ (q ∈ k.lists.free ∨ q ∈ terminated a k)) := by
    intro a k k' ha hv hf
    simp [created_eq_empty ha, terminated_eq_empty hv, hf]
  have hkill : ∀ {a : Action} {k k₁ k' : Kernel Lists} {p : Pcb} {D : Finset Pcb}, WF k →
      (∀ a1 a2 a3, a ≠ .createProcess a1 a2 a3) → victim a k = some p → Killed p D k k₁ →
      Dispatched k₁ k' →
      (q ∈ k'.lists.free ↔ q ∉ created a k ∧ (q ∈ k.lists.free ∨ q ∈ terminated a k)) := by
    intro a k k₁ k' p D hw ha hv h hd
    rw [created_eq_empty ha, mem_terminated hw hv, hd.free, h.mem_free, h.mem_iff, or_comm]
    simp
  cases h with
  | plt h hd | yield h hd => exact hsame (by simp) rfl (hd.free.trans h.free)
  | itIdle _ h hd => exact hsame (by simp) rfl (hd.free.trans h.free)
  | it h hr hd => exact hsame (by simp) rfl (hd.free.trans (hr.free.trans h.free))
  | deviceNone h hr => exact hsame (by simp) rfl hr.free
  | device h hs hr => exact hsame (by simp) rfl (hr.free.trans hs.free)
  | createFull h =>
      rw [mem_created hw, terminated_eq_empty rfl, h]
      exact ⟨fun hq => absurd (h ▸ hq) List.not_mem_nil, fun hq => absurd hq.2 (by simp)⟩
  | @create _ k₁ _ _ _ _ _ h =>
      have hn := hw.nodup.of_append_left.of_append_left.of_append_left
      rw [h.free, List.nodup_cons] at hn
      rw [mem_created hw, terminated_eq_empty rfl, h.free, List.head?_cons, List.mem_cons]
      have hq : q ∈ ((k₁.setExcA0 k.store.nextPid).ldst).lists.free ↔ q ∈ k₁.lists.free := Iff.rfl
      rw [hq, Option.some.injEq]
      refine ⟨fun hm => ⟨fun he => hn.1 (he ▸ hm), .inl (.inr hm)⟩, ?_⟩
      rintro ⟨hne, (rfl | hm) | hm⟩
      · exact absurd rfl hne
      · exact hm
      · exact absurd hm (Set.notMem_empty q)
  | term hv h hd => exact hkill hw (by simp) (victim_term hv) h hd
  | die hc hs h hd => exact hkill hw (by simp) (by simp [victim, hc, hs]) h hd
  | termUnknown ha h => exact hsame (by simp) ((if_neg ha).trans (by rw [h]; rfl)) rfl
  | passUp hc hs => exact hsame (by simp) (by simp [victim, hc, hs]) rfl
  | passeren _ h hd => exact hsame (by simp) rfl (hd.free.trans h.queues.free)
  | doio h hd => exact hsame (by simp) rfl (hd.free.trans h.queues.free)
  | clockWait h hd => exact hsame (by simp) rfl (hd.free.trans h.queues.free)
  | verhogen h _ => exact hsame (by simp) rfl h.free
  | _ => exact hsame (by simp) rfl rfl

end Free

section Live
variable {k k' : Kernel Lists}

theorem mem_of_places {p : Pcb} (h : k.places p ≠ 0) :
    p ∈ k.lists.free ∨ k.currProc = some p ∨ p ∈ k.lists.ready ∨ p ∈ k.lists.blocked := by
  by_contra hnot
  simp only [not_or] at hnot
  obtain ⟨hf, hc, hr, hb⟩ := hnot
  have hc' : k.currProc.toList.count p = 0 := List.count_eq_zero.mpr (by simpa using hc)
  rw [Kernel.places, List.count_eq_zero.mpr hf, List.count_eq_zero.mpr hr,
    List.count_eq_zero.mpr hb, hc'] at h
  exact h rfl

theorem Dispatched.places_eq (h : Dispatched k k') (hc : k.currProc = none) (q : Pcb) :
    k'.places q = k.places q := by
  cases h with
  | idle h => rfl
  | load p ps h =>
      have hl : (Nucleus.load p (k.setLists { k.lists with ready := ps })).places q =
          k.lists.free.count q + ps.count q + k.lists.blocked.count q + [p].count q := rfl
      rw [hl]
      simp only [Kernel.places, h, hc, List.count_cons, List.count_nil, Option.toList_none]
      omega

theorem Resumed.places_eq (h : Resumed k k') (q : Pcb) : k'.places q = k.places q := by
  cases h with
  | ldst p hc => rfl
  | dispatch hc hd => exact hd.places_eq hc q

theorem WokenAll.places_eq {key : Word} (h : WokenAll key k k') (q : Pcb) :
    k'.places q = k.places q := by
  induction h with
  | done => rfl
  | wake h _ _ ih => exact ih.trans (h.places_eq q)

variable [Layout]

theorem Signalled.places_eq {i : ℕ} {status : Word} (h : Signalled i status k k') (q : Pcb) :
    k'.places q = k.places q := by
  cases h with
  | empty => rfl
  | wake h _ => exact h.places_eq q

/-- When every kill includes the caller, every PCB stays in its one place. -/
theorem Effect.places_eq_one {a : Action} (h : Effect a k k')
    (hself : ∀ p, victim a k = some p → ∀ c, k.currProc = some c → Descendant k.lists p c)
    (hall : ∀ q, k.places q = 1) (q : Pcb) : k'.places q = 1 := by
  have hkill : ∀ {k k₁ k' : Kernel Lists} {p : Pcb} {D : Finset Pcb}, (∀ q, k.places q = 1) →
      (∀ c, k.currProc = some c → Descendant k.lists p c) → Killed p D k k₁ →
      Dispatched k₁ k' → k'.places q = 1 := by
    intro k k₁ k' p D hall hc h hd
    have hnone : k₁.currProc = none := by
      rw [Option.eq_none_iff_forall_ne_some]
      intro c hc'
      have hcd := h.curr_eq_some.mp hc'
      exact hcd.2 (h.mem_iff.mpr (hc c hcd.1))
    rw [hd.places_eq hnone, h.places_eq, hall, ite_self]
  cases h with
  | plt h hd | yield h hd =>
      rw [hd.places_eq h.currProc_eq, h.places_eq]
      exact hall q
  | itIdle hc h hd =>
      rw [hd.places_eq (h.curr.trans hc)]
      exact (h.places_eq q).trans (hall q)
  | it h hr hd =>
      rw [hd.places_eq hr.currProc_eq, hr.places_eq]
      exact (h.places_eq q).trans (hall q)
  | deviceNone h hr => exact (hr.places_eq q).trans (hall q)
  | device h hs hr => exact (hr.places_eq q).trans ((hs.places_eq q).trans (hall q))
  | create h => exact (h.places_eq q).trans (hall q)
  | term hv h hd => exact hkill hall (hself _ (victim_term hv)) h hd
  | die hc hs h hd => exact hkill hall (hself _ (by simp [victim, hc, hs])) h hd
  | passeren _ h hd =>
      rw [hd.places_eq h.currProc_eq, h.places_eq]
      exact hall q
  | doio h hd =>
      rw [hd.places_eq h.currProc_eq]
      exact (h.places_eq q).trans (hall q)
  | clockWait h hd =>
      rw [hd.places_eq h.currProc_eq, h.places_eq]
      exact hall q
  | verhogen h hd => exact (h.places_eq q).trans (hall q)
  | _ => exact hall q

end Live

section NoneLost

/-- Whoever is killed, the caller is among them. -/
def KillsCaller {Q : Type} [QueueApi Q] (k : Kernel Q) (e : Entry) : Prop :=
  ∀ p, victim (action e) k = some p → ∀ c, k.currProc = some c → InSubtree k p c

theorem KillsCaller.of_victim {Q : Type} [QueueApi Q] {k : Kernel Q} {e : Entry}
    (h : victim (action e) k = none) : KillsCaller k e := fun _ hp => nomatch h.symm.trans hp

/-- Who is killed is the caller, and everybody is in place. -/
def killsItself (k : Kernel Pointers) (e : Entry) : Bool :=
  inPlace k && (victim (action e) k).all fun p => k.currProc == some p

theorem caller_of_killsItself {k : Kernel Pointers} {e : Entry} (h : killsItself k e = true) :
    KillsByPlace k e ∧ KillsCaller k e := by
  obtain ⟨hplace, hself⟩ := Bool.and_eq_true_iff.mp h
  refine ⟨.of_inPlace hplace, fun p hv c hc => ?_⟩
  rw [hv, Option.all_some, hc, beq_iff_eq, Option.some.injEq] at hself
  exact hself ▸ .refl

/-- The walk over the queues ends, and meets every live process but the current one. -/
def NoneLost (k : Kernel Pointers) (live : Set Pcb) : Prop :=
  ∃ qs, Pointer.queues k.store = some qs ∧
    ∀ p ∈ live, k.currProc = some p ∨ p ∈ qs.ready ∨ p ∈ qs.blocked

variable {k : Kernel Pointers} {l : Kernel Lists} {e : Entry}

theorem terminated_eq (h : KernelRel k l) (hw : WF l) (a : Action) :
    terminated a k = terminated a l := by
  ext q
  simp only [terminated, victim_eq h hw]
  refine exists_congr fun p => and_congr_right fun hp => ?_
  exact (inSubtree_iff h hw (victim_not_free hw hp)).trans hw.inSubtree_iff.symm

theorem created_eq (h : KernelRel k l) (hw : WF l) (a : Action) :
    created a k = created a l := by
  have hall : ∃ s r, QueueApi.allocPcb l.store = some (s, r) := by
    cases hf : l.lists.free with
    | nil => exact ⟨_, _, allocPcb_full hf⟩
    | cons p free => exact ⟨_, _, allocPcb_spec hw hf⟩
  obtain ⟨s, r, hs⟩ := hall
  obtain ⟨⟨s', r'⟩, hs', -, hr⟩ := h.store.allocPcb _ hs
  obtain rfl : r' = r := hr
  ext q
  simp only [created, hs, show QueueApi.allocPcb k.store = some (s', r') from hs']
  simp

theorem KillsCaller.lists (h : KernelRel k l) (hw : WF l) (hk : KillsCaller k e) :
    KillsCaller l e := by
  intro p hv c hc
  have hq := hk p ((victim_eq h hw _).trans hv) c
    ((congrArg KernelData.currProc h.data).trans hc)
  exact hw.inSubtree_iff.mpr ((inSubtree_iff h hw (victim_not_free hw hv)).mp hq)

variable [Layout]

theorem Booted.mem_free {b : BootImage} {p : Pcb} {k : Kernel Lists} (h : Booted b p k)
    (q : Pcb) : q ∈ k.lists.free ↔ q ≠ p := by
  have hn : (p :: k.lists.free).Nodup := by
    rw [h.free]
    exact List.nodup_reverse.mpr (List.nodup_finRange maxProc)
  have hq : q ∈ p :: k.lists.free := by
    rw [h.free]
    exact List.mem_reverse.mpr (List.mem_finRange q)
  exact ⟨fun hf he => (List.nodup_cons.mp hn).1 (he ▸ hf), (List.mem_cons.mp hq).resolve_left⟩

/-- On lists: a PCB is live exactly when it is not free. -/
theorem live_iff {C : Kernel Lists → Entry → Prop} (hkill : ∀ l e, C l e → KillsByPlace l e)
    {x : Kernel Lists × Set Pcb} (h : (withLive ((nucleus Lists).restrict C)).Reachable x) :
    ∀ q, q ∈ x.2 ↔ q ∉ x.1.lists.free := by
  refine h.invariant (I := fun x => ∀ q, q ∈ x.2 ↔ q ∉ x.1.lists.free) ?_ ?_
  · intro x hx q
    obtain ⟨b, hb⟩ := init_booted hx.1
    have hc : x.1.currProc = some firstPcb := congrArg KernelData.currProc hb.data
    have hq : q ∈ x.2 ↔ x.1.currProc = some q := by rw [hx.2]; exact Iff.rfl
    rw [hq, hc, hb.mem_free, not_not, Option.some.injEq, eq_comm]
  · intro x e x' hr hi hs q
    have hsound := sound_of_reachable hkill hr.fst
    have he := (step_effect hkill hsound hs.1).1
    have hf : q ∈ x'.1.lists.free ↔ q ∉ created (action e) x.1 ∧
      (q ∈ x.1.lists.free ∨ q ∈ terminated (action e) x.1) := he.mem_free (hsound.wf.data rfl rfl) q
    rw [hs.2, hf, Set.mem_union, Set.mem_sdiff, hi]
    tauto

/-- On lists: every PCB has its one place. -/
theorem places_eq_one {l : Kernel Lists} (h : ((nucleus Lists).restrict fun k e =>
    KillsByPlace k e ∧ KillsCaller k e).Reachable l) : ∀ q, l.places q = 1 := by
  refine h.invariant (I := fun l => ∀ q, l.places q = 1) ?_ ?_
  · intro l hl q
    obtain ⟨b, hb⟩ := init_booted hl
    have hc : l.currProc = some firstPcb := congrArg KernelData.currProc hb.data
    have hle := hb.wf.places q
    rw [Kernel.places, hc, Option.toList_some, List.count_singleton] at hle ⊢
    by_cases hq : q = firstPcb
    · subst hq
      simp at hle ⊢
      omega
    · have := List.count_pos_iff.mpr ((hb.mem_free q).mpr hq)
      omega
  · intro l e l' hr hi hs
    have hsound := sound_of_reachable (fun _ _ hc => hc.1) hr
    have he := (step_effect (fun _ _ hc => hc.1) hsound hs).1
    refine he.places_eq_one (fun p hv c hc => ?_) hi
    exact hsound.wf.inSubtree_iff.mp (hs.1.2 p hv c hc)

/-- The history of the runs on pointers is that of the runs on lists. -/
theorem live_refines {C : Kernel Pointers → Entry → Prop} {C' : Kernel Lists → Entry → Prop}
    (hkill : ∀ l e, C' l e → KillsByPlace l e)
    (hC : ∀ k l e, KernelRel k l → Sound l → C k e → C' l e) :
    (withLive ((nucleus Pointers).restrict C)).Refines (withLive ((nucleus Lists).restrict C'))
      (fun x y => KernelRel x.1 y.1 ∧ x.2 = y.2) := by
  refine (nucleus_refines hkill hC).withHistory (fun _ hr => ?_) fun hl hr _ => ?_
  · rw [congrArg KernelData.currProc hr.data]
  · have hw := (sound_of_reachable hkill hl).wf
    rw [terminated_eq hr hw, created_eq hr hw]

end NoneLost

section Concrete
variable {Q : Type} [QueueApi Q]

/-- Without kills, the live processes stay. -/
theorem live_execute [Layout] {P : Kernel Q → Entry → Bool} {C : Kernel Q → Entry → Prop}
    (hP : ∀ k e, P k e = true → C k e ∧ victim (action e) k = none) {k k' : Kernel Q}
    {live : Set Pcb} {es : List Entry}
    (h : (withLive ((nucleus Q).restrict C)).Reachable (k, live))
    (hr : execute P es k = some k') :
    ∃ live', live ⊆ live' ∧ (withLive ((nucleus Q).restrict C)).Reachable (k', live') := by
  induction es generalizing k live with
  | nil => exact ⟨live, subset_rfl, Option.some.inj hr ▸ h⟩
  | cons e es ih =>
      rw [execute] at hr
      split at hr
      · next hp =>
        obtain ⟨k₁, hk₁, hr⟩ := Option.bind_eq_some_iff.mp hr
        obtain ⟨hc, hv⟩ := hP k e hp.2
        have hstep : (withLive ((nucleus Q).restrict C)).Reachable
            (k₁, live \ terminated (action e) k ∪ created (action e) k) :=
          .step h ⟨⟨hc, hp.1, hk₁⟩, rfl⟩
        obtain ⟨live', hsub, hr'⟩ := ih hstep hr
        refine ⟨live', fun q hq => hsub (.inl ⟨hq, ?_⟩), hr'⟩
        rw [terminated_eq_empty hv]
        exact Set.notMem_empty q
      · cases hr

theorem bareRun_live {P : Kernel Pointers → Entry → Bool} {C : Kernel Pointers → Entry → Prop}
    (hP : ∀ k e, P k e = true → C k e ∧ victim (action e) k = none) {es : List Entry}
    {k : Kernel Pointers} (h : bareRun P es = some k) : ∃ live, firstPcb ∈ live ∧
      (withLive ((@nucleus ramLayout Pointers _).restrict C)).Reachable (k, live) := by
  let := ramLayout
  obtain ⟨k₀, hk₀, hr⟩ := Option.bind_eq_some_iff.mp h
  have h₀ : (nucleus Pointers).init k₀ := ⟨bareImage, bareLinks, hk₀⟩
  obtain ⟨l, hl, hb⟩ := main_spec bareImage Lists.boot
  obtain ⟨k₁, hk₁, hrel⟩ := main_refines bareImage bareLinks Lists.boot l hl
  obtain rfl : k₀ = k₁ := Option.some.inj (hk₀.symm.trans hk₁)
  have hc : k₀.currProc = some firstPcb :=
    (congrArg KernelData.currProc hrel.data).trans (congrArg KernelData.currProc hb.data)
  have hinit : (withLive ((nucleus Pointers).restrict C)).Reachable
      (k₀, {q | k₀.currProc = some q}) := .init ⟨h₀, rfl⟩
  obtain ⟨live, hsub, hreach⟩ := live_execute hP hinit hr
  exact ⟨live, @hsub firstPcb hc, hreach⟩

theorem no_process_lost [Layout] {k : Kernel Pointers} {live : Set Pcb}
    (h : (withLive ((nucleus Pointers).restrict fun k e =>
      KillsByPlace k e ∧ KillsCaller k e)).Reachable (k, live)) : NoneLost k live := by
  have hkill : ∀ (l : Kernel Lists) (e : Entry), KillsByPlace l e ∧ KillsCaller l e →
      KillsByPlace l e := fun _ _ hc => hc.1
  obtain ⟨⟨l, _⟩, hl, hr, rfl⟩ := (live_refines hkill fun _ _ _ hr hl hc =>
    ⟨hc.1.lists hr, hc.2.lists hr hl.wf⟩).reachable h
  refine ⟨_, hr.store.queues, fun p hp => ?_⟩
  have hf := (live_iff (fun _ _ hc => hc.1) hl p).mp hp
  have h1 := places_eq_one hl.fst p
  rw [Lists.queues_blocked, congrArg KernelData.currProc hr.data]
  exact (mem_of_places (h1 ▸ one_ne_zero)).resolve_left hf

/-- A process kills itself and its child. -/
theorem no_process_lost_run : ∃ k live,
    bareRun killsItself killItselfEvents = some k ∧ NoneLost k live := by
  obtain ⟨k, hk⟩ := Option.isSome_iff_exists.mp
    (show (bareRun killsItself killItselfEvents).isSome = true by decide +kernel)
  have hreach : ((@nucleus ramLayout Pointers _).restrict fun k e =>
      KillsByPlace k e ∧ KillsCaller k e).Reachable k :=
    bareRun_restrict (fun _ _ => caller_of_killsItself) hk
  obtain ⟨live, hlive⟩ := hreach.exists_history
  exact ⟨k, live, hk, @no_process_lost ramLayout k live hlive⟩

theorem inSubtree_of_childless {k : Kernel Pointers} {p q : Pcb}
    (hc : QueueApi.children p k.store = some []) (h : InSubtree k p q) : q = p := by
  cases h.cases_head with
  | inl he => exact he.symm
  | inr hx =>
      obtain ⟨c, ⟨cs, hcs, hm⟩, -⟩ := hx
      rw [hc, Option.some.injEq] at hcs
      exact absurd (hcs ▸ hm) List.not_mem_nil

/-- A process creates two children and terminates the first: the second takes
the CPU, and the caller is in no queue. -/
theorem caller_lost : ¬ ∀ (_ : Layout) (k : Kernel Pointers) (live : Set Pcb),
    (withLive (nucleus Pointers)).Reachable (k, live) → NoneLost k live := by
  intro h
  let := ramLayout
  let run := bareRun (fun k e => victim (action e) k = none)
    [request 0 createProcess 0, request 0 createProcess 0]
  let kill := request 0 termProcess 2
  have hrun : run.isSome = true := by decide +kernel
  have hvictim : (run.all fun k => Possible k kill ∧ victim (action kill) k = some 18 ∧
      QueueApi.children 18 k.store = some []) = true := by decide +kernel
  have hkill : (run.bind (kernelEntry kill)).isSome = true := by decide +kernel
  have hlost : ((run.bind (kernelEntry kill)).all fun k => k.currProc ≠ some firstPcb ∧
      (Pointer.queues k.store).all fun qs =>
        firstPcb ∉ qs.ready ∧ firstPcb ∉ qs.blocked) = true := by decide +kernel
  obtain ⟨k, hk⟩ := Option.isSome_iff_exists.mp hrun
  obtain ⟨k', hk'⟩ := Option.isSome_iff_exists.mp hkill
  rw [hk'] at hlost
  rw [hk, Option.bind_some] at hk'
  rw [hk] at hvictim
  have hv := of_decide_eq_true hvictim
  have hl := of_decide_eq_true hlost
  obtain ⟨live, hfirst, hreach⟩ := bareRun_live (C := fun _ _ => True)
    (fun k e hP => ⟨trivial, of_decide_eq_true hP⟩) hk
  obtain ⟨qs, hqs, hnone⟩ := h ramLayout k' _
    (.step hreach.history_of_restrict ⟨⟨hv.1, hk'⟩, rfl⟩)
  have hmem : firstPcb ∈ live \ terminated (action kill) k ∪ created (action kill) k := by
    refine .inl ⟨hfirst, ?_⟩
    rintro ⟨p, hp, hq⟩
    rw [hv.2.1, Option.some.injEq] at hp
    subst hp
    exact absurd (inSubtree_of_childless hv.2.2 hq) (by decide)
  have hq := hl.2
  rw [hqs] at hq
  have hq := of_decide_eq_true hq
  rcases hnone firstPcb hmem with hc | hr | hb
  · exact hl.1 hc
  · exact hq.1 hr
  · exact hq.2 hb

end Concrete
end PandOSsh.Nucleus
