import PandOSsh.Nucleus.Moves

/-!
# Recursive termination

`terminateProcess` removes a whole subtree. `Removed D` says what is left when
the processes of `D` are gone; removals compose, so the recursion is followed
child by child. The one thing that can go wrong is the guess of `unlink`: it is
right for `q` exactly when `Consistent k q`.
-/

namespace PandOSsh

/-- `q` is `p` or below `p` in the process tree. -/
def Descendant (v : Lists) : Pcb → Pcb → Prop := Relation.ReflTransGen fun a b => b ∈ v.child a

theorem Descendant.mono {v v' : Lists} {p q : Pcb} (h : Descendant v' p q)
    (hc : ∀ a, v'.child a ⊆ v.child a) : Descendant v p q :=
  Relation.ReflTransGen.mono (fun a _ hb => hc a hb) _ _ h

theorem Tree.depth_le {v : Lists} {depth : Pcb → ℕ}
    (hd : ∀ p c, c ∈ v.child p → depth p < depth c) {p q : Pcb} (h : Descendant v p q) :
    depth p ≤ depth q := by
  induction h with
  | refl => exact le_rfl
  | tail _ hc ih => exact ih.trans (hd _ _ hc).le

/-- No process is below one of its children. -/
theorem Tree.not_descendant {v : Lists} {parent : Pcb → Option Pcb} (h : Tree v parent)
    {p c : Pcb} (hc : c ∈ v.child p) : ¬ Descendant v c p := by
  obtain ⟨depth, hd⟩ := h.acyclic
  intro hp
  exact absurd (Tree.depth_le hd hp) (Nat.not_le_of_gt (hd p c hc))

namespace Nucleus

/-- `p_semAdd` tells where `q` is, unless `q` is on the CPU. -/
def Consistent (k : Kernel Lists) (q : Pcb) : Prop :=
  k.currProc ≠ some q →
    (q ∈ k.lists.ready → (k.pcb q).pSemAdd = null) ∧
      (q ∈ k.lists.blocked → (k.pcb q).pSemAdd ≠ null)

section Singleton
variable {p : Pcb}

theorem filter_ne_of_not_mem {l : List Pcb} (h : p ∉ l) :
    l.filter (fun q => q ∉ ({p} : Finset Pcb)) = l := by
  refine List.filter_eq_self.mpr fun q hq => ?_
  have : q ≠ p := fun he => h (he ▸ hq)
  simpa using this

theorem erase_eq_filter_ne {l : List Pcb} (h : l.Nodup) :
    l.erase p = l.filter fun q => q ∉ ({p} : Finset Pcb) := by
  rw [h.erase_eq_filter]
  refine List.filter_congr fun q _ => ?_
  by_cases hq : q = p <;> simp [hq]

theorem curr_filter_ne {k : Kernel Lists} (h : k.currProc ≠ some p) :
    k.currProc.filter (fun q => q ∉ ({p} : Finset Pcb)) = k.currProc := by
  cases hc : k.currProc with
  | none => rfl
  | some c =>
      have hcp : c ≠ p := fun he => h (by rw [hc, he])
      simp [Option.filter, hcp]

end Singleton

variable [Layout]

/-- The kill of `q` decrements `softBlock_count`. -/
def SoftKilled (k : Kernel Lists) (q : Pcb) : Prop :=
  k.currProc ≠ some q ∧ isDeviceSemaphore (k.pcb q).pSemAdd = true

instance (k : Kernel Lists) : DecidablePred (SoftKilled k) := fun _ =>
  inferInstanceAs (Decidable (_ ∧ _))

/-- The processes of `D` have been terminated. -/
structure Removed (D : Finset Pcb) (k k' : Kernel Lists) : Prop where
  live : ∀ q ∈ D, q ∉ k.lists.free
  data : k'.toKernelData = { k.toKernelData with
    processCount := k.processCount - D.card
    softBlockCount := k.softBlockCount - (D.filter (SoftKilled k)).card
    currProc := k.currProc.filter fun q => q ∉ D }
  nextPid : k'.store.nextPid = k.store.nextPid
  pcb : ∀ q, k'.pcb q = if q ∈ D then { k.pcb q with pParent := none } else k.pcb q
  free : ∃ ds : List Pcb, ds.Nodup ∧ (∀ q, q ∈ ds ↔ q ∈ D) ∧ k'.lists.free = ds ++ k.lists.free
  ready : k'.lists.ready = k.lists.ready.filter fun q => q ∉ D
  active : k'.lists.Active
  waiters : ∀ a, k'.lists.waiters a = (k.lists.waiters a).filter fun q => q ∉ D
  blocked : ∀ q, k'.lists.blocked.count q = if q ∈ D then 0 else k.lists.blocked.count q
  child : ∀ q, k'.lists.child q = (k.lists.child q).filter fun c => c ∉ D

namespace Removed
variable {k k₁ k' : Kernel Lists} {D D' : Finset Pcb} {q : Pcb}

theorem refl (hw : WF k) : Removed ∅ k k := by
  refine ⟨by simp, ?_, rfl, by simp, ⟨[], by simp⟩, by simp, hw.active, by simp, by simp, by simp⟩
  have hf : k.currProc.filter (fun q => decide (q ∉ (∅ : Finset Pcb))) = k.currProc := by
    cases k.currProc <;> simp
  rw [hf]
  simp

theorem mem_free (h : Removed D k k') : q ∈ k'.lists.free ↔ q ∈ D ∨ q ∈ k.lists.free := by
  obtain ⟨ds, -, hds, hf⟩ := h.free
  rw [hf, List.mem_append, hds]

theorem curr (h : Removed D k k') : k'.currProc = k.currProc.filter fun q => q ∉ D := by
  rw [h.data]

theorem curr_eq_some (h : Removed D k k') :
    k'.currProc = some q ↔ k.currProc = some q ∧ q ∉ D := by
  rw [h.curr]
  simp

theorem mem_blocked (h : Removed D k k') :
    q ∈ k'.lists.blocked ↔ q ∉ D ∧ q ∈ k.lists.blocked := by
  rw [← List.count_pos_iff, h.blocked, ← List.count_pos_iff]
  split <;> simp_all

theorem trans (h : Removed D k k₁) (h' : Removed D' k₁ k') : Removed (D ∪ D') k k' := by
  have hdis : Disjoint D D' := Finset.disjoint_left.mpr fun q hq hq' =>
    h'.live q hq' (h.mem_free.mpr (.inl hq))
  have hmem : ∀ l : List Pcb, (l.filter fun q => q ∉ D).filter (fun q => q ∉ D') =
      l.filter fun q => q ∉ D ∪ D' := by
    intro l
    rw [List.filter_filter]
    congr 1
    funext q
    simp [Finset.mem_union, Bool.and_comm]
  refine ⟨fun q hq => ?_, ?_, h'.nextPid.trans h.nextPid, fun q => ?_, ?_, ?_, h'.active,
    fun a => ?_, fun q => ?_, fun q => ?_⟩
  · rcases Finset.mem_union.mp hq with hq | hq
    · exact h.live q hq
    · exact fun hf => h'.live q hq (h.mem_free.mpr (.inr hf))
  · have hsoft : (D'.filter (SoftKilled k₁)) = D'.filter (SoftKilled k) := by
      refine Finset.filter_congr fun q hq => ?_
      have hqD : q ∉ D := fun hm => Finset.disjoint_left.mp hdis hm hq
      rw [SoftKilled, SoftKilled, h.pcb, if_neg hqD, Ne, Ne, h.curr_eq_some]
      simp [hqD]
    have hcurr : (k.currProc.filter fun q => q ∉ D).filter (fun q => q ∉ D') =
        k.currProc.filter fun q => q ∉ D ∪ D' := by
      cases k.currProc with
      | none => rfl
      | some c =>
          by_cases hc : c ∈ D <;> by_cases hc' : c ∈ D' <;>
            simp [Option.filter, hc, hc']
    rw [h'.data, hsoft, h.data]
    simp only [KernelData.mk.injEq, and_true]
    refine ⟨?_, ?_, hcurr⟩
    · rw [Finset.card_union_of_disjoint hdis]
      push_cast
      omega
    · rw [Finset.filter_union,
        Finset.card_union_of_disjoint (Finset.disjoint_filter_filter hdis)]
      push_cast
      omega
  · rw [h'.pcb, h.pcb]
    by_cases hq : q ∈ D <;> by_cases hq' : q ∈ D' <;> simp [hq, hq']
  · obtain ⟨ds, hn, hds, hf⟩ := h.free
    obtain ⟨ds', hn', hds', hf'⟩ := h'.free
    refine ⟨ds' ++ ds, ?_, fun q => ?_, ?_⟩
    · refine hn'.append hn fun q hq hq' => ?_
      exact Finset.disjoint_left.mp hdis ((hds q).mp hq') ((hds' q).mp hq)
    · rw [List.mem_append, hds, hds', Finset.mem_union]
      exact or_comm
    · rw [hf', hf, List.append_assoc]
  · rw [h'.ready, h.ready, hmem]
  · rw [h'.waiters, h.waiters, hmem]
  · rw [h'.blocked, h.blocked]
    by_cases hq : q ∈ D <;> by_cases hq' : q ∈ D' <;> simp [hq, hq']
  · rw [h'.child, h.child, hmem]

theorem places_eq (h : Removed D k k') :
    k'.places q = if q ∈ D then 1 else k.places q := by
  obtain ⟨ds, hn, hds, hf⟩ := h.free
  have hds' : ds.count q = if q ∈ D then 1 else 0 := by
    rw [List.Nodup.count hn]
    simp [hds]
  have hcurr : k'.currProc.toList.count q = if q ∈ D then 0 else k.currProc.toList.count q := by
    rw [h.curr]
    cases k.currProc with
    | none => simp
    | some c =>
        by_cases hc : c ∈ D <;> by_cases hq : q ∈ D
        · simp [Option.filter, hc, hq]
        · have hcq : c ≠ q := fun he => hq (he ▸ hc)
          simp [Option.filter, hc, hq, hcq]
        · have hcq : c ≠ q := fun he => hc (he ▸ hq)
          simp [Option.filter, hc, hq, hcq]
        · simp [Option.filter, hc, hq]
  have hready : k'.lists.ready.count q = if q ∈ D then 0 else k.lists.ready.count q := by
    rw [h.ready]
    by_cases hq : q ∈ D
    · rw [if_pos hq, List.count_eq_zero]
      simp [hq]
    · rw [if_neg hq, List.count_filter (by simp [hq])]
  rw [Kernel.places, hf, List.count_append, hds', hcurr, hready, h.blocked]
  by_cases hq : q ∈ D
  · have := List.count_eq_zero.mpr (h.live q hq)
    simp [hq, this]
  · simp [hq, Kernel.places]

/-- The removal of a whole subtree keeps the invariant. -/
theorem wf (h : Removed D k k') (hw : WF k) (hD : ∀ q ∈ D, ∀ c ∈ k.lists.child q, c ∈ D) :
    WF k' where
  places q := by
    rw [h.places_eq]
    split
    · exact le_rfl
    · exact hw.places q
  active := h.active
  semAdd a q hq := by
    rw [h.waiters, List.mem_filter] at hq
    have hqD : q ∉ D := by simpa using hq.2
    rw [h.pcb, if_neg hqD]
    exact hw.semAdd a q hq.1
  tree := by
    refine ⟨fun q => ?_, fun q c => ?_, fun q hq => ?_, ?_⟩
    · rw [h.child]
      exact (hw.tree.nodup q).filter _
    · rw [h.child, h.pcb, List.mem_filter, hw.tree.child_iff]
      by_cases hc : c ∈ D <;> simp [hc]
    · rw [h.child, h.pcb]
      rcases h.mem_free.mp hq with hqD | hqf
      · rw [if_pos hqD]
        refine ⟨List.filter_eq_nil_iff.mpr fun c hc => ?_, rfl⟩
        simp [hD q hqD c hc]
      · have ht := hw.tree.free q hqf
        rw [ht.1]
        refine ⟨rfl, ?_⟩
        split
        · rfl
        · exact ht.2
    · obtain ⟨depth, hd⟩ := hw.tree.acyclic
      refine ⟨depth, fun q c hc => hd q c ?_⟩
      rw [h.child] at hc
      exact List.mem_of_mem_filter hc

end Removed
section One
variable {k k₁ k' : Kernel Lists} {p : Pcb}

/-- `p` is out of the queues and off the CPU, its PCB is otherwise as before. -/
structure Unlinked (p : Pcb) (k k' : Kernel Lists) : Prop where
  data : k'.toKernelData = { k.toKernelData with
    softBlockCount := k.softBlockCount - if SoftKilled k p then 1 else 0
    currProc := k.currProc.filter fun q => q ∉ ({p} : Finset Pcb) }
  pcbs : k'.store.toPcbData = k.store.toPcbData
  free : k'.lists.free = k.lists.free
  ready : k'.lists.ready = k.lists.ready.filter fun q => q ∉ ({p} : Finset Pcb)
  active : k'.lists.Active
  waiters : ∀ a, k'.lists.waiters a =
    (k.lists.waiters a).filter fun q => q ∉ ({p} : Finset Pcb)
  blocked : ∀ q, k'.lists.blocked.count q = if q = p then 0 else k.lists.blocked.count q
  child : k'.lists.child = k.lists.child

/-- Nothing is unlinked from the queues when `p` is in none of them. -/
theorem unlinked_of_not_queued (hw : WF k) (hr : p ∉ k.lists.ready) (hb : p ∉ k.lists.blocked)
    (hl : k'.store = k.store) (hd : k'.toKernelData = { k.toKernelData with
      softBlockCount := k.softBlockCount - if SoftKilled k p then 1 else 0
      currProc := k.currProc.filter fun q => q ∉ ({p} : Finset Pcb) }) : Unlinked p k k' := by
  have hl' : k'.lists = k.lists := congrArg Store.lists hl
  refine ⟨hd, by rw [hl], by rw [hl'], ?_, by rw [hl']; exact hw.active, fun a => ?_,
    fun q => ?_, by rw [hl']⟩
  · rw [hl', filter_ne_of_not_mem hr]
  · rw [hl', filter_ne_of_not_mem]
    exact fun hm => hb (hw.active.mem_blocked.mpr ⟨a, hm⟩)
  · rw [hl']
    split
    · next hq => rw [hq, List.count_eq_zero.mpr hb]
    · rfl

theorem unlink_current (hw : WF k) (hcurr : k.currProc = some p) :
    ∃ k', unlink p k = some k' ∧ Unlinked p k k' := by
  have hpl := hw.places p
  rw [Kernel.places, hcurr, Option.toList_some, List.count_singleton_self] at hpl
  refine ⟨{ k with currProc := none }, by rw [unlink, if_pos hcurr.symm], ?_⟩
  refine unlinked_of_not_queued hw ?_ ?_ rfl ?_
  · exact fun hm => by have := List.count_pos_iff.mpr hm; omega
  · exact fun hm => by have := List.count_pos_iff.mpr hm; omega
  · have hs : ¬ SoftKilled k p := fun h => h.1 hcurr
    simp [hs, hcurr, Option.filter]

/-- `p` is taken for ready. -/
theorem unlink_ready (hw : WF k) (hcurr : k.currProc ≠ some p) (hsem : (k.pcb p).pSemAdd = null)
    (hb : p ∉ k.lists.blocked) : ∃ k', unlink p k = some k' ∧ Unlinked p k k' := by
  have hc' : ¬ some p = k.currProc := fun h => hcurr h.symm
  have hs : ¬ SoftKilled k p := fun h => by
    have := h.2
    rw [hsem, isDeviceSemaphore_null] at this
    cases this
  by_cases hr : p ∈ k.lists.ready
  · have ho : QueueApi.outProcQ p k.store = some (Lists.setLists k.store
        { k.lists with ready := k.lists.ready.erase p }, some p) := if_pos hr
    have hnd : k.lists.ready.Nodup := by
      rw [List.nodup_iff_count_le_one]
      intro q
      have hq := hw.places q
      rw [Kernel.places] at hq
      omega
    refine ⟨k.setLists { k.lists with ready := k.lists.ready.erase p }, ?_,
      ?_, rfl, rfl, erase_eq_filter_ne hnd, hw.active.congr rfl rfl, fun a => ?_,
      fun q => ?_, rfl⟩
    · rw [unlink, if_neg hc', if_neg (not_not.mpr hsem), ho]
      rfl
    · rw [curr_filter_ne hcurr, if_neg hs]
      simp
    · exact (filter_ne_of_not_mem fun hm =>
        hb (hw.active.mem_blocked.mpr ⟨a, hm⟩)).symm
    · change k.lists.blocked.count q = _
      split
      · next hq => rw [hq, List.count_eq_zero.mpr hb]
      · rfl
  · have ho : QueueApi.outProcQ p k.store = some (k.store, none) := if_neg hr
    refine ⟨k, ?_, unlinked_of_not_queued hw hr hb rfl ?_⟩
    · rw [unlink, if_neg hc', if_neg (not_not.mpr hsem), ho]
      rfl
    · rw [curr_filter_ne hcurr, if_neg hs]
      simp

/-- What `unlink` does with a `p` that it takes for blocked. -/
theorem unlink_of_outBlocked {v : Lists} {r : Option Pcb} (hcurr : k.currProc ≠ some p)
    (hsem : (k.pcb p).pSemAdd ≠ null)
    (ho : QueueApi.outBlocked p k.store = some (Lists.setLists k.store v, r)) :
    unlink p k = some { k.setLists v with
      softBlockCount := k.softBlockCount - if SoftKilled k p then 1 else 0 } := by
  rw [unlink, if_neg fun h => hcurr h.symm, if_pos hsem, ho, Option.map_some]
  by_cases hd : isDeviceSemaphore (k.pcb p).pSemAdd = true
  · have hs : SoftKilled k p := ⟨hcurr, hd⟩
    simp only [if_pos hs]
    exact congrArg some (if_pos hd)
  · have hs : ¬ SoftKilled k p := fun h => hd h.2
    simp only [if_neg hs, Int.sub_zero]
    exact congrArg some (if_neg hd)

theorem unlink_blocked (hw : WF k) (hcurr : k.currProc ≠ some p) (hsem : (k.pcb p).pSemAdd ≠ null)
    (hr : p ∉ k.lists.ready) : ∃ k', unlink p k = some k' ∧ Unlinked p k k' := by
  by_cases hb : p ∈ k.lists.blocked
  · obtain ⟨a, ha⟩ := hw.active.mem_blocked.mp hb
    have hkey : (k.store.pcb p).pSemAdd = a := hw.semAdd a p ha
    obtain ⟨v, ho, hv⟩ := Lists.Active.outBlocked_spec (s := k.store) (p := p) hw.active
      (by rw [hkey]; exact ha)
    rw [hkey] at hv
    refine ⟨_, unlink_of_outBlocked hcurr hsem ho, ?_, rfl, hv.free, ?_, hv.active, fun b => ?_,
      fun q => ?_, hv.child⟩
    · rw [curr_filter_ne hcurr]
      rfl
    · exact hv.ready.trans (filter_ne_of_not_mem hr).symm
    · refine (hv.waiters b).trans ?_
      by_cases hba : b = a
      · rw [if_pos hba, hba]
        refine erase_eq_filter_ne ?_
        exact waiters_nodup hw
      · rw [if_neg hba]
        refine (filter_ne_of_not_mem fun hm => hba ?_).symm
        exact (hw.semAdd b p hm).symm.trans hkey
    · have hpl := hw.places p
      rw [Kernel.places] at hpl
      have hcount := hv.blocked.count_eq q
      rw [List.count_cons] at hcount
      change v.blocked.count q = _
      change k.lists.blocked.count q = _ at hcount
      split
      · next hq =>
        subst hq
        simp only [beq_self_eq_true, if_true] at hcount
        omega
      · next hq =>
        have hqp : ¬ p = q := fun h => hq h.symm
        simp only [beq_iff_eq, if_neg hqp] at hcount
        omega
  · have ho := Lists.Active.outBlocked_none (s := k.store) (p := p) hw.active
      fun hm => hb (hw.active.mem_blocked.mpr ⟨_, hm⟩)
    have hrun : unlink p k = some { k.setLists k.lists with
        softBlockCount := k.softBlockCount - if SoftKilled k p then 1 else 0 } :=
      unlink_of_outBlocked hcurr hsem ho
    refine ⟨_, hrun, unlinked_of_not_queued hw hr hb rfl ?_⟩
    rw [curr_filter_ne hcurr]
    rfl

theorem unlink_spec (hw : WF k) (hc : Consistent k p) :
    ∃ k', unlink p k = some k' ∧ Unlinked p k k' := by
  by_cases hcurr : k.currProc = some p
  · exact unlink_current hw hcurr
  · have hcons := hc hcurr
    by_cases hsem : (k.pcb p).pSemAdd = null
    · exact unlink_ready hw hcurr hsem fun hm => hcons.2 hm hsem
    · exact unlink_blocked hw hcurr hsem fun hm => hsem (hcons.1 hm)

theorem Unlinked.pcb_eq (hu : Unlinked p k k₁) (q : Pcb) : k₁.pcb q = k.pcb q :=
  congrArg (fun d => PcbData.pcb d q) hu.pcbs

/-- With a parent or without one, `outChild` leaves a store without `p` in any child list. -/
theorem Unlinked.outChild (hw : WF k) (hu : Unlinked p k k₁) :
    ∃ child r, QueueApi.outChild p k₁.store = some ((Lists.setLists k₁.store
        { k₁.lists with child := child }).setPcb p { k₁.pcb p with pParent := none }, r) ∧
      ∀ q, child q = (k.lists.child q).filter fun c => c ∉ ({p} : Finset Pcb) := by
  cases hpar : (k.pcb p).pParent with
  | none =>
      have hpar' : (k₁.store.pcb p).pParent = none := by rw [← hpar, ← hu.pcb_eq]; rfl
      refine ⟨k₁.lists.child, none, ?_, fun q => ?_⟩
      · change Lists.outChild p k₁.store = _
        rw [Lists.outChild, hpar']
        have hself : ({ k₁.pcb p with pParent := none } : PcbFields) = k₁.store.pcb p := by
          rw [← hpar']
          rfl
        exact congrArg some (Prod.ext (Store.setPcb_eq_self _ hself).symm rfl)
      · rw [hu.child, filter_ne_of_not_mem]
        intro hm
        rw [(hw.tree.child_iff q p).mp hm] at hpar
        cases hpar
  | some q =>
      have hpar' : (k₁.store.pcb p).pParent = some q := by rw [← hpar, ← hu.pcb_eq]; rfl
      have hmem : p ∈ k.lists.child q := (hw.tree.child_iff q p).mpr hpar
      have hqf : q ∉ k.lists.free := fun hm => by
        rw [(hw.tree.free q hm).1] at hmem
        cases hmem
      refine ⟨Function.update k₁.lists.child q ((k₁.lists.child q).erase p), some p, ?_,
        fun x => ?_⟩
      · change Lists.outChild p k₁.store = _
        rw [Lists.outChild, hpar']
        refine if_pos ⟨?_, ?_⟩
        · change q ∉ k₁.lists.free
          rwa [hu.free]
        · change p ∈ k₁.lists.child q
          rwa [hu.child]
      · rw [Function.update_apply, hu.child]
        split
        · next hx =>
          rw [hx]
          exact erase_eq_filter_ne (hw.tree.nodup q)
        · next hx =>
          refine (filter_ne_of_not_mem fun hm => hx ?_).symm
          have := (hw.tree.child_iff x p).mp hm
          rw [hpar, Option.some.injEq] at this
          exact this.symm

/-- The end of `terminateProcess` for a process without children. -/
theorem release_spec (hw : WF k) (hu : Unlinked p k k₁) (hf : p ∉ k.lists.free) :
    ∃ k', release p k₁ = some k' ∧ Removed {p} k k' := by
  have hnq : p ∉ k₁.lists.queued := by
    simp only [Lists.queued, List.mem_append, not_or]
    refine ⟨⟨by rwa [hu.free], ?_⟩, ?_⟩
    · rw [hu.ready]
      simp
    · rw [← List.count_eq_zero, hu.blocked, if_pos rfl]
  obtain ⟨child, r, ho, hchild⟩ := hu.outChild hw
  let k₂ : Kernel Lists := { k₁ with
    store := (Lists.setLists k₁.store { k₁.lists with child := child }).setPcb p
      { k₁.pcb p with pParent := none }
    processCount := k₁.processCount - 1 }
  have hfree : QueueApi.freePcb p k₂.store =
      some (Lists.setLists k₂.store { k₂.lists with free := p :: k₂.lists.free }) := if_pos hnq
  refine ⟨k₂.setLists { k₂.lists with free := p :: k₂.lists.free }, ?_, ?_⟩
  · rw [release, ho, Option.bind_some]
    exact congrArg (Option.map _) hfree
  refine ⟨by simpa using hf, ?_, ?_, fun q => ?_, ⟨[p], by simp, by simp, ?_⟩, hu.ready,
    hu.active.congr rfl rfl, hu.waiters, fun q => ?_, hchild⟩
  · have hcard : (({p} : Finset Pcb).filter (SoftKilled k)).card =
        if SoftKilled k p then 1 else 0 := by
      rw [Finset.filter_singleton]
      split <;> rfl
    change { k₁.toKernelData with processCount := k₁.processCount - 1 } = _
    rw [hu.data, hcard, Finset.card_singleton]
    simp
  · exact (congrArg PcbData.nextPid hu.pcbs :)
  · change ((Lists.setLists k₁.store _).setPcb p _).pcb q = _
    rw [Store.setPcb_pcb]
    by_cases hq : q = p
    · subst hq
      simp [hu.pcb_eq]
    · simp only [if_neg hq, Finset.mem_singleton]
      exact hu.pcb_eq q
  · exact congrArg (p :: ·) hu.free
  · change k₁.lists.blocked.count q = _
    rw [hu.blocked]
    simp

end One

section Recursion
variable {k k₁ k₂ k' : Kernel Lists} {p c : Pcb} {cs : List Pcb} {D : Finset Pcb} {n m : ℕ}

/-- `removeChild(p)` has returned `c`. -/
def detached (p c : Pcb) (cs : List Pcb) (k : Kernel Lists) : Kernel Lists :=
  (k.setLists { k.lists with child := Function.update k.lists.child p cs }).setPcb c
    { k.pcb c with pParent := none }

omit [Layout] in
theorem removeChild_spec (hp : p ∉ k.lists.free) (hc : k.lists.child p = c :: cs) :
    QueueApi.removeChild p k.store = some ((detached p c cs k).store, some c) := by
  change Lists.removeChild p k.store = _
  have hp' : p ∉ k.store.lists.free := hp
  have hc' : k.store.lists.child p = c :: cs := hc
  rw [Lists.removeChild, if_pos hp', hc']
  rfl

omit [Layout] in
theorem detached_child (hc : k.lists.child p = c :: cs) (q : Pcb) :
    (detached p c cs k).lists.child q ⊆ k.lists.child q := by
  intro x hx
  change x ∈ Function.update k.lists.child p cs q at hx
  rw [Function.update_apply] at hx
  split at hx
  · next hq =>
    rw [hq, hc]
    exact List.mem_cons_of_mem _ hx
  · exact hx

omit [Layout] in
theorem wf_detached (hw : WF k) (hc : k.lists.child p = c :: cs) : WF (detached p c cs k) := by
  have hcp : (k.pcb c).pParent = some p := (hw.tree.child_iff p c).mp (by simp [hc])
  have hpcb : ∀ q, (detached p c cs k).pcb q =
      if q = c then { k.pcb c with pParent := none } else k.pcb q := fun q =>
    Kernel.setPcb_pcb _ c q _
  refine ⟨hw.places, hw.active.congr rfl rfl, fun a q hq => ?_, ?_, ?_, ?_, ?_⟩
  · rw [hpcb]
    split
    · next hqc =>
      subst hqc
      exact hw.semAdd a q hq
    · exact hw.semAdd a q hq
  · intro q
    change (Function.update k.lists.child p cs q).Nodup
    rw [Function.update_apply]
    split
    · have := hw.tree.nodup p
      rw [hc] at this
      exact (List.nodup_cons.mp this).2
    · exact hw.tree.nodup q
  · intro q x
    change x ∈ Function.update k.lists.child p cs q ↔ ((detached p c cs k).pcb x).pParent = some q
    have hnd := hw.tree.nodup p
    rw [hc, List.nodup_cons] at hnd
    rw [hpcb, Function.update_apply]
    by_cases hxc : x = c
    · subst hxc
      rw [if_pos rfl]
      by_cases hq : q = p
      · simp [hq, hnd.1]
      · rw [if_neg hq, hw.tree.child_iff, hcp]
        simpa using Ne.symm hq
    · rw [if_neg hxc, ← hw.tree.child_iff]
      by_cases hq : q = p
      · rw [if_pos hq, hq, hc, List.mem_cons, or_iff_right hxc]
      · rw [if_neg hq]
  · intro q hq
    have ht := hw.tree.free q hq
    have hqp : q ≠ p := fun he => by
      rw [he, hc] at ht
      cases ht.1
    refine ⟨(Function.update_of_ne hqp _ _).trans ht.1, ?_⟩
    rw [hpcb]
    split
    · rfl
    · exact ht.2
  · obtain ⟨depth, hd⟩ := hw.tree.acyclic
    exact ⟨depth, fun q x hx => hd q x (detached_child hc q hx)⟩

/-- A removal after `removeChild` is a removal from the state before it. -/
theorem Removed.of_detached (h : Removed D (detached p c cs k) k')
    (hc : k.lists.child p = c :: cs) (hcD : c ∈ D) : Removed D k k' := by
  have hpcb : ∀ q, (detached p c cs k).pcb q =
      if q = c then { k.pcb c with pParent := none } else k.pcb q := fun q =>
    Kernel.setPcb_pcb _ c q _
  have hsoft : ∀ q, SoftKilled (detached p c cs k) q ↔ SoftKilled k q := by
    intro q
    rw [SoftKilled, SoftKilled, hpcb]
    by_cases hq : q = c
    · subst hq
      rw [if_pos rfl]
      rfl
    · rw [if_neg hq]
      rfl
  refine ⟨h.live, ?_, h.nextPid, fun q => ?_, h.free, h.ready, h.active, h.waiters, h.blocked,
    fun q => ?_⟩
  · rw [h.data, Finset.filter_congr fun q _ => hsoft q]
    rfl
  · rw [h.pcb]
    by_cases hq : q ∈ D
    · rw [if_pos hq, if_pos hq, hpcb]
      split
      · next hqc => rw [hqc]
      · rfl
    · have hqc : q ≠ c := fun he => hq (he ▸ hcD)
      rw [if_neg hq, if_neg hq, hpcb, if_neg hqc]
  · rw [h.child]
    change (Function.update k.lists.child p cs q).filter _ = _
    rw [Function.update_apply]
    split
    · next hq => rw [hq, hc, List.filter_cons_of_neg (by simpa using hcD)]
    · rfl

open Classical in
/-- The subtree of `p`, with `p`. -/
noncomputable def subtree (v : Lists) (p : Pcb) : Finset Pcb :=
  Finset.univ.filter (Descendant v p)

omit [Layout] in
theorem mem_subtree {v : Lists} {q : Pcb} : q ∈ subtree v p ↔ Descendant v p q := by
  simp [subtree]

omit [Layout] in
theorem subtree_card_mono {v v' : Lists} (hc : ∀ a, v'.child a ⊆ v.child a) :
    (subtree v' p).card ≤ (subtree v p).card :=
  Finset.card_le_card fun _ hq => mem_subtree.mpr ((mem_subtree.mp hq).mono hc)

omit [Layout] in
/-- A child heads a smaller subtree. -/
theorem subtree_card_lt {v : Lists} {parent : Pcb → Option Pcb} (ht : Tree v parent)
    (hc : c ∈ v.child p) : (subtree v c).card < (subtree v p).card := by
  refine Finset.card_lt_card ((Finset.ssubset_iff_of_subset fun q hq => ?_).mpr ?_)
  · exact mem_subtree.mpr ((Relation.ReflTransGen.single hc).trans (mem_subtree.mp hq))
  · exact ⟨p, mem_subtree.mpr .refl, fun hm => ht.not_descendant hc (mem_subtree.mp hm)⟩

/-- The processes of `D`, which is the subtree of `p`, have been terminated. -/
structure Killed (p : Pcb) (D : Finset Pcb) (k k' : Kernel Lists) : Prop extends
    Removed D k k' where
  root : p ∈ D
  below : ∀ q ∈ D, Descendant k.lists p q
  closed : ∀ q ∈ D, ∀ c ∈ k.lists.child q, c ∈ D

theorem Killed.mem_iff (h : Killed p D k k') {q : Pcb} : q ∈ D ↔ Descendant k.lists p q := by
  refine ⟨h.below q, fun hq => ?_⟩
  induction hq with
  | refl => exact h.root
  | tail _ hc ih => exact h.closed _ ih _ hc

theorem Killed.wf' (h : Killed p D k k') (hw : WF k) : WF k' := h.wf hw h.closed

/-- What the loop over the children of `p` has removed. -/
structure KilledChildren (p : Pcb) (D : Finset Pcb) (k k' : Kernel Lists) : Prop extends
    Removed D k k' where
  children : ∀ c ∈ k.lists.child p, c ∈ D
  below : ∀ q ∈ D, ∃ c ∈ k.lists.child p, Descendant k.lists c q
  closed : ∀ q ∈ D, ∀ c ∈ k.lists.child q, c ∈ D

omit [Layout] in
theorem child_not_free {v : Lists} {parent : Pcb → Option Pcb} (ht : Tree v parent)
    (hc : c ∈ v.child p) : c ∉ v.free := by
  intro hf
  have hpar := (ht.child_iff p c).mp hc
  rw [(ht.free c hf).2] at hpar
  cases hpar

/-- What is consistent stays consistent for those that a removal spares. -/
theorem Removed.consistent (h : Removed D k k') {q : Pcb} (hq : q ∉ D)
    (hc : Consistent k q) : Consistent k' q := by
  intro hcurr
  have hc' := hc fun he => hcurr (h.curr_eq_some.mpr ⟨he, hq⟩)
  rw [h.pcb, if_neg hq, h.ready, h.mem_blocked]
  exact ⟨fun hm => hc'.1 (List.mem_of_mem_filter hm), fun hm => hc'.2 hm.2⟩

omit [Layout] in
/-- `removeChild` does not touch what the guess of `unlink` depends on. -/
theorem Consistent.detached {q : Pcb} (h : Consistent k q) : Consistent (detached p c cs k) q := by
  intro hcurr
  have hq := h hcurr
  have hpcb : (Nucleus.detached p c cs k).pcb q =
      if q = c then { k.pcb c with pParent := none } else k.pcb q := Kernel.setPcb_pcb _ c q _
  rw [hpcb]
  split
  · next hqc =>
    subst hqc
    exact hq
  · exact hq

/-- The subtree of the first child has been terminated after `removeChild`. -/
theorem Killed.of_detached (h : Killed c D (detached p c cs k) k') (hw : WF k)
    (hc : k.lists.child p = c :: cs) : Killed c D k k' := by
  have hcm : c ∈ k.lists.child p := by simp [hc]
  have hbelow : ∀ q ∈ D, Descendant k.lists c q := fun q hq =>
    (h.below q hq).mono (detached_child hc)
  refine ⟨h.toRemoved.of_detached hc h.root, h.root, hbelow, fun q hq x hx => h.closed q hq x ?_⟩
  have hqp : q ≠ p := by
    rintro rfl
    exact hw.tree.not_descendant hcm (hbelow q hq)
  change x ∈ Function.update k.lists.child p cs q
  rwa [Function.update_of_ne hqp]

theorem Removed.child_subset (h : Removed D k k') (q : Pcb) :
    k'.lists.child q ⊆ k.lists.child q := by
  rw [h.child]
  exact fun x hx => List.mem_of_mem_filter hx

/-- Nobody who is gone is below a child that is left. -/
theorem Removed.not_below (h : Removed D k k') (hw : WF k') {x q : Pcb}
    (hx : x ∈ k'.lists.child p) (hq : Descendant k'.lists x q) : q ∉ D := by
  intro hmem
  have hfree : q ∈ k'.lists.free := h.mem_free.mpr (.inl hmem)
  cases hq.cases_tail with
  | inl he => exact child_not_free hw.tree hx (he ▸ hfree)
  | inr hy =>
      obtain ⟨y, -, hy⟩ := hy
      exact child_not_free hw.tree hy hfree

/-- The first child has been terminated, then the others. -/
theorem Killed.cons {D' : Finset Pcb} (h : Killed c D k k₂) (hc : c ∈ k.lists.child p)
    (hall : KilledChildren p D' k₂ k') : KilledChildren p (D ∪ D') k k' := by
  have hleft : ∀ {q x}, x ∈ k.lists.child q → x ∉ D → x ∈ k₂.lists.child q := by
    intro q x hx hxD
    rw [h.child, List.mem_filter]
    exact ⟨hx, by simpa using hxD⟩
  refine ⟨h.toRemoved.trans hall.toRemoved, fun x hx => ?_, fun q hq => ?_, fun q hq x hx => ?_⟩
  · rw [Finset.mem_union]
    by_cases hxD : x ∈ D
    · exact .inl hxD
    · exact .inr (hall.children x (hleft hx hxD))
  · rcases Finset.mem_union.mp hq with hq | hq
    · exact ⟨c, hc, h.below q hq⟩
    · obtain ⟨x, hx, hxq⟩ := hall.below q hq
      exact ⟨x, h.child_subset p hx, hxq.mono h.child_subset⟩
  · rw [Finset.mem_union] at hq ⊢
    rcases hq with hq | hq
    · exact .inl (h.closed q hq x hx)
    · by_cases hxD : x ∈ D
      · exact .inl hxD
      · exact .inr (hall.closed q hq x (hleft hx hxD))

theorem killChildren_spec
    (ih : ∀ {k c}, WF k → c ∉ k.lists.free → (∀ q, Descendant k.lists c q → Consistent k q) →
      (subtree k.lists c).card ≤ n →
      ∃ k' D, terminateProcess n c k = some k' ∧ Killed c D k k')
    (hw : WF k) (hp : p ∉ k.lists.free) (hm : (k.lists.child p).length < m)
    (hcons : ∀ c ∈ k.lists.child p, ∀ q, Descendant k.lists c q → Consistent k q)
    (hfuel : ∀ c ∈ k.lists.child p, (subtree k.lists c).card ≤ n) :
    ∃ k' D, killChildren (terminateProcess n) m p k = some k' ∧ KilledChildren p D k k' := by
  induction m generalizing k with
  | zero => omega
  | succ m ihm =>
      have hempty : QueueApi.emptyChild p k.store = some (k.lists.child p).isEmpty := if_pos hp
      cases hc : k.lists.child p with
      | nil =>
          refine ⟨k, ∅, ?_, .refl hw, by simp [hc], by simp, by simp⟩
          rw [killChildren, hempty, hc]
          rfl
      | cons c cs =>
          have hcm : c ∈ k.lists.child p := by simp [hc]
          have hsub := detached_child hc
          -- the first child dies with its subtree
          obtain ⟨k₂, D, hrun, hkill⟩ := ih (c := c) (wf_detached hw hc)
            (fun hf => child_not_free hw.tree hcm hf)
            (fun q hq => (hcons c hcm q (hq.mono hsub)).detached)
            ((subtree_card_mono hsub).trans (hfuel c hcm))
          have hfirst := hkill.of_detached hw hc
          have hw₂ := hfirst.wf' hw
          have hpf : p ∉ k₂.lists.free := fun hm => (hfirst.mem_free.mp hm).elim
            (fun hD => hw.tree.not_descendant hcm (hfirst.below p hD)) hp
          have hlen : (k₂.lists.child p).length < m := by
            have hle := List.length_filter_le (fun x => decide (x ∉ D)) cs
            rw [hfirst.child, hc, List.filter_cons_of_neg (by simpa using hkill.root)]
            rw [hc, List.length_cons] at hm
            omega
          -- the others die in the state without it
          obtain ⟨k', D', hrun', hall⟩ := ihm hw₂ hpf hlen
            (fun x hx q hq => hfirst.consistent (hfirst.not_below hw₂ hx hq)
              (hcons x (hfirst.child_subset p hx) q (hq.mono hfirst.child_subset)))
            (fun x hx => (subtree_card_mono hfirst.child_subset).trans
              (hfuel x (hfirst.child_subset p hx)))
          refine ⟨k', D ∪ D', ?_, hfirst.cons hcm hall⟩
          rw [killChildren, hempty, hc, Option.bind_some, List.isEmpty_cons,
            if_neg Bool.false_ne_true, removeChild_spec hp hc, Option.bind_some]
          change (terminateProcess n c (detached p c cs k)).bind _ = _
          rw [hrun]
          exact hrun'

omit [Layout] in
theorem child_length {v : Lists} {parent : Pcb → Option Pcb} (ht : Tree v parent) :
    (v.child p).length < treeBudget := by
  have hl := (ht.nodup p).length_le_card
  rw [Fintype.card_fin] at hl
  exact Nat.lt_succ_of_le hl

/-- `terminateProcess` removes exactly the subtree of `p`. -/
theorem terminateProcess_spec (hw : WF k) (hp : p ∉ k.lists.free)
    (hcons : ∀ q, Descendant k.lists p q → Consistent k q)
    (hfuel : (subtree k.lists p).card ≤ n) :
    ∃ k' D, terminateProcess n p k = some k' ∧ Killed p D k k' := by
  induction n generalizing k p with
  | zero =>
      have hpos : 0 < (subtree k.lists p).card :=
        Finset.card_pos.mpr ⟨p, mem_subtree.mpr .refl⟩
      omega
  | succ n ih =>
      obtain ⟨k₁, D, hrun, hall⟩ := killChildren_spec (n := n) (m := treeBudget)
        (fun hw hc => ih hw hc) hw hp (child_length hw.tree)
        (fun c hc q hq => hcons q ((Relation.ReflTransGen.single hc).trans hq))
        (fun c hc => Nat.le_of_lt_succ ((subtree_card_lt hw.tree hc).trans_le hfuel))
      have hw₁ := hall.wf hw hall.closed
      have hpD : p ∉ D := fun hm => by
        obtain ⟨c, hc, hcp⟩ := hall.below p hm
        exact hw.tree.not_descendant hc hcp
      have hpf : p ∉ k₁.lists.free := fun hm => (hall.mem_free.mp hm).elim hpD hp
      obtain ⟨k₂, hunlink, hu⟩ := unlink_spec hw₁ (hall.consistent hpD (hcons p .refl))
      obtain ⟨k', hrelease, hone⟩ := release_spec hw₁ hu hpf
      refine ⟨k', D ∪ {p}, ?_, hall.toRemoved.trans hone, by simp, ?_, ?_⟩
      · rw [terminateProcess, hrun, Option.bind_some, hunlink, Option.bind_some, hrelease]
      · intro q hq
        rw [Finset.mem_union, Finset.mem_singleton] at hq
        rcases hq with hq | rfl
        · obtain ⟨c, hc, hcq⟩ := hall.below q hq
          exact (Relation.ReflTransGen.single hc).trans hcq
        · exact .refl
      · intro q hq c hc
        rw [Finset.mem_union, Finset.mem_singleton] at hq ⊢
        rcases hq with hq | rfl
        · exact .inl (hall.closed q hq c hc)
        · exact .inl (hall.children c hc)

theorem terminateProcess_killed (hw : WF k) (hp : p ∉ k.lists.free)
    (hcons : ∀ q, Descendant k.lists p q → Consistent k q) :
    ∃ k' D, terminateProcess treeBudget p k = some k' ∧ Killed p D k k' := by
  refine terminateProcess_spec hw hp hcons ?_
  have hle := Finset.card_le_univ (subtree k.lists p)
  rw [Fintype.card_fin] at hle
  exact hle.trans (Nat.le_succ _)

end Recursion

end Nucleus
end PandOSsh
