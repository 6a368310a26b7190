import PandOSsh.Nucleus.Kill

/-!
# Lookup by PID

`findPcbByPid` walks down from the current process, then down from each ready
process, and last looks at the waiters without walking down. It misses nobody
when every live process is itself in one of these places, wherever its parent
is; it returns no freed PCB because the forest holds none.
-/

namespace PandOSsh.Nucleus
variable {k : Kernel Lists} {v : Lists} {parent : Pcb → Option Pcb} {p q : Pcb} {pid : Word}

theorem descendant_not_free (ht : Tree v parent) (hp : p ∉ v.free) (h : Descendant v p q) :
    q ∉ v.free := by
  cases h.cases_tail with
  | inl he => exact he ▸ hp
  | inr hx =>
      obtain ⟨x, -, hx⟩ := hx
      exact child_not_free ht hx

/-- What a search has returned: something with `P`, or nothing because of `N`. -/
def Found (P : Pcb → Prop) (N : Prop) : Option Pcb → Prop
  | some q => P q
  | none => N

theorem Found.imp {P P' : Pcb → Prop} {N N' : Prop} {r : Option Pcb} (h : Found P N r)
    (hp : ∀ q, P q → P' q) (hn : N → N') : Found P' N' r := by
  cases r with
  | none => exact hn h
  | some q => exact hp q h

theorem findSome_spec {P : Pcb → Prop} {N : Pcb → Prop} {f : Pcb → Option (Option Pcb)}
    {cs : List Pcb} (h : ∀ c ∈ cs, ∃ r, f c = some r ∧ Found P (N c) r) :
    ∃ r, cs.findSomeM? f = some r ∧ Found P (∀ c ∈ cs, N c) r := by
  induction cs with
  | nil => exact ⟨none, rfl, by simp [Found]⟩
  | cons c cs ih =>
      obtain ⟨r, hr, hp⟩ := h c (by simp)
      rw [List.findSomeM?_cons, hr]
      cases r with
      | some q => exact ⟨some q, rfl, hp⟩
      | none =>
          obtain ⟨r', hr', hp'⟩ := ih fun x hx => h x (List.mem_cons_of_mem _ hx)
          exact ⟨r', hr', hp'.imp (fun _ hq => hq) fun hn => List.forall_mem_cons.mpr ⟨hp, hn⟩⟩

/-- The search of a subtree ends with a process of that subtree that has the
PID, or the subtree has none. -/
theorem searchInTree_spec (ht : Tree k.lists parent) {n : ℕ} (hp : p ∉ k.lists.free)
    (hn : (subtree k.lists p).card ≤ n) :
    ∃ r, searchInTree pid n p k.store = some r ∧
      Found (fun q => Descendant k.lists p q ∧ (k.pcb q).pPid = pid)
        (∀ q, Descendant k.lists p q → (k.pcb q).pPid ≠ pid) r := by
  induction n generalizing p with
  | zero =>
      have hpos : 0 < (subtree k.lists p).card :=
        Finset.card_pos.mpr ⟨p, mem_subtree.mpr .refl⟩
      omega
  | succ n ih =>
      unfold searchInTree
      by_cases hpid : (k.store.pcb p).pPid = pid
      · rw [if_pos hpid]
        exact ⟨some p, rfl, .refl, hpid⟩
      · have hcs : QueueApi.children p k.store = some (k.lists.child p) := if_pos hp
        rw [if_neg hpid, hcs, Option.bind_some]
        have hbelow : ∀ c ∈ k.lists.child p, ∃ r, searchInTree pid n c k.store = some r ∧
            Found (fun q => Descendant k.lists p q ∧ (k.pcb q).pPid = pid)
              (∀ q, Descendant k.lists c q → (k.pcb q).pPid ≠ pid) r := by
          intro c hc
          obtain ⟨r, hr, hf⟩ := ih (child_not_free ht hc)
            (Nat.le_of_lt_succ ((subtree_card_lt ht hc).trans_le hn))
          exact ⟨r, hr, hf.imp (fun q hq => ⟨(Relation.ReflTransGen.single hc).trans hq.1, hq.2⟩)
            fun h => h⟩
        obtain ⟨r, hr, hf⟩ := findSome_spec hbelow
        refine ⟨r, hr, hf.imp (fun q hq => hq) fun h q hq => ?_⟩
        -- a descendant is the root or is below one of its children
        cases hq.cases_head with
        | inl he => exact he ▸ hpid
        | inr hc =>
            obtain ⟨c, hc, hcq⟩ := hc
            exact h c hc q hcq

/-- `p` is on the CPU, in the ready queue or in a semaphore queue. -/
def Held (k : Kernel Lists) (p : Pcb) : Prop :=
  k.currProc = some p ∨ p ∈ k.lists.ready ∨ p ∈ k.lists.blocked

theorem WF.held_not_free (hw : WF k) (h : Held k p) : p ∉ k.lists.free := by
  rcases h with hc | hr | hb
  · exact hw.not_free hc
  · intro hf
    have hp := hw.places p
    have hpos := List.count_pos_iff.mpr hf
    have hpos' := List.count_pos_iff.mpr hr
    rw [Kernel.places] at hp
    omega
  · exact hw.not_free_of_blocked hb

/-- The lookup by PID ends with a live process that has the PID, or no process
that is held somewhere has it. -/
theorem findPcbByPid_spec (ht : Tree k.lists parent) (hh : ∀ p, Held k p → p ∉ k.lists.free)
    (pid : Word) : ∃ r, findPcbByPid pid k = some r ∧
      Found (fun q => q ∉ k.lists.free ∧ (k.pcb q).pPid = pid)
        (∀ q, Held k q → (k.pcb q).pPid ≠ pid) r := by
  have hsearch : ∀ l : List Pcb, (∀ p ∈ l, p ∉ k.lists.free) →
      ∃ r, (l.findSomeM? fun p => searchInTree pid treeBudget p k.store) = some r ∧
        Found (fun q => q ∉ k.lists.free ∧ (k.pcb q).pPid = pid)
          (∀ p ∈ l, (k.pcb p).pPid ≠ pid) r := by
    intro l hl
    apply findSome_spec
    intro p hp
    have hle := Finset.card_le_univ (subtree k.lists p)
    rw [Fintype.card_fin] at hle
    obtain ⟨r, hr, hf⟩ := searchInTree_spec ht (hl p hp) (hle.trans (Nat.le_succ _))
    exact ⟨r, hr, hf.imp (fun q hq => ⟨descendant_not_free ht (hl p hp) hq.1, hq.2⟩)
      fun h => h p .refl⟩
  obtain ⟨r₁, hr₁, hf₁⟩ := hsearch k.currProc.toList fun p hp =>
    hh p (.inl (Option.mem_toList.mp hp))
  unfold findPcbByPid
  rw [hr₁, Option.bind_some]
  cases r₁ with
  | some q => exact ⟨some q, rfl, hf₁⟩
  | none =>
      obtain ⟨r₂, hr₂, hf₂⟩ := hsearch k.lists.ready fun p hp => hh p (.inr (.inl hp))
      have hready : QueueApi.ready k.store = some k.lists.ready := rfl
      rw [hready, Option.bind_some, hr₂]
      cases r₂ with
      | some q => exact ⟨some q, rfl, hf₂⟩
      | none =>
          have hb : searchBlockedByPid pid k.store =
              some (k.lists.blocked.find? fun p => (k.pcb p).pPid = pid) := rfl
          refine ⟨_, hb, ?_⟩
          cases hf : k.lists.blocked.find? fun p => (k.pcb p).pPid = pid with
          | some q =>
              have hq : (k.pcb q).pPid = pid := by simpa using List.find?_some hf
              exact ⟨hh q (.inr (.inr (List.mem_of_find?_eq_some hf))), hq⟩
          | none =>
              intro q hq
              rcases hq with hc | hr | hb
              · exact hf₁ q (by simp [hc])
              · exact hf₂ q hr
              · simpa using List.find?_eq_none.mp hf q hb

/-- The result of a lookup is a live process. -/
theorem WF.findPcbByPid_live (hw : WF k) (pid : Word) : ∃ r, findPcbByPid pid k = some r ∧
    ∀ q, r = some q → q ∉ k.lists.free := by
  obtain ⟨r, hr, hf⟩ := findPcbByPid_spec hw.tree (fun _ => hw.held_not_free) pid
  refine ⟨r, hr, ?_⟩
  rintro q rfl
  exact hf.1

end PandOSsh.Nucleus
