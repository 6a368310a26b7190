import PandOSsh.Library.Runs
import PandOSsh.Phase1.Refine

/-!
# Process queues are stable priority queues

Any sequence of operations of `pcb.c` on one queue, on the pointers, beside the
same operations on a list of PCBs with their priorities. The list is all that a
walk in either direction finds.
-/

namespace PandOSsh
open Library ListX

/-- A PCB in a queue, with its `p_prio`. -/
abbrev Queued := Pcb × ℤ

/-- The place of a new PCB: after those of at least its priority, before the others. -/
def insertQueued (x : Queued) (l : List Queued) : List Queued :=
  l.filter (fun y => x.2 ≤ y.2) ++ x :: l.filter fun y => y.2 < x.2

inductive ProcQOp where
  /-- `p->p_prio = prio`, then `insertProcQ`. -/
  | insertProcQ (p : Pcb) (prio : ℤ)
  | removeProcQ
  | headProcQ
  | outProcQ (p : Pcb)

namespace ProcQOp

/-- The function of `pcb.c`, and the PCB that it returns. -/
def run (head : Link) (op : ProcQOp) (s : Store Pointers) : Option (Store Pointers × Option Pcb) :=
  match op with
  | insertProcQ p prio =>
      (Pointer.insertProcQ head p (s.setPcb p { s.pcb p with pPrio := prio })).map (·, none)
  | removeProcQ => Pointer.removeProcQ head s
  | headProcQ => (Pointer.headProcQ head s).map (s, ·)
  | outProcQ p => Pointer.outProcQ head p s

/-- The operation on the list. -/
def apply (op : ProcQOp) (l : List Queued) : List Queued × Option Pcb :=
  match op with
  | insertProcQ p prio => (insertQueued (p, prio) l, none)
  | removeProcQ => (l.tail, l.head?.map Prod.fst)
  | headProcQ => (l, l.head?.map Prod.fst)
  | outProcQ p => (l.filter fun y => y.1 ≠ p, if p ∈ l.map Prod.fst then some p else none)

/-- Only a PCB on no queue is inserted. -/
def Allowed (op : ProcQOp) (l : List Queued) : Prop :=
  match op with
  | insertProcQ p _ => p ∉ l.map Prod.fst
  | _ => True

instance (op : ProcQOp) (l : List Queued) : Decidable (op.Allowed l) :=
  match op with
  | insertProcQ _ _ => inferInstanceAs (Decidable (_ ∉ _))
  | removeProcQ | headProcQ | outProcQ _ => inferInstanceAs (Decidable True)

/-- The operation takes the PCB it returns off the queue. -/
def Removes : ProcQOp → Prop
  | removeProcQ | outProcQ _ => True
  | _ => False

end ProcQOp

/-- The runs of one queue after `mkEmptyProcQ`, whatever the memory held before, beside
the same operations on a list. -/
def procQRuns (head : Link) : System (Store Pointers × List Queued) ProcQOp where
  init x := (∃ s₀, x.1 = Pointer.mkEmptyProcQ head s₀) ∧ x.2 = []
  step x op x' := op.Allowed x.2 ∧ (∃ r, op.run head x.1 = some (x'.1, r)) ∧
    x'.2 = (op.apply x.2).1

/-- The queue on the pointers is the list. -/
structure IsProcQ (head : Link) (s : Store Pointers) (l : List Queued) : Prop where
  next : s.lists.links.collect head Link.loopBudget (s.lists.links.next head) =
    some (l.map fun x => .pList x.1)
  prev : s.lists.links.flip.collect head Link.loopBudget (s.lists.links.prev head) =
    some (l.map fun x => Link.pList x.1).reverse
  prio : ∀ x ∈ l, (s.pcb x.1).pPrio = x.2
  result : ∀ op : ProcQOp, op.Allowed l → ∃ s', op.run head s = some (s', (op.apply l).2)
  unlinked : ∀ (op : ProcQOp) s' p, op.Removes → op.run head s = some (s', some p) →
    s'.lists.links.next (.pList p) = .pList p ∧ s'.lists.links.prev (.pList p) = .pList p
  absent : ∀ p, p ∉ l.map Prod.fst → Pointer.outProcQ head p s = some (s, none)

/-- The pointers form a ring through the members of the list, which is sorted. -/
structure HoldsProcQ (head : Link) (s : Store Pointers) (l : List Queued) : Prop where
  ring : s.lists.links.Ring head (l.map fun x => .pList x.1)
  prio : ∀ x ∈ l, (s.pcb x.1).pPrio = x.2
  sorted : l.Pairwise fun x y => y.2 ≤ x.2

namespace HoldsProcQ
variable {head : Link} {s s' : Store Pointers} {l l₁ l₂ : List Queued} {x : Queued} {p : Pcb}

theorem nodup (h : HoldsProcQ head s l) : (l.map Prod.fst).Nodup := by
  have hn := (List.nodup_cons.mp h.ring.nodup).2
  have hmap : (l.map fun x => Link.pList x.1) = (l.map Prod.fst).map Link.pList := by
    rw [List.map_map]
    rfl
  rw [hmap] at hn
  exact hn.of_map _

theorem length_lt (h : HoldsProcQ head s l) : l.length < Link.loopBudget := by
  have hl := h.nodup.length_le_card
  rw [Fintype.card_fin, List.length_map] at hl
  have hm : maxProc < Link.loopBudget := by decide
  omega

theorem mkEmptyProcQ (s₀ : Store Pointers) : HoldsProcQ head (Pointer.mkEmptyProcQ head s₀) [] := by
  constructor
  · constructor
    · simp [Links.Adj, Pointer.mkEmptyProcQ, Pointer.setLinks, next_initListHead, prev_initListHead]
    · simp
  · intro x hx
    exact absurd hx List.not_mem_nil
  · exact List.Pairwise.nil

/-- In a sorted list the smaller priorities are at the end. -/
theorem filter_split (hs : l.Pairwise fun x y => y.2 ≤ x.2) (v : ℤ) :
    l.filter (fun y => v ≤ y.2) = l.takeWhile (fun y => v ≤ y.2) ∧
      l.filter (fun y => y.2 < v) = l.dropWhile fun y => v ≤ y.2 := by
  induction l with
  | nil => exact ⟨rfl, rfl⟩
  | cons y l ih =>
      obtain ⟨hy, hl⟩ := List.pairwise_cons.mp hs
      obtain ⟨h1, h2⟩ := ih hl
      by_cases hv : v ≤ y.2
      · have hlt : ¬ y.2 < v := not_lt.mpr hv
        simp [hv, hlt, h1, h2]
      · have hlt : y.2 < v := not_le.mp hv
        have hall : ∀ z ∈ l, z.2 < v := fun z hz => lt_of_le_of_lt (hy z hz) hlt
        simp only [List.filter_cons, hv, hlt, decide_false, decide_true, Bool.false_eq_true,
          if_false, if_true, List.takeWhile_cons, List.dropWhile_cons]
        constructor
        · rw [List.filter_eq_nil_iff]
          intro z hz
          simpa using hall z hz
        · rw [List.filter_eq_self.mpr]
          intro z hz
          simpa using hall z hz

theorem mem_insertQueued {y : Queued} : y ∈ insertQueued x l ↔ y = x ∨ y ∈ l := by
  simp only [insertQueued, List.mem_append, List.mem_cons, List.mem_filter, decide_eq_true_eq]
  by_cases hv : x.2 ≤ y.2
  · have hlt : ¬ y.2 < x.2 := not_lt.mpr hv
    simp [hv, hlt, or_comm]
  · have hlt : y.2 < x.2 := not_le.mp hv
    simp [hv, hlt]

theorem sorted_insertQueued (hs : l.Pairwise fun x y => y.2 ≤ x.2) :
    (insertQueued x l).Pairwise fun x y => y.2 ≤ x.2 := by
  have hlow : ∀ z ∈ l.filter (fun y => y.2 < x.2), z.2 < x.2 := fun z hz => by
    simpa using (List.mem_filter.mp hz).2
  have hhigh : ∀ z ∈ l.filter (fun y => x.2 ≤ y.2), x.2 ≤ z.2 := fun z hz => by
    simpa using (List.mem_filter.mp hz).2
  rw [insertQueued, List.pairwise_append]
  refine ⟨hs.filter _, List.pairwise_cons.mpr ⟨fun z hz => (hlow z hz).le, hs.filter _⟩, ?_⟩
  intro y hy z hz
  rcases List.mem_cons.mp hz with rfl | hz
  · exact hhigh y hy
  · exact (hlow z hz).le.trans (hhigh y hy)

/-- The scan of `insertProcQ` stops in front of the smaller priorities. -/
theorem insertProcQ (h : HoldsProcQ head s l) (hh : ∀ q, head ≠ .pList q) {v : ℤ}
    (hp : p ∉ l.map Prod.fst) :
    ∃ s', Pointer.insertProcQ head p (s.setPcb p { s.pcb p with pPrio := v }) = some s' ∧
      HoldsProcQ head s' (insertQueued (p, v) l) := by
  have hne : ∀ x ∈ l, x.1 ≠ p := fun x hx he => hp (he ▸ List.mem_map_of_mem hx)
  obtain ⟨h1, h2⟩ := filter_split h.sorted v
  let s₁ := s.setPcb p { s.pcb p with pPrio := v }
  let l₁ := l.takeWhile fun y => v ≤ y.2
  let l₂ := l.dropWhile fun y => v ≤ y.2
  have hself : (s₁.pcb p).pPrio = v := by simp [s₁]
  have hother : ∀ x ∈ l, (s₁.pcb x.1).pPrio = x.2 := by
    intro x hx
    simp only [s₁, Store.setPcb_pcb, if_neg (hne x hx)]
    exact h.prio x hx
  have hsplit : l = l₁ ++ l₂ := List.takeWhile_append_dropWhile.symm
  have hins : insertQueued (p, v) l = l₁ ++ (p, v) :: l₂ := by
    rw [insertQueued, h1, h2]
  let stop (c : Link) : Option Bool :=
    c.ofPList.map fun c => decide ((s₁.pcb c).pPrio < (s₁.pcb p).pPrio)
  have hstop : ∀ x ∈ l, stop (.pList x.1) = some (decide (x.2 < v)) := by
    intro x hx
    simp only [stop, Link.ofPList, Option.map_some, hself, hother x hx]
  have hcurr := h.ring.seek_eq (n := Link.loopBudget) hstop h.length_lt
  have hfind : l.find? (fun x => decide (x.2 < v)) = l₂.head? := by
    rw [Lists.find?_eq_head?_dropWhile]
    simp only [l₂, ← decide_not, not_lt]
  have hhead : (l₂.head?.map fun x => Link.pList x.1).getD head =
      (l₂.map fun x => Link.pList x.1).headD head := by
    cases l₂ <;> rfl
  rw [hfind, hhead] at hcurr
  have hring := h.ring
  rw [hsplit, List.map_append] at hring
  have hadj := hring.adj
  have hfresh : Link.pList p ∉ head :: (l₁.map (fun x => Link.pList x.1) ++
      l₂.map fun x => Link.pList x.1) := by
    rw [← List.map_append, ← hsplit, List.mem_cons, not_or]
    refine ⟨(hh p).symm, fun hm => ?_⟩
    obtain ⟨x, hx, he⟩ := List.mem_map.mp hm
    exact hne x hx (by simpa using he)
  have hnew := hring.insert hfresh (fun x => next_listAddBetween s.lists.links x _ _ _)
    fun x => prev_listAddBetween s.lists.links x _ _ _
  have hrun : Pointer.insertProcQ head p s₁ = some (Pointer.setLinks s₁ (listAdd (.pList p)
      (s.lists.links.prev ((l₂.map fun x => Link.pList x.1).headD head)) s.lists.links)) := by
    exact congrArg (Option.map fun curr => Pointer.setLinks s₁ (listAdd (.pList p)
      (s.lists.links.prev curr) s.lists.links)) hcurr
  refine ⟨_, hrun, ⟨?_, ?_, sorted_insertQueued h.sorted⟩⟩
  · rw [hins]
    simp only [Pointer.setLinks, hadj.2, listAdd, hadj.1, List.map_append, List.map_cons]
    exact hnew
  · intro x hx
    rcases mem_insertQueued.mp hx with rfl | hx
    · exact hself
    · exact hother x hx

/-- Deleting a member of the queue. -/
theorem listDel (h : HoldsProcQ head s (l₁ ++ x :: l₂)) :
    HoldsProcQ head (Pointer.setLinks s (ListX.listDel (.pList x.1) s.lists.links)) (l₁ ++ l₂) := by
  have hsub : (l₁ ++ l₂).Sublist (l₁ ++ x :: l₂) :=
    (List.sublist_cons_self x l₂).append_left l₁
  constructor
  · have hring := h.ring
    rw [List.map_append, List.map_cons] at hring
    rw [List.map_append]
    exact ring_listDel hring
  · intro y hy
    exact h.prio y (hsub.subset hy)
  · exact h.sorted.sublist hsub

theorem unlinked_listDel (a : Link) (s : Store Pointers) :
    (Pointer.setLinks s (ListX.listDel a s.lists.links)).lists.links.next a = a ∧
      (Pointer.setLinks s (ListX.listDel a s.lists.links)).lists.links.prev a = a := by
  constructor
  · exact (next_listDel s.lists.links a a).trans (if_pos rfl)
  · exact (prev_listDel s.lists.links a a).trans (if_pos rfl)

theorem listNext (h : HoldsProcQ head s l) :
    ListX.listNext head s.lists.links = l.head?.map fun x => .pList x.1 := by
  rw [listNext_of_ring h.ring, List.head?_map]

theorem headProcQ (h : HoldsProcQ head s l) :
    Pointer.headProcQ head s = some (l.head?.map Prod.fst) := by
  rw [Pointer.headProcQ, h.listNext]
  cases l <;> rfl

theorem removeProcQ (h : HoldsProcQ head s l) :
    ∃ s', Pointer.removeProcQ head s = some (s', l.head?.map Prod.fst) ∧
      HoldsProcQ head s' l.tail := by
  rw [Pointer.removeProcQ, h.listNext]
  cases l with
  | nil => exact ⟨s, rfl, h⟩
  | cons x l =>
      have hn := h.ring.next_head
      rw [List.map_cons, List.headD_cons] at hn
      have h' : HoldsProcQ head s ([] ++ x :: l) := h
      rw [hn]
      exact ⟨_, rfl, h'.listDel⟩

/-- The search of `outProcQ`. -/
theorem seek (h : HoldsProcQ head s l) (p : Pcb) :
    listForEach Link.loopBudget head (fun c => c.ofPList.map fun c => decide (p = c))
      s.lists.links = some (if p ∈ l.map Prod.fst then .pList p else head) := by
  let stop (c : Link) : Option Bool := c.ofPList.map fun c => decide (p = c)
  have hstop : ∀ x ∈ l, stop (.pList x.1) = some (decide (p = x.1)) := by
    simp [stop, Link.ofPList]
  have hcurr := h.ring.seek_eq (n := Link.loopBudget) hstop h.length_lt
  refine Eq.trans hcurr (congrArg some ?_)
  cases hf : l.find? fun x => decide (p = x.1) with
  | none =>
      rw [List.find?_eq_none] at hf
      rw [if_neg]
      · rfl
      · intro hm
        obtain ⟨x, hx, rfl⟩ := List.mem_map.mp hm
        exact hf x hx (by simp)
  | some x =>
      have hx : p = x.1 := by simpa using List.find?_some hf
      rw [if_pos]
      · rw [hx]
        rfl
      · rw [hx]
        exact List.mem_map_of_mem (List.mem_of_find?_eq_some hf)

theorem outProcQ (h : HoldsProcQ head s l) (hh : ∀ q, head ≠ .pList q) (p : Pcb) :
    ∃ s', Pointer.outProcQ head p s = some (s', if p ∈ l.map Prod.fst then some p else none) ∧
      HoldsProcQ head s' (l.filter fun y => y.1 ≠ p) ∧ (p ∉ l.map Prod.fst → s' = s) := by
  rw [Pointer.outProcQ, h.seek, Option.map_some]
  by_cases hp : p ∈ l.map Prod.fst
  · obtain ⟨x, hx, rfl⟩ := List.mem_map.mp hp
    obtain ⟨l₁, l₂, rfl⟩ := List.append_of_mem hx
    have hn := h.nodup
    rw [List.map_append, List.map_cons, List.nodup_middle, List.nodup_cons, ← List.map_append] at hn
    have hfil : (l₁ ++ x :: l₂).filter (fun y => y.1 ≠ x.1) = l₁ ++ l₂ := by
      rw [List.filter_append, List.filter_cons_of_neg (by simp), ← List.filter_append,
        List.filter_eq_self]
      intro y hy
      simp only [ne_eq, decide_not, Bool.not_eq_true', decide_eq_false_iff_not]
      exact fun he => hn.1 (he ▸ List.mem_map_of_mem hy)
    rw [if_pos hp, if_pos hp, if_neg (hh x.1).symm, hfil]
    exact ⟨_, rfl, h.listDel, fun hno => absurd hp hno⟩
  · have hfil : l.filter (fun y => y.1 ≠ p) = l := by
      rw [List.filter_eq_self]
      intro y hy
      simp only [ne_eq, decide_not, Bool.not_eq_true', decide_eq_false_iff_not]
      exact fun he => hp (he ▸ List.mem_map_of_mem hy)
    rw [if_neg hp, if_neg hp, if_pos rfl, hfil]
    exact ⟨s, rfl, h, fun _ => rfl⟩

/-- Every allowed operation does on the pointers what it does on the list. -/
theorem run_spec (h : HoldsProcQ head s l) (hh : ∀ q, head ≠ .pList q) (op : ProcQOp)
    (ha : op.Allowed l) :
    ∃ s', op.run head s = some (s', (op.apply l).2) ∧ HoldsProcQ head s' (op.apply l).1 := by
  cases op with
  | insertProcQ p v =>
      obtain ⟨s', hs, h'⟩ := h.insertProcQ hh (v := v) ha
      refine ⟨s', ?_, h'⟩
      rw [ProcQOp.run, hs]
      rfl
  | removeProcQ => exact h.removeProcQ
  | headProcQ =>
      refine ⟨s, ?_, h⟩
      rw [ProcQOp.run, h.headProcQ]
      rfl
  | outProcQ p =>
      obtain ⟨s', hs, h', _⟩ := h.outProcQ hh p
      exact ⟨s', hs, h'⟩

/-- The PCB that leaves the queue is linked to itself. -/
theorem unlinked (h : HoldsProcQ head s l) (hh : ∀ q, head ≠ .pList q) {op : ProcQOp}
    (hop : op.Removes) (hr : op.run head s = some (s', some p)) :
    s'.lists.links.next (.pList p) = .pList p ∧ s'.lists.links.prev (.pList p) = .pList p := by
  cases op with
  | insertProcQ | headProcQ => exact hop.elim
  | removeProcQ =>
      rw [ProcQOp.run, Pointer.removeProcQ, h.listNext] at hr
      cases l with
      | nil => simp at hr
      | cons x l =>
          have hn := h.ring.next_head
          rw [List.map_cons, List.headD_cons] at hn
          simp only [List.head?_cons, Option.map_some, Link.ofPList, Option.some.injEq,
            Prod.mk.injEq, hn] at hr
          obtain ⟨rfl, rfl⟩ := hr
          exact unlinked_listDel _ s
  | outProcQ q =>
      rw [ProcQOp.run, Pointer.outProcQ, h.seek, Option.map_some] at hr
      by_cases hq : q ∈ l.map Prod.fst
      · rw [if_pos hq, if_neg (hh q).symm, Option.some.injEq, Prod.mk.injEq] at hr
        obtain ⟨rfl, hp⟩ := hr
        rw [← Option.some.inj hp]
        exact unlinked_listDel _ s
      · rw [if_neg hq, if_pos rfl] at hr
        simp at hr

theorem isProcQ (h : HoldsProcQ head s l) (hh : ∀ q, head ≠ .pList q) : IsProcQ head s l := by
  constructor
  · exact h.ring.collect_eq (by rw [List.length_map]; exact h.length_lt)
  · exact h.ring.flip.collect_eq (by rw [List.length_reverse, List.length_map]; exact h.length_lt)
  · exact h.prio
  · intro op ha
    obtain ⟨s', hs, _⟩ := h.run_spec hh op ha
    exact ⟨s', hs⟩
  · intro op s' p hop hr
    exact h.unlinked hh hop hr
  · intro p hp
    obtain ⟨s', hs, _, hsame⟩ := h.outProcQ hh p
    rw [hs, if_neg hp, hsame hp]

end HoldsProcQ

/-- In every run of a queue the pointers, read in both directions, are the list, and every
operation returns what it returns on the list. -/
theorem proc_queue_refines_list {head : Link} (hh : ∀ q, head ≠ .pList q)
    {x : Store Pointers × List Queued} (h : (procQRuns head).Reachable x) :
    IsProcQ head x.1 x.2 := by
  have hinv : HoldsProcQ head x.1 x.2 := by
    refine h.invariant (I := fun x => HoldsProcQ head x.1 x.2) (fun x hx => ?_)
      fun x op x' _ ih hs => ?_
    · obtain ⟨⟨s₀, hs⟩, hl⟩ := hx
      rw [hs, hl]
      exact HoldsProcQ.mkEmptyProcQ s₀
    · obtain ⟨ha, ⟨r, hr⟩, hl⟩ := hs
      obtain ⟨s', hs', h'⟩ := ih.run_spec hh op ha
      rw [hr, Option.some.injEq, Prod.mk.injEq] at hs'
      rw [hs'.1, hl]
      exact h'
  exact hinv.isProcQ hh

/-- Three PCBs in the ready queue, the last one inserted behind one of its priority. -/
theorem proc_queue_refines_list_three :
    ∃ s, IsProcQ .readyQueue s [(0, 20), (1, 10), (2, 10)] := by
  have hh : ∀ q, Link.readyQueue ≠ .pList q := fun q => by simp
  have h₀ : (procQRuns .readyQueue).Reachable (Pointer.mkEmptyProcQ .readyQueue looseStore, []) :=
    .init ⟨⟨looseStore, rfl⟩, rfl⟩
  have ha₁ : (ProcQOp.insertProcQ 1 10).Allowed [] := List.not_mem_nil
  obtain ⟨s₁, h₁⟩ := (proc_queue_refines_list hh h₀).result _ ha₁
  have h₁' : (procQRuns .readyQueue).Reachable (s₁, [(1, 10)]) :=
    .step h₀ ⟨ha₁, ⟨_, h₁⟩, rfl⟩
  have ha₂ : (ProcQOp.insertProcQ 0 20).Allowed [(1, 10)] := by decide
  have hl₂ : [(0, 20), (1, 10)] = insertQueued (0, 20) [(1, 10)] := by decide
  obtain ⟨s₂, h₂⟩ := (proc_queue_refines_list hh h₁').result _ ha₂
  have h₂' : (procQRuns .readyQueue).Reachable (s₂, [(0, 20), (1, 10)]) :=
    .step h₁' ⟨ha₂, ⟨_, h₂⟩, hl₂⟩
  have ha₃ : (ProcQOp.insertProcQ 2 10).Allowed [(0, 20), (1, 10)] := by decide
  have hl₃ : [(0, 20), (1, 10), (2, 10)] = insertQueued (2, 10) [(0, 20), (1, 10)] := by
    decide
  obtain ⟨s₃, h₃⟩ := (proc_queue_refines_list hh h₂').result _ ha₃
  have h₃' : (procQRuns .readyQueue).Reachable (s₃, [(0, 20), (1, 10), (2, 10)]) :=
    .step h₂' ⟨ha₃, ⟨_, h₃⟩, hl₃⟩
  exact ⟨s₃, proc_queue_refines_list hh h₃'⟩

end PandOSsh
