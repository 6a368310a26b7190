import PandOSsh.Library.Forest
import PandOSsh.Phase1.AslMap
import PandOSsh.Phase1.ProcQueue

/-!
# Phase 1 as a whole

The free list, the ready queue, the queues of the semaphores and the process tree share the
PCBs. The functions of `pcb.c` and `asl.c` in any sequence, between them writes to the other
fields of allocated PCBs, beside the same operations on four plain tables: none of the
structures disturbs another one.
-/

namespace PandOSsh
open Library ListX

structure Tables where
  free : List Pcb
  ready : List Queued
  blocked : QueueMap Word Pcb
  family : Forest Pcb

namespace Tables

/-- What `initPcbs`, `initASL` and `mkEmptyProcQ` leave. -/
def boot : Tables := ⟨(List.finRange maxProc).reverse, [], ∅, ∅⟩

/-- The PCB is allocated and on no queue. -/
structure Loose (t : Tables) (p : Pcb) : Prop where
  free : p ∉ t.free
  ready : p ∉ t.ready.map Prod.fst
  blocked : ∀ k, p ∉ t.blocked.queue k

end Tables

inductive Phase1Op where
  | allocPcb
  | freePcb (p : Pcb)
  /-- A function of `pcb.c` on the ready queue. -/
  | readyQueue (op : ProcQOp)
  /-- A function of `asl.c`. -/
  | semaphores (op : AslOp)
  | emptyChild (p : Pcb)
  | insertChild (prnt : Option Pcb) (p : Pcb)
  | removeChild (p : Pcb)
  | outChild (p : Pcb)
  /-- The owner of a PCB writes to its fields. -/
  | write (p : Pcb) (f : PcbFields)

inductive Returned where
  | void
  | bool (b : Bool)
  | pcb (p : Option Pcb)
deriving DecidableEq

def AslResult.returned : AslResult → Returned
  | full b => .bool b
  | pcb p => .pcb p

namespace Phase1Op

def run (op : Phase1Op) (s : Store Pointers) : Option (Store Pointers × Returned) :=
  match op with
  | allocPcb => (Pointer.allocPcb s).map fun r => (r.1, .pcb r.2)
  | freePcb p => (Pointer.freePcb p s).map (·, .void)
  | readyQueue op => (op.run .readyQueue s).map fun r => (r.1, .pcb r.2)
  | semaphores op => (op.run s).map fun r => (r.1, r.2.returned)
  | emptyChild p => some (s, .bool (Pointer.emptyChild p s))
  | insertChild prnt p => (Pointer.insertChild prnt p s).map (·, .void)
  | removeChild p => (Pointer.removeChild p s).map fun r => (r.1, .pcb r.2)
  | outChild p => (Pointer.outChild p s).map fun r => (r.1, .pcb r.2)
  | write p f => some (s.setPcb p f, .void)

/-- The operation on the tables. -/
noncomputable def apply (op : Phase1Op) (t : Tables) : Tables × Returned :=
  match op with
  | allocPcb => ({ t with free := t.free.tail }, .pcb t.free.head?)
  | freePcb p => ({ t with free := p :: t.free }, .void)
  | readyQueue op =>
      ({ t with ready := (op.apply t.ready).1 }, .pcb (op.apply t.ready).2)
  | semaphores op =>
      ({ t with blocked := (op.apply t.blocked).1 }, (op.apply t.blocked).2.returned)
  | emptyChild p => (t, .bool (t.family.children p).isEmpty)
  | insertChild none _ => (t, .void)
  | insertChild (some q) p => ({ t with family := t.family.insert q p }, .void)
  | removeChild p =>
      let first := (t.family.children p).head?
      ({ t with family := first.elim t.family (t.family.remove ·) }, .pcb first)
  | outChild p =>
      ({ t with family := t.family.remove p },
        .pcb (if t.family.parent p = none then none else some p))
  | write _ _ => (t, .void)

/-- What the functions may rely on. A PCB goes back without relatives and off all queues, and
is queued only when it is on no queue; a root is never given to one of its descendants; the
fields that belong to a list are left alone while the PCB is on it. -/
def Allowed (op : Phase1Op) (t : Tables) : Prop :=
  match op with
  | allocPcb => True
  | freePcb p => t.Loose p ∧ t.family.Alone p
  | readyQueue (.insertProcQ p _) => t.Loose p
  | readyQueue _ => True
  | semaphores (.insertBlocked _ p) => t.Loose p
  | semaphores _ => True
  | emptyChild p | removeChild p | outChild p => p ∉ t.free
  | insertChild none _ => True
  | insertChild (some q) p =>
      q ∉ t.free ∧ p ∉ t.free ∧ t.family.parent p = none ∧ ¬ t.family.Below p q
  | write p f => p ∉ t.free ∧ f.pParent = t.family.parent p ∧
      (∀ prio, (p, prio) ∈ t.ready → f.pPrio = prio) ∧
      ∀ k, p ∈ t.blocked.queue k → f.pSemAdd = k

end Phase1Op

/-- The runs from any memory that has been initialised, beside the tables. -/
def phase1Runs : System (Store Pointers × Tables) Phase1Op where
  init x := (∃ s₀ : Store Pointers, x.1 = initLists s₀) ∧ x.2 = .boot
  step x op x' := op.Allowed x.2 ∧ (∃ r, op.run x.1 = some (x'.1, r)) ∧
    x'.2 = (op.apply x.2).1

/-- Forwards and backwards from its head the list has these members. -/
structure Walks (s : Store Pointers) (head : Link) (l : List Link) : Prop where
  next : s.lists.links.collect head Link.loopBudget (s.lists.links.next head) = some l
  prev : s.lists.links.flip.collect head Link.loopBudget (s.lists.links.prev head) =
    some l.reverse

/-- Follow `p_parent` n times. -/
def parents (s : Store Pointers) : ℕ → Pcb → Option Pcb
  | 0, p => some p
  | n + 1, p => (s.pcb p).pParent.bind (parents s n)

/-- The memory holds the tables, and every operation returns what it returns on them. -/
structure IsTables (s : Store Pointers) (t : Tables) : Prop where
  result : ∀ op : Phase1Op, op.Allowed t → ∃ s', op.run s = some (s', (op.apply t).2)
  free : Walks s .pcbFreeH (t.free.map .pList)
  ready : Walks s .readyQueue (t.ready.map fun x => .pList x.1)
  prio : ∀ x ∈ t.ready, (s.pcb x.1).pPrio = x.2
  sorted : t.ready.Pairwise fun x y => y.2 ≤ x.2
  queue : ∀ k ∈ t.blocked.active, ∃ d, s.lists.sKey d = k ∧
    Walks s (.sProcq d) ((t.blocked.queue k).map .pList)
  semAdd : ∀ k, ∀ p ∈ t.blocked.queue k, (s.pcb p).pSemAdd = k
  children : ∀ p ∉ t.free, Walks s (.pChild p) ((t.family.children p).map .pSib)
  parent : ∀ p ∉ t.free, (s.pcb p).pParent = t.family.parent p
  ends : ∀ p ∉ t.free, parents s maxProc p = none
  apart : (t.free ++ t.ready.map Prod.fst).Nodup
  waits : ∀ k, (t.blocked.queue k).Nodup ∧ ∀ p ∈ t.blocked.queue k,
    p ∉ t.free ∧ p ∉ t.ready.map Prod.fst ∧ ∀ a, p ∈ t.blocked.queue a → a = k
  alone : ∀ p ∈ t.free, t.family.Alone p

/-- The lists hold the tables. -/
structure HoldsTables (v : Store Lists) (t : Tables) : Prop where
  free : v.lists.free = t.free
  ready : v.lists.ready = t.ready.map Prod.fst
  prio : ∀ x ∈ t.ready, (v.pcb x.1).pPrio = x.2
  sorted : t.ready.Pairwise fun x y => y.2 ≤ x.2
  blocked : HoldsMap v t.blocked
  child : v.lists.child = t.family.children
  parent : ∀ p ∉ t.free, (v.pcb p).pParent = t.family.parent p
  alone : ∀ p ∈ t.free, t.family.Alone p
  nodup : v.lists.queued.Nodup

/-- Only the active semaphores and the `p_semAdd` of who is blocked there matter. -/
theorem HoldsMap.congr {v v' : Store Lists} {m : QueueMap Word Pcb} (h : HoldsMap v m)
    (ha : v'.lists.asl = v.lists.asl) (hi : v'.lists.idle = v.lists.idle)
    (hs : ∀ p ∈ v.lists.blocked, (v'.pcb p).pSemAdd = (v.pcb p).pSemAdd) : HoldsMap v' m := by
  have hw : ∀ a, v'.lists.waiters a = v.lists.waiters a := fun a => by
    rw [Lists.waiters_def, Lists.waiters_def, ha]
  refine ⟨h.active.congr ha hi, ?_, ?_, ?_⟩
  · rw [Lists.blocked, ha]
    exact h.nodup
  · intro a q hq
    rw [hw] at hq
    rw [hs q (h.active.mem_blocked.mpr ⟨a, hq⟩)]
    exact h.semAdd a q hq
  · intro k
    rw [hw, h.queue]

namespace HoldsTables
variable {v v' : Store Lists} {t : Tables} {p q : Pcb}

theorem boot (v : Store Lists) : HoldsTables (initLists v) .boot := by
  rw [initLists_lists]
  refine ⟨rfl, rfl, ?_, .nil, ?_, rfl, ?_, fun p _ => Forest.alone_empty p, ?_⟩
  · intro x hx
    exact absurd hx List.not_mem_nil
  · refine ⟨⟨List.nodup_nil, ?_, fun d hd => absurd hd List.not_mem_nil, ?_⟩, List.nodup_nil,
      fun a q hq => absurd hq List.not_mem_nil, fun k => rfl⟩
    · exact List.nodup_reverse.mpr (List.nodup_finRange maxProc)
    · simp [Lists.boot]
  · intro p hp
    exact absurd (List.mem_reverse.mpr (List.mem_finRange p)) hp
  · simp only [Lists.setLists_lists, Lists.queued, Lists.blocked, Lists.boot, List.flatMap_nil,
      List.append_nil]
    exact List.nodup_reverse.mpr (List.nodup_finRange maxProc)

theorem mem_blocked (h : HoldsTables v t) : p ∈ v.lists.blocked ↔ ∃ k, p ∈ t.blocked.queue k := by
  rw [h.blocked.active.mem_blocked]
  simp only [h.blocked.queue]

theorem loose_iff (h : HoldsTables v t) : t.Loose p ↔ p ∉ v.lists.queued := by
  simp only [Lists.queued, List.mem_append, not_or, h.mem_blocked, h.free, h.ready, not_exists]
  exact ⟨fun hp => ⟨⟨hp.free, hp.ready⟩, hp.blocked⟩, fun hp => ⟨hp.1.1, hp.1.2, hp.2⟩⟩

theorem free_apart (h : HoldsTables v t) (hp : p ∈ t.free) :
    p ∉ t.ready.map Prod.fst ∧ p ∉ v.lists.blocked := by
  have hn := h.nodup
  rw [Lists.queued, List.append_assoc, h.free, h.ready] at hn
  have hd := List.disjoint_of_nodup_append hn hp
  exact ⟨fun hr => hd (List.mem_append_left _ hr), fun hb => hd (List.mem_append_right _ hb)⟩

/-- A write that leaves what the tables say about the PCB. -/
theorem setPcb (h : HoldsTables v t) {f : PcbFields}
    (hpar : p ∉ t.free → f.pParent = t.family.parent p)
    (hprio : ∀ prio, (p, prio) ∈ t.ready → f.pPrio = prio)
    (hsem : ∀ k, p ∈ t.blocked.queue k → f.pSemAdd = k) : HoldsTables (v.setPcb p f) t where
  free := h.free
  ready := h.ready
  prio x hx := by
    rw [Store.setPcb_pcb]
    split
    · next he => exact hprio x.2 (he ▸ hx)
    · exact h.prio x hx
  sorted := h.sorted
  blocked := by
    refine h.blocked.congr rfl rfl fun q hq => ?_
    rw [Store.setPcb_pcb]
    split
    · next he =>
      obtain ⟨k, hk⟩ := h.mem_blocked.mp hq
      rw [hsem k (he ▸ hk), h.blocked.semAdd k q (h.blocked.queue k ▸ hk)]
    · rfl
  child := h.child
  parent q hq := by
    rw [Store.setPcb_pcb]
    split
    · next he => rw [he, hpar (he ▸ hq)]
    · exact h.parent q hq
  alone := h.alone
  nodup := h.nodup

section Free

/-- The first free PCB leaves its list. -/
theorem tail (h : HoldsTables v t) {free : List Pcb} (hf : t.free = p :: free)
    (hpar : (v.pcb p).pParent = none) :
    HoldsTables (Lists.setLists v { v.lists with
      free := free, child := Function.update v.lists.child p [] }) { t with free := free } := by
  have halone := h.alone p (hf ▸ List.mem_cons_self)
  have hn := h.nodup
  rw [Lists.queued, h.free, hf, List.cons_append, List.cons_append, List.nodup_cons] at hn
  constructor
  · rfl
  · exact h.ready
  · exact h.prio
  · exact h.sorted
  · exact h.blocked.congr rfl rfl fun _ _ => rfl
  · change Function.update v.lists.child p [] = _
    rw [h.child, ← halone.children, Function.update_eq_self]
  · intro q hq
    by_cases hqp : q = p
    · rw [hqp, halone.parent]
      exact hpar
    · exact h.parent q (by rw [hf, List.mem_cons, not_or]; exact ⟨hqp, hq⟩)
  · exact fun q hq => h.alone q (hf ▸ List.mem_cons_of_mem p hq)
  · exact hn.2

theorem allocPcb (h : HoldsTables v t) :
    ∃ v', Lists.allocPcb v = some (v', t.free.head?) ∧
      HoldsTables v' { t with free := t.free.tail } := by
  rw [Lists.allocPcb, h.free]
  cases hf : t.free with
  | nil =>
      refine ⟨v, rfl, ?_⟩
      have ht : ({ t with free := [] } : Tables) = t := by rw [← hf]
      rw [List.tail_nil, ht]
      exact h
  | cons p free =>
      have hp : p ∈ t.free := hf ▸ List.mem_cons_self
      have hloose := h.free_apart hp
      have hn := h.nodup
      rw [Lists.queued, h.free, hf, List.cons_append, List.cons_append, List.nodup_cons] at hn
      have hguard : p ∉ free ∧ ∀ q, p ∉ v.lists.child q := by
        refine ⟨fun hm => hn.1 (by simp [hm]), fun q hq => ?_⟩
        rw [h.child, t.family.mem_children, (h.alone p hp).parent] at hq
        cases hq
      have hinit : HoldsTables (v.setPcb p (initialFields v.nextPid)) t := by
        refine h.setPcb (fun hno => absurd hp hno) (fun prio hm => ?_) fun k hk => ?_
        · exact absurd (List.mem_map_of_mem hm) hloose.1
        · exact absurd (h.mem_blocked.mpr ⟨k, hk⟩) hloose.2
      have h' := hinit.tail hf (by rw [Store.setPcb_pcb, if_pos rfl]; rfl)
      refine ⟨_, if_pos hguard, ?_⟩
      exact ⟨h'.free, h'.ready, h'.prio, h'.sorted, h'.blocked.congr rfl rfl fun _ _ => rfl,
        h'.child, h'.parent, h'.alone, h'.nodup⟩

theorem freePcb (h : HoldsTables v t) (hp : t.Loose p) (ha : t.family.Alone p) :
    ∃ v', Lists.freePcb p v = some v' ∧ HoldsTables v' { t with free := p :: t.free } := by
  have hq := h.loose_iff.mp hp
  refine ⟨_, if_pos hq, ?_⟩
  constructor
  · exact congrArg (p :: ·) h.free
  · exact h.ready
  · exact h.prio
  · exact h.sorted
  · exact h.blocked.congr rfl rfl fun _ _ => rfl
  · exact h.child
  · exact fun q hq => h.parent q fun hm => hq (List.mem_cons_of_mem p hm)
  · intro q hq
    rcases List.mem_cons.mp hq with rfl | hq
    · exact ha
    · exact h.alone q hq
  · exact List.nodup_cons.mpr ⟨hq, h.nodup⟩

end Free

section Ready
variable {l : List Queued} {d : PcbData} {prio : ℤ}

/-- The scan by `p_prio` inserts where the list of pairs does. -/
theorem byPrio_map (hs : l.Pairwise fun x y => y.2 ≤ x.2)
    (hl : ∀ x ∈ l, (d.pcb x.1).pPrio = x.2) (hp : (d.pcb p).pPrio = prio) :
    Lists.byPrio d p (l.map Prod.fst) = (insertQueued (p, prio) l).map Prod.fst := by
  obtain ⟨h1, h2⟩ := HoldsProcQ.filter_split hs prio
  rw [insertQueued, h1, h2, List.map_append, List.map_cons]
  clear h1 h2 hs
  rw [Lists.byPrio]
  induction l with
  | nil => rfl
  | cons x l ih =>
      have hx := hl x List.mem_cons_self
      rw [List.map_cons, List.orderedInsert_cons, hx, hp]
      by_cases hlt : x.2 < prio
      · have hle : ¬ prio ≤ x.2 := not_le.mpr hlt
        simp [hlt, hle]
      · have hle : prio ≤ x.2 := not_lt.mp hlt
        rw [if_neg hlt, ih fun y hy => hl y (List.mem_cons_of_mem x hy)]
        simp [hle]

/-- Another ready queue. -/
theorem setReady (h : HoldsTables v t) (hprio : ∀ x ∈ l, (v.pcb x.1).pPrio = x.2)
    (hs : l.Pairwise fun x y => y.2 ≤ x.2)
    (hn : (t.free ++ l.map Prod.fst ++ v.lists.blocked).Nodup) :
    HoldsTables (Lists.setLists v { v.lists with ready := l.map Prod.fst })
      { t with ready := l } where
  free := h.free
  ready := rfl
  prio := hprio
  sorted := hs
  blocked := h.blocked.congr rfl rfl fun _ _ => rfl
  child := h.child
  parent := h.parent
  alone := h.alone
  nodup := by
    rw [← h.free] at hn
    exact hn

theorem nodup_tables (h : HoldsTables v t) :
    (t.free ++ t.ready.map Prod.fst ++ v.lists.blocked).Nodup := by
  have hn := h.nodup
  rwa [Lists.queued, h.free, h.ready] at hn

/-- Members leave the ready queue. -/
theorem shrinkReady (h : HoldsTables v t) (hl : l.Sublist t.ready) :
    HoldsTables (Lists.setLists v { v.lists with ready := l.map Prod.fst })
      { t with ready := l } := by
  refine h.setReady (fun x hx => h.prio x (hl.subset hx)) (h.sorted.sublist hl) ?_
  exact h.nodup_tables.sublist (((hl.map Prod.fst).append_left _).append_right _)

theorem insertProcQ (h : HoldsTables v t) (hp : t.Loose p) (prio : ℤ) :
    ∃ v', Lists.insertProcQ p (v.setPcb p { v.pcb p with pPrio := prio }) = some v' ∧
      HoldsTables v' { t with ready := insertQueued (p, prio) t.ready } := by
  have hq := h.loose_iff.mp hp
  have h₁ : HoldsTables (v.setPcb p { v.pcb p with pPrio := prio }) t := by
    refine h.setPcb (fun hf => h.parent p hf) (fun x hx => ?_) fun k hk => absurd hk (hp.blocked k)
    exact absurd (List.mem_map_of_mem hx) hp.ready
  have hself : ((v.setPcb p { v.pcb p with pPrio := prio }).pcb p).pPrio = prio := by
    rw [Store.setPcb_pcb, if_pos rfl]
  refine ⟨_, if_pos hq, ?_⟩
  rw [h₁.ready, byPrio_map h₁.sorted h₁.prio hself]
  refine h₁.setReady (fun x hx => ?_) (HoldsProcQ.sorted_insertQueued h₁.sorted) ?_
  · rcases HoldsProcQ.mem_insertQueued.mp hx with rfl | hx
    · exact hself
    · exact h₁.prio x hx
  · have hperm : ((insertQueued (p, prio) t.ready).map Prod.fst).Perm
        (p :: t.ready.map Prod.fst) := by
      rw [← byPrio_map h₁.sorted h₁.prio hself]
      exact List.perm_orderedInsert _ _ _
    have hn := List.nodup_cons.mpr ⟨hq, h.nodup⟩
    rw [Lists.queued, h.free, h.ready] at hn
    have hmove := (hperm.append_left t.free).append_right v.lists.blocked
    refine (hmove.trans ?_).nodup_iff.mpr hn
    exact List.perm_middle.append_right _

theorem removeProcQ (h : HoldsTables v t) :
    ∃ v', Lists.removeProcQ v = some (v', t.ready.head?.map Prod.fst) ∧
      HoldsTables v' { t with ready := t.ready.tail } := by
  rw [Lists.removeProcQ, h.ready]
  cases hl : t.ready with
  | nil =>
      have ht : ({ t with ready := [] } : Tables) = t := by rw [← hl]
      refine ⟨v, rfl, ?_⟩
      rw [List.tail_nil, ht]
      exact h
  | cons x l =>
      refine ⟨_, rfl, h.shrinkReady ?_⟩
      rw [hl]
      exact List.sublist_cons_self x l

theorem outProcQ (h : HoldsTables v t) (p : Pcb) :
    ∃ v', Lists.outProcQ p v =
        some (v', if p ∈ t.ready.map Prod.fst then some p else none) ∧
      HoldsTables v' { t with ready := t.ready.filter fun y => y.1 ≠ p } := by
  have hn := (List.nodup_append.mp (List.nodup_append.mp h.nodup_tables).1).2.1
  have hmap : (t.ready.filter fun y => y.1 ≠ p).map Prod.fst = (t.ready.map Prod.fst).erase p := by
    rw [hn.erase_eq_filter, List.filter_map]
    congr 1
    apply List.filter_congr
    intro y _
    simp [bne, beq_eq_decide]
  have h' := h.shrinkReady (List.filter_sublist (l := t.ready) (p := fun y => y.1 ≠ p))
  rw [hmap, ← h.ready] at h'
  rw [Lists.outProcQ, h.ready]
  by_cases hp : p ∈ t.ready.map Prod.fst
  · rw [if_pos hp, if_pos hp, ← h.ready]
    exact ⟨_, rfl, h'⟩
  · rw [h.ready, List.erase_of_not_mem hp, ← h.ready] at h'
    rw [if_neg hp, if_neg hp]
    exact ⟨_, rfl, h'⟩

end Ready

section Semaphores
variable {m : QueueMap Word Pcb} {w : Lists}

/-- Other queues on the semaphores, with `p_semAdd` as these say. -/
theorem setBlocked (h : HoldsTables v t) (hm : HoldsMap v' m)
    (hl : v'.lists = { v.lists with asl := v'.lists.asl, idle := v'.lists.idle })
    (hd : ∀ q, (v'.pcb q).pParent = (v.pcb q).pParent ∧ (v'.pcb q).pPrio = (v.pcb q).pPrio)
    (hn : v'.lists.queued.Nodup) : HoldsTables v' { t with blocked := m } where
  free := by rw [hl]; exact h.free
  ready := by rw [hl]; exact h.ready
  prio x hx := (hd x.1).2.trans (h.prio x hx)
  sorted := h.sorted
  blocked := hm
  child := by rw [hl]; exact h.child
  parent q hq := (hd q).1.trans (h.parent q hq)
  alone := h.alone
  nodup := hn

theorem insertBlocked (h : HoldsTables v t) (hp : t.Loose p) (k : Word) :
    ∃ v', Lists.insertBlocked k p v = some (v', false) ∧
      HoldsTables v' { t with blocked := t.blocked.enqueue k p } := by
  have hq := h.loose_iff.mp hp
  have hb : p ∉ v.lists.blocked := fun hm => hq (List.mem_append_right _ hm)
  obtain ⟨v', hv', hm⟩ := h.blocked.insertBlocked hq k
  obtain ⟨w, hw, he⟩ := Lists.Active.insertBlocked_spec h.blocked.active hq
    (h.blocked.blocked_length hb) k
  rw [hw, Option.some.injEq, Prod.mk.injEq] at hv'
  obtain ⟨rfl, -⟩ := hv'
  refine ⟨_, hw, h.setBlocked hm he.frame (fun q => ?_) ?_⟩
  · rw [Store.setPcb_pcb]
    split
    · next hqp => exact hqp ▸ ⟨rfl, rfl⟩
    · exact ⟨rfl, rfl⟩
  · have hn := List.nodup_cons.mpr ⟨hq, h.nodup⟩
    change (w.free ++ w.ready ++ w.blocked).Nodup
    rw [he.free, he.ready]
    refine ((he.blocked.append_left _).trans ?_).nodup_iff.mpr hn
    exact List.perm_middle

theorem queue_nodup (h : HoldsTables v t) (k : Word) : (t.blocked.queue k).Nodup := by
  rw [h.blocked.queue]
  by_cases hk : v.lists.waiters k = []
  · rw [hk]
    exact List.nodup_nil
  · obtain ⟨d, hd, -, -, hq⟩ := h.blocked.active.find_key hk
    rw [← hq]
    exact (List.nodup_flatMap.mp h.blocked.nodup).1 d hd

/-- A blocked PCB leaves its queue. -/
theorem dropped {k : Word} (h : HoldsTables v t) (hd : Lists.Active.Dropped k p v.lists w)
    (hm : HoldsMap (Lists.setLists v w) m) :
    HoldsTables (Lists.setLists v w) { t with blocked := m } := by
  refine h.setBlocked hm hd.frame (fun q => ⟨rfl, rfl⟩) ?_
  change (w.free ++ w.ready ++ w.blocked).Nodup
  have hn := h.nodup
  rw [Lists.queued, ← hd.free, ← hd.ready] at hn
  have hn' := ((hd.blocked.append_left _).trans List.perm_middle).nodup_iff.mp hn
  exact (List.nodup_cons.mp hn').2

theorem removeBlocked (h : HoldsTables v t) (k : Word) :
    ∃ v', Lists.removeBlocked k v = some (v', (t.blocked.queue k).head?) ∧
      HoldsTables v' { t with blocked := t.blocked.dequeue k } := by
  obtain ⟨v', hv', hm⟩ := h.blocked.removeBlocked k
  refine ⟨v', hv', ?_⟩
  cases hq : v.lists.waiters k with
  | nil =>
      rw [Lists.Active.removeBlocked_none h.blocked.active hq, Option.some.injEq,
        Prod.mk.injEq] at hv'
      obtain ⟨rfl, -⟩ := hv'
      exact h.setBlocked hm rfl (fun q => ⟨rfl, rfl⟩) h.nodup
  | cons p ps =>
      obtain ⟨w, hw, hd⟩ := Lists.Active.removeBlocked_spec h.blocked.active hq
      rw [hw, Option.some.injEq, Prod.mk.injEq] at hv'
      obtain ⟨rfl, -⟩ := hv'
      exact h.dropped hd hm

theorem outBlocked (h : HoldsTables v t) (p : Pcb) :
    ∃ v', Lists.outBlocked p v =
        some (v', if ∃ k ∈ t.blocked.active, p ∈ t.blocked.queue k then some p else none) ∧
      HoldsTables v' { t with blocked := t.blocked.erase p } := by
  obtain ⟨v', hv', hm⟩ := h.blocked.outBlocked p
  refine ⟨v', hv', ?_⟩
  by_cases hp : p ∈ v.lists.waiters (v.pcb p).pSemAdd
  · obtain ⟨w, hw, hd⟩ := Lists.Active.outBlocked_spec h.blocked.active hp
    rw [hw, Option.some.injEq, Prod.mk.injEq] at hv'
    obtain ⟨rfl, -⟩ := hv'
    exact h.dropped hd hm
  · rw [Lists.Active.outBlocked_none h.blocked.active hp, Option.some.injEq,
      Prod.mk.injEq] at hv'
    obtain ⟨rfl, -⟩ := hv'
    exact h.setBlocked hm rfl (fun q => ⟨rfl, rfl⟩) h.nodup

end Semaphores

section Tree

/-- Another process tree, with `p_parent` of one PCB as this says. -/
theorem setFamily (h : HoldsTables v t) {f : Forest Pcb} {o : Option Pcb}
    (hpar : f.parent = Function.update t.family.parent p o)
    (halone : ∀ q ∈ t.free, f.Alone q) :
    HoldsTables ((Lists.setLists v { v.lists with child := f.children }).setPcb p
      { v.pcb p with pParent := o }) { t with family := f } where
  free := h.free
  ready := h.ready
  prio x hx := by
    rw [Store.setPcb_pcb]
    split
    · next he => exact he ▸ h.prio x hx
    · exact h.prio x hx
  sorted := h.sorted
  blocked := by
    refine h.blocked.congr rfl rfl fun q _ => ?_
    rw [Store.setPcb_pcb]
    split
    · next he => rw [he]
    · rfl
  child := rfl
  parent q hq := by
    change _ = f.parent q
    rw [hpar, Store.setPcb_pcb]
    split
    · next he => rw [he, Function.update_self]
    · next he =>
      rw [Function.update_of_ne he]
      exact h.parent q hq
  alone := halone
  nodup := h.nodup

theorem insertChild (h : HoldsTables v t) (hq : q ∉ t.free) (hp : p ∉ t.free)
    (hroot : t.family.parent p = none) (hbelow : ¬ t.family.Below p q) :
    ∃ v', Lists.insertChild (some q) p v = some v' ∧
      HoldsTables v' { t with family := t.family.insert q p } := by
  have hguard : q ∉ v.lists.free ∧ ∀ r, p ∉ v.lists.child r := by
    refine ⟨h.free ▸ hq, fun r hr => ?_⟩
    rw [h.child, t.family.mem_children, hroot] at hr
    cases hr
  have hpar := Forest.parent_insert hroot hbelow
  have hch := Forest.children_insert hroot hbelow
  refine ⟨_, if_pos hguard, ?_⟩
  have h' := h.setFamily hpar fun r hr => ?_
  · rw [hch, ← h.child] at h'
    exact h'
  · have hrp : r ≠ p := fun he => hp (he ▸ hr)
    have hrq : r ≠ q := fun he => hq (he ▸ hr)
    refine ⟨?_, ?_⟩
    · rw [hpar, Function.update_of_ne hrp, (h.alone r hr).parent]
    · rw [hch, Function.update_of_ne hrq, (h.alone r hr).children]

/-- A child leaves its parent. -/
theorem removed (h : HoldsTables v t) {c : Pcb} (hc : t.family.parent c = some p) :
    c ∉ t.free ∧ HoldsTables ((Lists.setLists v { v.lists with
      child := Function.update v.lists.child p ((v.lists.child p).erase c) }).setPcb c
        { v.pcb c with pParent := none }) { t with family := t.family.remove c } := by
  have hfree : c ∉ t.free := fun hf => by
    rw [(h.alone c hf).parent] at hc
    cases hc
  refine ⟨hfree, ?_⟩
  have h' := h.setFamily (f := t.family.remove c) rfl fun r hr => ?_
  · rw [Forest.children_remove_of_parent hc, ← h.child] at h'
    exact h'
  · refine ⟨?_, ?_⟩
    · rw [Forest.parent_remove, (h.alone r hr).parent, ite_self]
    · rw [Forest.children_remove, (h.alone r hr).children, List.erase_nil]

theorem removeChild (h : HoldsTables v t) (hp : p ∉ t.free) :
    ∃ v', Lists.removeChild p v = some (v', (t.family.children p).head?) ∧
      HoldsTables v' { t with family :=
        (t.family.children p).head?.elim t.family (t.family.remove ·) } := by
  rw [Lists.removeChild, if_pos (h.free ▸ hp), h.child]
  cases hc : t.family.children p with
  | nil => exact ⟨v, rfl, h⟩
  | cons c cs =>
      have hpar := (t.family.mem_children p c).mp (hc ▸ List.mem_cons_self)
      have h' := (h.removed hpar).2
      rw [h.child, hc, List.erase_cons_head] at h'
      exact ⟨_, rfl, h'⟩

theorem outChild (h : HoldsTables v t) (hp : p ∉ t.free) :
    ∃ v', Lists.outChild p v =
        some (v', if t.family.parent p = none then none else some p) ∧
      HoldsTables v' { t with family := t.family.remove p } := by
  rw [Lists.outChild, h.parent p hp]
  cases hc : t.family.parent p with
  | none =>
      rw [if_pos rfl, Forest.remove_root hc]
      exact ⟨v, rfl, h⟩
  | some q =>
      obtain ⟨-, h'⟩ := h.removed hc
      have hguard : q ∉ v.lists.free ∧ p ∈ v.lists.child q := by
        refine ⟨fun hf => ?_, ?_⟩
        · have hch := (h.alone q (h.free ▸ hf)).children
          have hm := (t.family.mem_children q p).mpr hc
          rw [hch] at hm
          exact absurd hm List.not_mem_nil
        · rw [h.child, t.family.mem_children]
          exact hc
      rw [if_neg (Option.some_ne_none q)]
      exact ⟨_, if_pos hguard, h'⟩

end Tree

end HoldsTables

section Pointers
variable {s : Store Pointers} {v : Store Lists} {t : Tables}

theorem HoldsTables.holdsProcQ (h : HoldsTables v t) (hr : StoreRel s v) :
    HoldsProcQ .readyQueue s t.ready := by
  refine ⟨?_, fun x hx => ?_, h.sorted⟩
  · have hring := hr.lists.rings.ring (a := .readyQueue) rfl
    rw [h.ready, List.map_map] at hring
    exact hring
  · rw [hr.pcb]
    exact h.prio x hx

/-- The functions of `pcb.c` on the ready queue. -/
theorem readyQueue_spec (hr : StoreRel s v) (h : HoldsTables v t) (op : ProcQOp)
    (ha : (Phase1Op.readyQueue op).Allowed t) :
    ∃ s' v', op.run .readyQueue s = some (s', (op.apply t.ready).2) ∧ StoreRel s' v' ∧
      HoldsTables v' { t with ready := (op.apply t.ready).1 } := by
  cases op with
  | insertProcQ p prio =>
      have hset : StoreRel (s.setPcb p { s.pcb p with pPrio := prio })
          (v.setPcb p { v.pcb p with pPrio := prio }) := hr.setPcb p (by rw [hr.pcb])
      obtain ⟨v', hv', h'⟩ := h.insertProcQ ha prio
      obtain ⟨s', hs', hr'⟩ := hset.insertProcQ p _ hv'
      exact ⟨s', v', by rw [ProcQOp.run, hs']; rfl, hr', h'⟩
  | removeProcQ =>
      obtain ⟨v', hv', h'⟩ := h.removeProcQ
      obtain ⟨⟨s', o⟩, hs', hr', rfl⟩ := hr.removeProcQ _ hv'
      exact ⟨s', v', hs', hr', h'⟩
  | headProcQ =>
      refine ⟨s, v, ?_, hr, h⟩
      rw [ProcQOp.run, (h.holdsProcQ hr).headProcQ]
      rfl
  | outProcQ p =>
      obtain ⟨v', hv', h'⟩ := h.outProcQ p
      obtain ⟨⟨s', o⟩, hs', hr', rfl⟩ := hr.outProcQ p _ hv'
      exact ⟨s', v', hs', hr', h'⟩

/-- The functions of `asl.c`. -/
theorem semaphores_spec (hr : StoreRel s v) (h : HoldsTables v t) (op : AslOp)
    (ha : (Phase1Op.semaphores op).Allowed t) :
    ∃ s' v', op.run s = some (s', (op.apply t.blocked).2) ∧ StoreRel s' v' ∧
      HoldsTables v' { t with blocked := (op.apply t.blocked).1 } := by
  cases op with
  | insertBlocked k p =>
      have hb : p ∉ v.lists.blocked := fun hb => by
        obtain ⟨a, hk⟩ := h.mem_blocked.mp hb
        exact Tables.Loose.blocked ha a hk
      have hroom : ¬ (k ∉ t.blocked.active ∧ t.blocked.active.card = maxProc) := fun hfull =>
        (h.blocked.card_lt hb).ne hfull.2
      obtain ⟨v', hv', h'⟩ := h.insertBlocked ha k
      obtain ⟨⟨s', b⟩, hs', hr', rfl⟩ := hr.insertBlocked k p _ hv'
      rw [AslOp.run, hs', AslOp.apply, if_neg hroom]
      exact ⟨s', v', rfl, hr', h'⟩
  | removeBlocked k =>
      obtain ⟨v', hv', h'⟩ := h.removeBlocked k
      obtain ⟨⟨s', o⟩, hs', hr', rfl⟩ := hr.removeBlocked k _ hv'
      exact ⟨s', v', by rw [AslOp.run, hs']; rfl, hr', h'⟩
  | outBlocked p =>
      obtain ⟨v', hv', h'⟩ := h.outBlocked p
      obtain ⟨⟨s', o⟩, hs', hr', rfl⟩ := hr.outBlocked p _ hv'
      exact ⟨s', v', by rw [AslOp.run, hs']; rfl, hr', h'⟩
  | headBlocked k =>
      refine ⟨s, v, ?_, hr, h⟩
      rw [AslOp.run, headBlocked_eq hr h.blocked]
      rfl

/-- Every allowed operation does on the pointers what it does on the tables. -/
theorem tables_spec (hr : StoreRel s v) (h : HoldsTables v t) (op : Phase1Op)
    (ha : op.Allowed t) :
    ∃ s' v', op.run s = some (s', (op.apply t).2) ∧ StoreRel s' v' ∧
      HoldsTables v' (op.apply t).1 := by
  cases op with
  | allocPcb =>
      obtain ⟨v', hv', h'⟩ := h.allocPcb
      obtain ⟨⟨s', o⟩, hs', hr', rfl⟩ := hr.allocPcb _ hv'
      exact ⟨s', v', by rw [Phase1Op.run, hs']; rfl, hr', h'⟩
  | freePcb p =>
      obtain ⟨v', hv', h'⟩ := h.freePcb ha.1 ha.2
      obtain ⟨s', hs', hr'⟩ := hr.freePcb p _ hv'
      exact ⟨s', v', by rw [Phase1Op.run, hs']; rfl, hr', h'⟩
  | readyQueue op =>
      obtain ⟨s', v', hs', hr', h'⟩ := readyQueue_spec hr h op ha
      exact ⟨s', v', by rw [Phase1Op.run, hs']; rfl, hr', h'⟩
  | semaphores op =>
      obtain ⟨s', v', hs', hr', h'⟩ := semaphores_spec hr h op ha
      exact ⟨s', v', by rw [Phase1Op.run, hs']; rfl, hr', h'⟩
  | emptyChild p =>
      refine ⟨s, v, ?_, hr, h⟩
      rw [Phase1Op.run, hr.emptyChild_eq (h.free ▸ ha), h.child]
      rfl
  | insertChild prnt p =>
      cases prnt with
      | none => exact ⟨s, v, rfl, hr, h⟩
      | some q =>
          obtain ⟨hq, hp, hroot, hbelow⟩ := ha
          obtain ⟨v', hv', h'⟩ := h.insertChild hq hp hroot hbelow
          obtain ⟨s', hs', hr'⟩ := hr.insertChild (some q) p _ hv'
          exact ⟨s', v', by rw [Phase1Op.run, hs']; rfl, hr', h'⟩
  | removeChild p =>
      obtain ⟨v', hv', h'⟩ := h.removeChild ha
      obtain ⟨⟨s', o⟩, hs', hr', rfl⟩ := hr.removeChild p _ hv'
      exact ⟨s', v', by rw [Phase1Op.run, hs']; rfl, hr', h'⟩
  | outChild p =>
      obtain ⟨v', hv', h'⟩ := h.outChild ha
      obtain ⟨⟨s', o⟩, hs', hr', rfl⟩ := hr.outChild p _ hv'
      exact ⟨s', v', by rw [Phase1Op.run, hs']; rfl, hr', h'⟩
  | write p f =>
      obtain ⟨-, hpar, hprio, hsem⟩ := ha
      exact ⟨_, _, rfl, hr.setPcb p rfl, h.setPcb (fun _ => hpar) hprio hsem⟩

theorem walks_of_rings (hr : StoreRel s v) {head : Link} {f : Pcb → Link} {l : List Pcb}
    (hl : v.lists.rings head = some (l.map f)) : Walks s head (l.map f) := by
  have hring := hr.lists.rings.ring hl
  have hlen := Lists.length_lt_loopBudget (List.nodup_cons.mp hring.nodup).2
  constructor
  · exact hring.collect_eq (by rwa [List.length_map])
  · exact hring.flip.collect_eq (by rwa [List.length_reverse, List.length_map])

/-- Outside of the free list `p_parent` is the parent in the forest, up to the root. -/
theorem parents_eq (hr : StoreRel s v) (h : HoldsTables v t) (n : ℕ) {p : Pcb} (hp : p ∉ t.free) :
    parents s n p = t.family.ancestor n p := by
  induction n generalizing p with
  | zero => rfl
  | succ n ih =>
      rw [parents, Forest.ancestor, hr.pcb, h.parent p hp]
      cases hq : t.family.parent p with
      | none => rfl
      | some q =>
          rw [Option.bind_some, Option.bind_some, ih]
          intro hf
          have hch := (t.family.mem_children q p).mpr hq
          rw [(h.alone q hf).children] at hch
          exact absurd hch List.not_mem_nil

theorem isTables (hr : StoreRel s v) (h : HoldsTables v t) : IsTables s t where
  result op ha := by
    obtain ⟨s', v', hs', -⟩ := tables_spec hr h op ha
    exact ⟨s', hs'⟩
  free := walks_of_rings hr (congrArg (fun l : List Pcb => some (l.map Link.pList)) h.free)
  ready := by
    have hw : Walks s .readyQueue ((t.ready.map Prod.fst).map .pList) :=
      walks_of_rings hr (congrArg (fun l : List Pcb => some (l.map Link.pList)) h.ready)
    rwa [List.map_map] at hw
  prio x hx := by
    rw [hr.pcb]
    exact h.prio x hx
  sorted := h.sorted
  queue k hk := by
    rw [t.blocked.mem_active, h.blocked.queue] at hk
    obtain ⟨d, hd, -, hkey, hq⟩ := h.blocked.active.find_key hk
    refine ⟨d.semd, (hr.lists.keys d hd).trans hkey, ?_⟩
    rw [h.blocked.queue, ← hq]
    exact walks_of_rings hr (hr.lists.rings_sProcq hd)
  semAdd k p hp := by
    rw [hr.pcb]
    exact h.blocked.semAdd k p (h.blocked.queue k ▸ hp)
  children p hp := by
    rw [← h.child]
    exact walks_of_rings hr (Lists.rings_pChild _ _ (h.free ▸ hp))
  parent p hp := by
    rw [hr.pcb]
    exact h.parent p hp
  ends p hp := by
    rw [parents_eq hr h maxProc hp]
    have hend := t.family.ancestor_card p
    rwa [Fintype.card_fin] at hend
  apart := (List.nodup_append.mp h.nodup_tables).1
  waits k := by
    refine ⟨h.queue_nodup k, fun p hp => ?_⟩
    have hb := h.mem_blocked.mpr ⟨k, hp⟩
    refine ⟨fun hf => (h.free_apart hf).2 hb, fun hm => ?_, fun a ha => ?_⟩
    · exact List.disjoint_of_nodup_append h.nodup_tables (List.mem_append_right _ hm) hb
    · rw [h.blocked.queue] at hp ha
      exact (h.blocked.semAdd a p ha).symm.trans (h.blocked.semAdd k p hp)
  alone := h.alone

end Pointers

/-- In every run of phase 1 the memory holds the free list, the ready queue, the queues of
the semaphores and the process tree, and what is done to one of them leaves the others. -/
theorem phase1_refines_tables {x : Store Pointers × Tables} (h : phase1Runs.Reachable x) :
    IsTables x.1 x.2 := by
  have hinv : ∃ v, StoreRel x.1 v ∧ HoldsTables v x.2 := by
    refine h.invariant (I := fun x => ∃ v, StoreRel x.1 v ∧ HoldsTables v x.2)
      (fun x hx => ?_) fun x op x' _ ih hs => ?_
    · obtain ⟨⟨s₀, hs⟩, ht⟩ := hx
      let v₀ : Store Lists := ⟨s₀.toPcbData, Lists.boot⟩
      rw [hs, ht]
      exact ⟨initLists v₀, storeRel_initLists rfl, HoldsTables.boot v₀⟩
    · obtain ⟨ha, ⟨r, hrun⟩, ht⟩ := hs
      obtain ⟨v, hr, hv⟩ := ih
      obtain ⟨s', v', hs', hr', hv'⟩ := tables_spec hr hv op ha
      rw [hrun, Option.some.injEq, Prod.mk.injEq] at hs'
      rw [hs'.1, ht]
      exact ⟨v', hr', hv'⟩
  obtain ⟨v, hr, hv⟩ := hinv
  exact isTables hr hv

/-- A process with a child, which waits on a semaphore. -/
theorem phase1_refines_tables_child : ∃ s t, IsTables s t ∧
    t.family.children 19 = [18] ∧ t.blocked.queue 0x20002000 = [18] ∧ t.free.length = 18 := by
  have next : ∀ {s t} (op : Phase1Op), phase1Runs.Reachable (s, t) → op.Allowed t →
      ∃ s', phase1Runs.Reachable (s', (op.apply t).1) := by
    intro s t op h ha
    obtain ⟨s', hs'⟩ := (phase1_refines_tables h).result op ha
    exact ⟨s', .step h ⟨ha, ⟨_, hs'⟩, rfl⟩⟩
  have hroot : (∅ : Forest Pcb).parent 18 = none := rfl
  have hbelow : ¬ (∅ : Forest Pcb).Below 18 19 := by
    rw [Forest.below_iff]
    rintro (he | ⟨p, hp, -⟩)
    · exact absurd he (by decide)
    · cases hp
  have h₀ : phase1Runs.Reachable (initLists looseStore, .boot) := .init ⟨⟨looseStore, rfl⟩, rfl⟩
  obtain ⟨s₁, h₁⟩ := next .allocPcb h₀ trivial
  obtain ⟨s₂, h₂⟩ := next .allocPcb h₁ trivial
  obtain ⟨s₃, h₃⟩ := next (.insertChild (some 19) 18) h₂ ⟨by decide, by decide, hroot, hbelow⟩
  have hfree : (18 : Pcb) ∉ Tables.boot.free.tail.tail := by decide
  have hloose : ∀ f, Tables.Loose ⟨Tables.boot.free.tail.tail, [], ∅, f⟩ 18 := fun f =>
    ⟨hfree, List.not_mem_nil, fun _ => List.not_mem_nil⟩
  obtain ⟨s₄, h₄⟩ := next (.semaphores (.insertBlocked 0x20002000 18)) h₃ (hloose _)
  refine ⟨_, _, phase1_refines_tables h₄, ?_, ?_, rfl⟩
  · change ((∅ : Forest Pcb).insert 19 18).children 19 = _
    rw [Forest.children_insert hroot hbelow, Function.update_self]
    rfl
  · change ((AslOp.insertBlocked 0x20002000 18).apply ∅).1.queue 0x20002000 = _
    rw [AslOp.apply, QueueMap.active_empty, if_neg (by simp [maxProc]), QueueMap.queue_enqueue,
      if_pos rfl]
    rfl

end PandOSsh
