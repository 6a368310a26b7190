import PandOSsh.Library.Simulation
import PandOSsh.Phase1.Asl
import PandOSsh.Phase1.Lists

/-!
# The pointers implement the lists

`Represents` reads the embedded pointers as a family of disjoint rings, one for
each list of the abstract state. Every function of `pcb.c` and `asl.c` simulates
its list counterpart: wherever the list operation keeps its contract, the
pointer code returns the same result and represents the new lists.
-/

namespace PandOSsh
open Library ListX

namespace Lists

/-- The head and the members of every embedded list. The child list of a free
PCB and the queue of a retired descriptor are no lists. -/
def rings (v : Lists) : Link → Option (List Link)
  | .pcbFreeH => some (v.free.map .pList)
  | .readyQueue => some (v.ready.map .pList)
  | .semdFreeH => some (v.idle.map .sLink)
  | .semdH => some (v.asl.map fun d => .sLink d.semd)
  | .sProcq d => (v.asl.find? fun e => e.semd = d).map fun e => e.procq.map .pList
  | .pChild p => if p ∈ v.free then none else some ((v.child p).map .pSib)
  | .pList _ | .pSib _ | .sLink _ => none

structure Represents (m : Pointers) (v : Lists) : Prop where
  rings : m.links.Rings v.rings
  keys : ∀ d ∈ v.asl, m.sKey d.semd = d.key

section Updates
variable (v : Lists) (p : Pcb)

@[simp] theorem rings_with_ready (ps : List Pcb) :
    ({ v with ready := ps } : Lists).rings =
      Function.update v.rings .readyQueue (some (ps.map .pList)) := by
  funext l
  cases l <;> simp [rings]

theorem rings_pChild (hp : p ∉ v.free) : v.rings (.pChild p) = some ((v.child p).map .pSib) :=
  if_neg hp

theorem rings_with_child (hp : p ∉ v.free) (cs : List Pcb) :
    ({ v with child := Function.update v.child p cs } : Lists).rings =
      Function.update v.rings (.pChild p) (some (cs.map .pSib)) := by
  funext l
  cases l with
  | pChild q =>
      by_cases hq : q = p
      · subst hq
        simp [rings, hp]
      · simp [rings, hq]
  | _ => simp [rings]

theorem find_setProcq (d x : Semd) (q : List Pcb) (asl : List Desc) :
    ((setProcq d q asl).find? fun e => e.semd = x) =
      (asl.find? fun e => e.semd = x).map fun e => if e.semd = d then { e with procq := q } else e := by
  rw [setProcq, List.find?_map]
  congr 1
  congr 1
  funext e
  by_cases he : e.semd = d <;> simp [he]

theorem rings_with_setProcq {e : Desc} (he : e ∈ v.asl) (q : List Pcb) :
    ({ v with asl := setProcq e.semd q v.asl } : Lists).rings =
      Function.update v.rings (.sProcq e.semd) (some (q.map .pList)) := by
  funext l
  cases l with
  | sProcq x =>
      simp only [rings, find_setProcq, Option.map_map, Function.update_apply, Link.sProcq.injEq]
      by_cases hx : x = e.semd
      · subst hx
        have hf : (v.asl.find? fun a => a.semd = e.semd).isSome := by
          rw [List.find?_isSome]
          exact ⟨e, he, by simp⟩
        obtain ⟨a, ha⟩ := Option.isSome_iff_exists.mp hf
        have hs := List.find?_some ha
        simp only [decide_eq_true_eq] at hs
        simp [ha, hs]
      · rw [if_neg hx]
        cases ha : v.asl.find? fun a => a.semd = x with
        | none => rfl
        | some a =>
            have hs := List.find?_some ha
            simp only [decide_eq_true_eq] at hs
            simp [hs, hx]
  | semdH =>
      simp only [rings, setProcq, List.map_map, Function.update_apply, reduceCtorEq, if_false]
      congr 1
      apply List.map_congr_left
      intro a _
      simp only [Function.comp_apply]
      split <;> rfl
  | _ => simp [rings]

end Updates

/-- The addresses that some embedded list uses, as head or as member. -/
def InUse (v : Lists) : Link → Prop
  | .pList p => p ∈ v.queued
  | .pSib p => ∃ q, p ∈ v.child q
  | .pChild p => p ∉ v.free
  | .sProcq d => ∃ e ∈ v.asl, e.semd = d
  | _ => True

theorem inUse_of_mem {v : Lists} {l x : Link} {xs : List Link} (hl : v.rings l = some xs)
    (hx : x ∈ l :: xs) : v.InUse x := by
  cases l with
  | pcbFreeH | readyQueue =>
      simp only [rings, Option.some.injEq] at hl
      subst hl
      simp only [List.mem_cons, List.mem_map] at hx
      rcases hx with rfl | ⟨p, hp, rfl⟩
      · trivial
      · simp [InUse, queued, hp]
  | semdFreeH | semdH =>
      simp only [rings, Option.some.injEq] at hl
      subst hl
      simp only [List.mem_cons, List.mem_map] at hx
      rcases hx with rfl | ⟨d, _, rfl⟩ <;> trivial
  | sProcq d =>
      simp only [rings, Option.map_eq_some_iff] at hl
      obtain ⟨e, he, rfl⟩ := hl
      have hs := List.find?_some he
      simp only [decide_eq_true_eq] at hs
      simp only [List.mem_cons, List.mem_map] at hx
      rcases hx with rfl | ⟨p, hp, rfl⟩
      · exact ⟨e, List.mem_of_find?_eq_some he, hs⟩
      · simp only [InUse, queued, blocked, List.mem_append, List.mem_flatMap]
        exact .inr ⟨e, List.mem_of_find?_eq_some he, hp⟩
  | pChild q =>
      simp only [rings] at hl
      split at hl
      · simp at hl
      · simp only [Option.some.injEq] at hl
        subst hl
        simp only [List.mem_cons, List.mem_map] at hx
        rcases hx with rfl | ⟨p, hp, rfl⟩
        · assumption
        · exact ⟨q, hp⟩
  | _ => simp [rings] at hl

theorem fresh_of_not_inUse {v : Lists} {x : Link} (hx : ¬ v.InUse x) :
    Links.Fresh v.rings x := fun _ _ hl hm => hx (inUse_of_mem hl hm)

theorem fresh_pList {v : Lists} {p : Pcb} (hp : p ∉ v.queued) :
    Links.Fresh v.rings (.pList p) := fresh_of_not_inUse hp

theorem fresh_pSib {v : Lists} {p : Pcb} (hp : ∀ q, p ∉ v.child q) :
    Links.Fresh v.rings (.pSib p) := fresh_of_not_inUse (fun ⟨q, hq⟩ => hp q hq)

theorem fresh_sProcq {v : Lists} {d : Semd} (hd : ∀ e ∈ v.asl, e.semd ≠ d) :
    Links.Fresh v.rings (.sProcq d) := fresh_of_not_inUse (fun ⟨e, he, h⟩ => hd e he h)

theorem find?_eq_head?_dropWhile {α : Type*} (f : α → Bool) (l : List α) :
    l.find? f = (l.dropWhile fun c => !f c).head? := by
  induction l with
  | nil => rfl
  | cons x l ih => cases hf : f x <;> simp [hf, ih]

/-- No list outlasts the budget of a loop over it. -/
theorem length_lt_loopBudget {f : Fin maxProc → Link} {l : List (Fin maxProc)}
    (h : (l.map f).Nodup) : l.length < Link.loopBudget := by
  have hl : l.length ≤ maxProc := by simpa using (h.of_map f).length_le_card
  have hm : maxProc < Link.loopBudget := by decide
  exact lt_of_le_of_lt hl hm

theorem find?_eq_ite (p : Pcb) (ps : List Pcb) :
    ps.find? (fun c => decide (p = c)) = if p ∈ ps then some p else none := by
  induction ps with
  | nil => rfl
  | cons q ps ih =>
      by_cases hq : p = q
      · simp [hq]
      · simp [hq, ih]

end Lists

/-- The stores agree on the PCB fields, and the pointers represent the lists. -/
structure StoreRel (s : Store Pointers) (v : Store Lists) : Prop where
  data : s.toPcbData = v.toPcbData
  lists : Lists.Represents s.lists v.lists

/-- Related stores and the same returned value. -/
def ResultRel {β : Type} (x : Store Pointers × β) (y : Store Lists × β) : Prop :=
  StoreRel x.1 y.1 ∧ x.2 = y.2

namespace StoreRel
variable {s : Store Pointers} {v : Store Lists}

theorem pcb (h : StoreRel s v) (p : Pcb) : s.pcb p = v.pcb p := by rw [h.data]

theorem nextPid (h : StoreRel s v) : s.nextPid = v.nextPid := by rw [h.data]

theorem setPcb (h : StoreRel s v) (p : Pcb) {f g : PcbFields} (hf : f = g) :
    StoreRel (s.setPcb p f) (v.setPcb p g) := by
  subst hf
  exact ⟨congrArg (fun d => d.setPcb p f) h.data, h.lists⟩

theorem setLinks (h : StoreRel s v) {l : Links Link} {w : Lists} (hr : l.Rings w.rings)
    (hk : ∀ d ∈ w.asl, s.lists.sKey d.semd = d.key) :
    StoreRel (Pointer.setLinks s l) (Lists.setLists v w) :=
  ⟨h.data, hr, hk⟩

theorem freePcb (h : StoreRel s v) (p : Pcb) :
    Simulates StoreRel (Pointer.freePcb p s) (Lists.freePcb p v) := by
  refine .guard fun hp => .pure (h.setLinks ?_ h.lists.keys)
  refine (rings_listAdd h.lists.rings rfl (Lists.fresh_pList hp)).mono ?_
  intro l xs hl
  cases l with
  | pChild q =>
      simp only [Lists.rings, List.mem_cons] at hl
      simp only [Function.update_apply, reduceCtorEq, if_false, Lists.rings]
      split at hl <;> simp_all
  | pList | pSib | sLink => simp [Lists.rings] at hl
  | _ => simpa [Lists.rings] using hl

theorem allocPcb (h : StoreRel s v) :
    Simulates ResultRel (Pointer.allocPcb s) (Lists.allocPcb v) := by
  have hn := listNext_eq (a := .pcbFreeH) h.lists.rings rfl
  unfold Pointer.allocPcb Lists.allocPcb
  cases hf : v.lists.free with
  | nil =>
      rw [hf] at hn
      rw [hn]
      exact .pure ⟨h, rfl⟩
  | cons p free =>
      rw [hf] at hn
      rw [hn]
      refine .guard fun hp => .pure ⟨?_, rfl⟩
      have hc : v.lists.rings .pcbFreeH = some ([] ++ Link.pList p :: free.map .pList) := by
        simp [Lists.rings, hf]
      have h1 := rings_listDel h.lists.rings hc
      have f1 := h.lists.rings.fresh_removed hc
      have h2 := rings_initListHead h1 f1
      have f2 : Links.Fresh v.lists.rings (.pChild p) :=
        Lists.fresh_of_not_inUse (by simp [Lists.InUse, hf])
      have h3 := rings_initListHead_new h2 (f2.update (by simp))
      have f3 : Links.Fresh v.lists.rings (.pSib p) :=
        Lists.fresh_pSib hp.2
      have h4 := rings_initListHead h3 ((f3.update (by simp)).update (by simp))
      refine ⟨?_, ?_, h.lists.keys⟩
      · change ({ s.toPcbData.setPcb p (initialFields s.nextPid) with
          nextPid := s.nextPid + 1 } : PcbData) = { v.toPcbData.setPcb p
          (initialFields v.nextPid) with nextPid := v.nextPid + 1 }
        rw [h.data]
      · have he : ({ v.lists with free := free, child := Function.update v.lists.child p [] } :
            Lists).rings = Function.update (Function.update v.lists.rings .pcbFreeH
              (some ([] ++ free.map Link.pList))) (.pChild p) (some []) := by
          funext l
          cases l with
          | pChild q =>
              by_cases hq : q = p
              · subst hq
                simp [Lists.rings, hp.1]
              · simp [Lists.rings, hq, hf]
          | _ => simp [Lists.rings]
        rw [← he] at h4
        exact h4

theorem emptyProcQ (h : StoreRel s v) :
    Pointer.emptyProcQ .readyQueue s = v.lists.ready.isEmpty := by
  rw [Bool.eq_iff_iff, Pointer.emptyProcQ, listEmpty_iff (a := .readyQueue) h.lists.rings rfl]
  simp

/-- The scan of `insertProcQ` stops where `byPrio` inserts. -/
theorem insertProcQ (h : StoreRel s v) (p : Pcb) :
    Simulates StoreRel (Pointer.insertProcQ .readyQueue p s) (Lists.insertProcQ p v) := by
  refine .guard fun hp => ?_
  let f : Pcb → Bool := fun c => decide ((v.pcb c).pPrio < (v.pcb p).pPrio)
  let l₁ := v.lists.ready.takeWhile fun c => !f c
  let l₂ := v.lists.ready.dropWhile fun c => !f c
  have hsplit : v.lists.ready = l₁ ++ l₂ := (List.takeWhile_append_dropWhile).symm
  have hby : Lists.byPrio v.toPcbData p v.lists.ready = l₁ ++ p :: l₂ := by
    rw [Lists.byPrio, List.orderedInsert_eq_take_drop]
    simp only [l₁, l₂, f, ← decide_not]
  have hring := h.lists.rings.ring (a := .readyQueue) rfl
  let stop (c : Link) : Option Bool :=
    c.ofPList.map fun c => decide ((s.pcb c).pPrio < (s.pcb p).pPrio)
  have hstop : ∀ c ∈ v.lists.ready, stop (.pList c) = some (f c) := by
    simp [stop, Link.ofPList, f, h.pcb]
  have hcurr := hring.seek_eq (n := Link.loopBudget) hstop
    (Lists.length_lt_loopBudget (List.nodup_cons.mp hring.nodup).2)
  have hhead : ((v.lists.ready.find? f).map Link.pList).getD .readyQueue =
      (l₂.map Link.pList).headD .readyQueue := by
    rw [Lists.find?_eq_head?_dropWhile]
    change (l₂.head?.map Link.pList).getD _ = _
    cases l₂ <;> rfl
  rw [hhead] at hcurr
  rw [hsplit, List.map_append] at hring
  have hadj := hring.adj
  rw [Pointer.insertProcQ, show ListX.listForEach _ _ _ _ = _ from hcurr, Option.map_some]
  refine .pure (h.setLinks ?_ h.lists.keys)
  rw [hadj.2, listAdd, hadj.1]
  have hc : v.lists.rings .readyQueue = some (l₁.map Link.pList ++ l₂.map Link.pList) := by
    rw [← List.map_append, ← hsplit]
    rfl
  have hr := rings_listAddBetween h.lists.rings hc (Lists.fresh_pList hp)
  simpa [hby] using hr

theorem removeProcQ (h : StoreRel s v) :
    Simulates ResultRel (Pointer.removeProcQ .readyQueue s) (Lists.removeProcQ v) := by
  have hn := listNext_eq (a := .readyQueue) h.lists.rings rfl
  have hh := (h.lists.rings.ring (a := .readyQueue) rfl).next_head
  unfold Pointer.removeProcQ Lists.removeProcQ
  cases hf : v.lists.ready with
  | nil =>
      rw [hf] at hn
      rw [hn]
      exact .pure ⟨h, rfl⟩
  | cons p ready =>
      rw [hf] at hn hh
      rw [hn, hh]
      refine .pure ⟨h.setLinks ?_ h.lists.keys, rfl⟩
      have hc : v.lists.rings .readyQueue = some ([] ++ Link.pList p :: ready.map .pList) := by
        simp [Lists.rings, hf]
      simpa using rings_listDel h.lists.rings hc

/-- A search for a given PCB in a list of PCBs. -/
theorem seek_pcb {a : Link} {ps : List Pcb} (h : StoreRel s v)
    (ha : v.lists.rings a = some (ps.map .pList)) (p : Pcb) :
    listForEach Link.loopBudget a (fun c => c.ofPList.map fun c => decide (p = c))
      s.lists.links = some (if p ∈ ps then .pList p else a) := by
  have hring := h.lists.rings.ring ha
  rw [ListX.listForEach, hring.seek_eq (f := fun c => decide (p = c)) (by simp [Link.ofPList])
    (Lists.length_lt_loopBudget (List.nodup_cons.mp hring.nodup).2), Lists.find?_eq_ite]
  split <;> rfl

theorem outProcQ (h : StoreRel s v) (p : Pcb) :
    Simulates ResultRel (Pointer.outProcQ .readyQueue p s) (Lists.outProcQ p v) := by
  unfold Pointer.outProcQ Lists.outProcQ
  rw [h.seek_pcb (a := .readyQueue) rfl, Option.map_some]
  by_cases hp : p ∈ v.lists.ready
  · rw [if_pos hp, if_pos hp, if_neg (by simp)]
    refine .pure ⟨h.setLinks ?_ h.lists.keys, rfl⟩
    obtain ⟨l₁, l₂, -, hs, he⟩ := List.exists_erase_eq hp
    have hc : v.lists.rings .readyQueue =
        some (l₁.map Link.pList ++ .pList p :: l₂.map .pList) := by
      simp [Lists.rings, hs]
    simpa [he] using rings_listDel h.lists.rings hc
  · rw [if_neg hp, if_neg hp, if_pos rfl]
    exact .pure ⟨h, rfl⟩

theorem listAddReady (h : StoreRel s v) (p : Pcb) :
    Simulates StoreRel (QueueApi.listAddReady p s) (Lists.listAddReady p v) := by
  refine .guard fun hp => .pure (h.setLinks ?_ h.lists.keys)
  simpa using rings_listAdd (a := .readyQueue) h.lists.rings rfl (Lists.fresh_pList hp)

theorem emptyChild_eq (h : StoreRel s v) {p : Pcb} (hp : p ∉ v.lists.free) :
    Pointer.emptyChild p s = (v.lists.child p).isEmpty := by
  rw [Bool.eq_iff_iff, Pointer.emptyChild,
    listEmpty_iff h.lists.rings (Lists.rings_pChild _ _ hp)]
  simp

theorem emptyChild (h : StoreRel s v) (p : Pcb) :
    Simulates Eq (QueueApi.emptyChild p s) (Lists.emptyChild p v) :=
  .guard fun hp => .pure (h.emptyChild_eq hp)

/-- Deleting a child from the list of its parent and clearing its parent. -/
theorem deleteChild (h : StoreRel s v) {q c : Pcb} {xs ys : List Pcb} (hq : q ∉ v.lists.free)
    (hc : v.lists.child q = xs ++ c :: ys) :
    StoreRel ((Pointer.setLinks s (listDel (.pSib c) s.lists.links)).setPcb c
        { s.pcb c with pParent := none })
      ((Lists.setLists v { v.lists with
        child := Function.update v.lists.child q (xs ++ ys) }).setPcb c
        { v.pcb c with pParent := none }) := by
  have hf : ({ s.pcb c with pParent := none } : PcbFields) =
      { v.pcb c with pParent := none } := by rw [h.pcb]
  refine StoreRel.setPcb (h.setLinks ?_ ?_) c hf
  rotate_left
  · exact h.lists.keys
  have hr : v.lists.rings (.pChild q) = some (xs.map .pSib ++ .pSib c :: ys.map .pSib) := by
    simp [Lists.rings, hq, hc]
  rw [Lists.rings_with_child _ _ hq, List.map_append]
  exact rings_listDel h.lists.rings hr

theorem insertChild (h : StoreRel s v) (prnt : Option Pcb) (p : Pcb) :
    Simulates StoreRel (Pointer.insertChild prnt p s) (Lists.insertChild prnt p v) := by
  cases prnt with
  | none => exact .pure h
  | some q =>
      refine .guard fun hp => .pure ?_
      have hs := h.setPcb p (f := { s.pcb p with pParent := some q })
        (g := { v.pcb p with pParent := some q }) (by rw [h.pcb])
      refine hs.setLinks ?_ h.lists.keys
      rw [Lists.rings_with_child _ _ hp.1]
      exact rings_listAdd h.lists.rings (Lists.rings_pChild _ _ hp.1) (Lists.fresh_pSib hp.2)

theorem removeChild (h : StoreRel s v) (p : Pcb) :
    Simulates ResultRel (Pointer.removeChild p s) (Lists.removeChild p v) := by
  refine .guard fun hp => ?_
  have hn := listNext_eq h.lists.rings (Lists.rings_pChild _ _ hp)
  unfold Pointer.removeChild
  cases hc : v.lists.child p with
  | nil =>
      rw [hc] at hn
      rw [hn]
      exact .pure ⟨h, rfl⟩
  | cons c cs =>
      rw [hc] at hn
      rw [hn]
      have hc' : v.lists.child p = [] ++ c :: cs := hc
      exact .pure ⟨h.deleteChild hp hc', rfl⟩

theorem outChild (h : StoreRel s v) (p : Pcb) :
    Simulates ResultRel (Pointer.outChild p s) (Lists.outChild p v) := by
  unfold Pointer.outChild Lists.outChild
  rw [h.pcb]
  cases (v.pcb p).pParent with
  | none => exact .pure ⟨h, rfl⟩
  | some q =>
      refine .guard fun hp => .pure ⟨?_, rfl⟩
      obtain ⟨l₁, l₂, -, hs, he⟩ := List.exists_erase_eq hp.2
      rw [he]
      exact h.deleteChild hp.1 hs

end StoreRel
end PandOSsh
