import PandOSsh.Phase1.Interface

/-!
# Phase 1 as plain lists

What the free list, the ready queue, the active semaphores and the process tree
are for, without pointers. Each operation carries the contract its callers must
keep as a guard: a PCB is inserted only when it is on no queue, and the child
list of a free PCB is never consulted. Outside the contract the result is
`none`.
-/

namespace PandOSsh

/-- An active semaphore descriptor: its table entry, its key and its waiters. -/
structure Desc where
  semd : Semd
  key : Word
  procq : List Pcb
deriving DecidableEq

structure Lists where
  free : List Pcb
  ready : List Pcb
  asl : List Desc
  idle : List Semd
  child : Pcb → List Pcb

namespace Lists

/-- The PCBs blocked on active semaphores. -/
def blocked (v : Lists) : List Pcb := v.asl.flatMap Desc.procq

/-- The PCBs whose `p_list` field is in use. -/
def queued (v : Lists) : List Pcb := v.free ++ v.ready ++ v.blocked

/-- The waiters on one key. -/
def waiters (v : Lists) (key : Word) : List Pcb :=
  ((v.asl.find? fun d => d.key = key).map Desc.procq).getD []

/-- What a walk over the represented queues finds. -/
def queues (v : Lists) : Queues := ⟨v.free, v.ready, v.asl.map fun d => (d.key, d.procq)⟩

theorem queues_waiters (v : Lists) (key : Word) : v.queues.waiters key = v.waiters key := by
  rw [Queues.waiters, queues, List.find?_map, Option.map_map]
  rfl

theorem queues_blocked (v : Lists) : v.queues.blocked = v.blocked := by
  rw [Queues.blocked, queues, List.flatMap_map]
  rfl

def setProcq (d : Semd) (q : List Pcb) (asl : List Desc) : List Desc :=
  asl.map fun e => if e.semd = d then { e with procq := q } else e

/-- Give a descriptor the queue `q`, or retire it when `q` is empty. -/
def requeue (d : Semd) (q : List Pcb) (v : Lists) : Lists :=
  if q = [] then { v with asl := v.asl.filter (fun e => e.semd ≠ d), idle := d :: v.idle }
  else { v with asl := setProcq d q v.asl }

/-- `p` goes after every process of at least its priority. -/
def byPrio (d : PcbData) (p : Pcb) (ready : List Pcb) : List Pcb :=
  ready.orderedInsert (fun a b => (d.pcb b).pPrio < (d.pcb a).pPrio) p

def setLists (s : Store Lists) (v : Lists) : Store Lists := { s with lists := v }

@[simp] theorem setLists_lists (s : Store Lists) (v : Lists) : (setLists s v).lists = v := rfl
@[simp] theorem setLists_pcb (s : Store Lists) (v : Lists) : (setLists s v).pcb = s.pcb := rfl
@[simp] theorem setLists_nextPid (s : Store Lists) (v : Lists) :
    (setLists s v).nextPid = s.nextPid := rfl
@[simp] theorem setLists_toPcbData (s : Store Lists) (v : Lists) :
    (setLists s v).toPcbData = s.toPcbData := rfl

def initPcbs (s : Store Lists) : Store Lists :=
  setLists s { s.lists with free := (List.finRange maxProc).reverse, child := fun _ => [] }

def initAsl (s : Store Lists) : Store Lists :=
  setLists s { s.lists with asl := [], idle := (List.finRange maxProc).reverse }

def mkEmptyProcQ (s : Store Lists) : Store Lists := setLists s { s.lists with ready := [] }

def freePcb (p : Pcb) (s : Store Lists) : Option (Store Lists) :=
  if p ∉ s.lists.queued then
    some (setLists s { s.lists with free := p :: s.lists.free })
  else none

def allocPcb (s : Store Lists) : Option (Store Lists × Option Pcb) :=
  match s.lists.free with
  | [] => some (s, none)
  | p :: free =>
      if p ∉ free ∧ ∀ q, p ∉ s.lists.child q then
        let v := { s.lists with free := free, child := Function.update s.lists.child p [] }
        let s := (setLists s v).setPcb p (initialFields s.nextPid)
        some ({ s with nextPid := s.nextPid + 1 }, some p)
      else none

def insertProcQ (p : Pcb) (s : Store Lists) : Option (Store Lists) :=
  if p ∉ s.lists.queued then
    some (setLists s { s.lists with ready := byPrio s.toPcbData p s.lists.ready })
  else none

def removeProcQ (s : Store Lists) : Option (Store Lists × Option Pcb) :=
  match s.lists.ready with
  | [] => some (s, none)
  | p :: ready => some (setLists s { s.lists with ready := ready }, some p)

def outProcQ (p : Pcb) (s : Store Lists) : Option (Store Lists × Option Pcb) :=
  if p ∈ s.lists.ready then
    some (setLists s { s.lists with ready := s.lists.ready.erase p }, some p)
  else some (s, none)

def listAddReady (p : Pcb) (s : Store Lists) : Option (Store Lists) :=
  if p ∉ s.lists.queued then
    some (setLists s { s.lists with ready := p :: s.lists.ready })
  else none

def emptyChild (p : Pcb) (s : Store Lists) : Option Bool :=
  if p ∉ s.lists.free then some (s.lists.child p).isEmpty else none

def insertChild (prnt : Option Pcb) (p : Pcb) (s : Store Lists) : Option (Store Lists) :=
  match prnt with
  | none => some s
  | some q =>
      if q ∉ s.lists.free ∧ ∀ r, p ∉ s.lists.child r then
        let v := { s.lists with
          child := Function.update s.lists.child q (p :: s.lists.child q) }
        some (setLists (s.setPcb p { s.pcb p with pParent := some q }) v)
      else none

def removeChild (p : Pcb) (s : Store Lists) : Option (Store Lists × Option Pcb) :=
  if p ∉ s.lists.free then
    match s.lists.child p with
    | [] => some (s, none)
    | c :: cs =>
        let v := { s.lists with child := Function.update s.lists.child p cs }
        some (setLists (s.setPcb c { s.pcb c with pParent := none }) v, some c)
  else none

def outChild (p : Pcb) (s : Store Lists) : Option (Store Lists × Option Pcb) :=
  match (s.pcb p).pParent with
  | none => some (s, none)
  | some q =>
      if q ∉ s.lists.free ∧ p ∈ s.lists.child q then
        let v := { s.lists with
          child := Function.update s.lists.child q ((s.lists.child q).erase p) }
        some (setLists (s.setPcb p { s.pcb p with pParent := none }) v, some p)
      else none

def insertBlocked (semAdd : Word) (p : Pcb) (s : Store Lists) : Option (Store Lists × Bool) :=
  if p ∉ s.lists.queued then
    match s.lists.asl.find? (fun d => d.key = semAdd) with
    | some d =>
        let v := { s.lists with asl := setProcq d.semd (d.procq ++ [p]) s.lists.asl }
        some ((setLists s v).setPcb p { s.pcb p with pSemAdd := semAdd }, false)
    | none =>
        match s.lists.idle with
        | [] => some (s, true)
        | e :: idle =>
            let v := { s.lists with asl := s.lists.asl ++ [⟨e, semAdd, [p]⟩], idle := idle }
            some ((setLists s v).setPcb p { s.pcb p with pSemAdd := semAdd }, false)
  else none

def removeBlocked (semAdd : Word) (s : Store Lists) : Option (Store Lists × Option Pcb) :=
  match s.lists.asl.find? (fun d => d.key = semAdd) with
  | none => some (s, none)
  | some d =>
      match d.procq with
      | [] => none
      | p :: ps => some (setLists s (requeue d.semd ps s.lists), some p)

def outBlocked (p : Pcb) (s : Store Lists) : Option (Store Lists × Option Pcb) :=
  match s.lists.asl.find? (fun d => d.key = (s.pcb p).pSemAdd ∧ p ∈ d.procq) with
  | none => some (s, none)
  | some d => some (setLists s (requeue d.semd (d.procq.erase p) s.lists), some p)

instance : QueueApi Lists where
  initPcbs := initPcbs
  initAsl := initAsl
  mkEmptyProcQ := mkEmptyProcQ
  allocPcb := allocPcb
  freePcb := freePcb
  emptyProcQ s := s.lists.ready.isEmpty
  insertProcQ := insertProcQ
  removeProcQ := removeProcQ
  outProcQ := outProcQ
  listAddReady := listAddReady
  emptyChild := emptyChild
  insertChild := insertChild
  removeChild := removeChild
  outChild := outChild
  insertBlocked := insertBlocked
  removeBlocked := removeBlocked
  outBlocked := outBlocked
  children p s := if p ∉ s.lists.free then some (s.lists.child p) else none
  ready s := some s.lists.ready
  blocked s := some s.lists.blocked

end Lists
end PandOSsh
