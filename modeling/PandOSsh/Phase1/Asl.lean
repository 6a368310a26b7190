import PandOSsh.Phase1.Pcb

/-!
# The active semaphore list (phase1/asl.c)

A descriptor moves between `semdFree_h` and `semd_h` through its `s_link`; an
active one heads the queue of the PCBs blocked on its key.
-/

namespace PandOSsh.Pointer
open Library ListX

def initAsl (s : Store Pointers) : Store Pointers :=
  let h := initListHead .semdFreeH s.lists.links
  let h := initListHead .semdH h
  setLinks s ((List.finRange maxProc).foldl (fun h i => listAdd (.sLink i) .semdFreeH h) h)

def setKey (s : Store Pointers) (d : Semd) (key : Word) : Store Pointers :=
  { s with lists := { s.lists with sKey := Function.update s.lists.sKey d key } }

/-- `list_for_each_entry(curr, &semd_h, s_link)` up to the first descriptor with
the given key; `none` inside when there is none. -/
def findKey (semAdd : Word) (s : Store Pointers) : Option (Option Semd) :=
  (listForEach Link.loopBudget .semdH
    (fun curr => curr.ofSLink.map fun d => decide (s.lists.sKey d = semAdd))
    s.lists.links).map Link.ofSLink

def insertBlocked (semAdd : Word) (p : Pcb) (s : Store Pointers) :
    Option (Store Pointers × Bool) :=
  (findKey semAdd s).bind fun
    | some curr =>
        let s := setLinks s (listAddTail (.pList p) (.sProcq curr) s.lists.links)
        some (s.setPcb p { s.pcb p with pSemAdd := semAdd }, false)
    | none =>
        match listNext .semdFreeH s.lists.links with
        | none => some (s, true)
        | some first => first.ofSLink.map fun newSem =>
            let s := setLinks s (listDel first s.lists.links)
            let s := setKey s newSem semAdd
            let s := mkEmptyProcQ (.sProcq newSem) s
            let s := setLinks s (listAddTail (.sLink newSem) .semdH s.lists.links)
            let s := setLinks s (listAddTail (.pList p) (.sProcq newSem) s.lists.links)
            (s.setPcb p { s.pcb p with pSemAdd := semAdd }, false)

/-- Return a descriptor whose queue has become empty to the free list. -/
def releaseIfEmpty (curr : Semd) (s : Store Pointers) : Store Pointers :=
  if emptyProcQ (.sProcq curr) s then
    let s := setLinks s (listDel (.sLink curr) s.lists.links)
    let s := setKey s curr null
    setLinks s (listAdd (.sLink curr) .semdFreeH s.lists.links)
  else s

def removeBlocked (semAdd : Word) (s : Store Pointers) :
    Option (Store Pointers × Option Pcb) :=
  (findKey semAdd s).bind fun
    | none => some (s, none)
    | some curr =>
        (listNext (.sProcq curr) s.lists.links).bind fun first =>
          first.ofPList.map fun p =>
            (releaseIfEmpty curr (setLinks s (listDel first s.lists.links)), some p)

/-- The inner loop of `outBlocked`: whether `p` is in the queue of `curr`. -/
def inProcq (p : Pcb) (curr : Semd) (s : Store Pointers) : Option Bool :=
  (listForEach Link.loopBudget (.sProcq curr)
    (fun pos => pos.ofPList.map fun c => decide (p = c)) s.lists.links).map
      (· != .sProcq curr)

def outBlocked (p : Pcb) (s : Store Pointers) : Option (Store Pointers × Option Pcb) :=
  (listForEach Link.loopBudget .semdH
    (fun curr => curr.ofSLink.bind fun d =>
      if (s.pcb p).pSemAdd = s.lists.sKey d then inProcq p d s else some false)
    s.lists.links).map fun curr =>
      match curr.ofSLink with
      | none => (s, none)
      | some d => (releaseIfEmpty d (setLinks s (listDel (.pList p) s.lists.links)), some p)

def headBlocked (semAdd : Word) (s : Store Pointers) : Option (Option Pcb) :=
  (findKey semAdd s).bind fun
    | none => some none
    | some curr => headProcQ (.sProcq curr) s

/-- The PCBs blocked on active semaphores, in the order of the two loops. -/
def blocked (s : Store Pointers) : Option (List Pcb) :=
  (members .semdH Link.ofSLink s).bind fun ds =>
    (ds.mapM fun d => members (.sProcq d) Link.ofPList s).map List.flatten

/-- The active keys with the queues of their descriptors. -/
def active (s : Store Pointers) : Option (List (Word × List Pcb)) :=
  (members .semdH Link.ofSLink s).bind (List.mapM fun d =>
    (members (.sProcq d) Link.ofPList s).map fun ps => (s.lists.sKey d, ps))

/-- The walk over all queues of PCBs. -/
def queues (s : Store Pointers) : Option Queues :=
  (members .pcbFreeH Link.ofPList s).bind fun free =>
    (members .readyQueue Link.ofPList s).bind fun ready =>
      (active s).map fun asl => ⟨free, ready, asl⟩

instance : QueueApi Pointers where
  initPcbs := initPcbs
  initAsl := initAsl
  mkEmptyProcQ := mkEmptyProcQ .readyQueue
  allocPcb := allocPcb
  freePcb := freePcb
  emptyProcQ := emptyProcQ .readyQueue
  insertProcQ := insertProcQ .readyQueue
  removeProcQ := removeProcQ .readyQueue
  outProcQ := outProcQ .readyQueue
  listAddReady p s := some (setLinks s (listAdd (.pList p) .readyQueue s.lists.links))
  emptyChild p s := some (emptyChild p s)
  insertChild := insertChild
  removeChild := removeChild
  outChild := outChild
  insertBlocked := insertBlocked
  removeBlocked := removeBlocked
  outBlocked := outBlocked
  children p := members (.pChild p) Link.ofPSib
  ready := members .readyQueue Link.ofPList
  blocked := blocked

end PandOSsh.Pointer
