import PandOSsh.Headers.ListX
import PandOSsh.Phase1.Interface

/-!
# Process control blocks (phase1/pcb.c)

The functions of `pcb.c` on the embedded pointers. One `p_list` field links a
PCB into the free list, the ready queue or the queue of a semaphore.
-/

namespace PandOSsh
open Library

/-- The address of a `struct list_head`. -/
inductive Link where
  | pcbFreeH
  | readyQueue
  | semdFreeH
  | semdH
  | pList (p : Pcb)
  | pChild (p : Pcb)
  | pSib (p : Pcb)
  | sProcq (d : Semd)
  | sLink (d : Semd)
deriving DecidableEq

/-- The `list_head` fields of all static data, and the `s_key` fields. -/
structure Pointers where
  links : Links Link
  sKey : Semd → Word

namespace Link

/-- `container_of(link, pcb_t, p_list)` -/
def ofPList : Link → Option Pcb
  | pList p => some p
  | _ => none

/-- `container_of(link, pcb_t, p_sib)` -/
def ofPSib : Link → Option Pcb
  | pSib p => some p
  | _ => none

/-- `container_of(link, semd_t, s_link)` -/
def ofSLink : Link → Option Semd
  | sLink d => some d
  | _ => none

/-- More positions than there are nodes: a loop that has not left after this
many steps never will. -/
def loopBudget : ℕ := 5 * maxProc + 5

end Link

namespace Pointer
open ListX

def setLinks (s : Store Pointers) (h : Links Link) : Store Pointers :=
  { s with lists := { s.lists with links := h } }

def initPcbs (s : Store Pointers) : Store Pointers :=
  let h := initListHead .pcbFreeH s.lists.links
  setLinks s ((List.finRange maxProc).foldl (fun h i => listAdd (.pList i) .pcbFreeH h) h)

def freePcb (p : Pcb) (s : Store Pointers) : Option (Store Pointers) :=
  some (setLinks s (listAdd (.pList p) .pcbFreeH s.lists.links))

def initPcb (p : Pcb) (s : Store Pointers) : Store Pointers :=
  let h := initListHead (.pList p) s.lists.links
  let h := initListHead (.pChild p) h
  let h := initListHead (.pSib p) h
  let s := (setLinks s h).setPcb p (initialFields s.nextPid)
  { s with nextPid := s.nextPid + 1 }

def allocPcb (s : Store Pointers) : Option (Store Pointers × Option Pcb) :=
  match listNext .pcbFreeH s.lists.links with
  | none => some (s, none)
  | some list =>
      let s := setLinks s (listDel list s.lists.links)
      list.ofPList.map fun p => (initPcb p s, some p)

def mkEmptyProcQ (head : Link) (s : Store Pointers) : Store Pointers :=
  setLinks s (initListHead head s.lists.links)

def emptyProcQ (head : Link) (s : Store Pointers) : Bool := listEmpty head s.lists.links

def insertProcQ (head : Link) (p : Pcb) (s : Store Pointers) : Option (Store Pointers) :=
  let pPrio := (s.pcb p).pPrio
  (listForEach Link.loopBudget head
    (fun curr => curr.ofPList.map fun c => decide ((s.pcb c).pPrio < pPrio))
    s.lists.links).map fun curr =>
      setLinks s (listAdd (.pList p) (s.lists.links.prev curr) s.lists.links)

/-- The first PCB of a queue, if there is one. -/
def headProcQ (head : Link) (s : Store Pointers) : Option (Option Pcb) :=
  match listNext head s.lists.links with
  | none => some none
  | some list => list.ofPList.map some

def removeProcQ (head : Link) (s : Store Pointers) : Option (Store Pointers × Option Pcb) :=
  match listNext head s.lists.links with
  | none => some (s, none)
  | some list => list.ofPList.map fun retVal =>
      (setLinks s (listDel (s.lists.links.next head) s.lists.links), some retVal)

def outProcQ (head : Link) (p : Pcb) (s : Store Pointers) :
    Option (Store Pointers × Option Pcb) :=
  (listForEach Link.loopBudget head
    (fun curr => curr.ofPList.map fun c => decide (p = c)) s.lists.links).map fun curr =>
      if curr = head then (s, none) else (setLinks s (listDel curr s.lists.links), some p)

def emptyChild (p : Pcb) (s : Store Pointers) : Bool := listEmpty (.pChild p) s.lists.links

def insertChild (prnt : Option Pcb) (p : Pcb) (s : Store Pointers) :
    Option (Store Pointers) :=
  match prnt with
  | none => some s
  | some q =>
      let s := s.setPcb p { s.pcb p with pParent := some q }
      some (setLinks s (listAdd (.pSib p) (.pChild q) s.lists.links))

def removeChild (p : Pcb) (s : Store Pointers) : Option (Store Pointers × Option Pcb) :=
  match listNext (.pChild p) s.lists.links with
  | none => some (s, none)
  | some childList =>
      let s := setLinks s (listDel childList s.lists.links)
      childList.ofPSib.map fun child =>
        (s.setPcb child { s.pcb child with pParent := none }, some child)

def outChild (p : Pcb) (s : Store Pointers) : Option (Store Pointers × Option Pcb) :=
  match (s.pcb p).pParent with
  | none => some (s, none)
  | some _ =>
      let s := setLinks s (listDel (.pSib p) s.lists.links)
      some (s.setPcb p { s.pcb p with pParent := none }, some p)

/-- The members of a list, through the `container_of` of its kind. -/
def members {β : Type} (head : Link) (of : Link → Option β) (s : Store Pointers) :
    Option (List β) :=
  (s.lists.links.collect head Link.loopBudget (s.lists.links.next head)).bind
    (·.mapM of)

end Pointer

/-- All PCBs allocated and on no queue, every link on its own. -/
def looseStore : Store Pointers where
  pcb _ := initialFields 0
  nextPid := 0
  lists := ⟨⟨id, id⟩, fun _ => null⟩

end PandOSsh
