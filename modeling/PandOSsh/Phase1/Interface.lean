import PandOSsh.Headers.Types

/-!
# The interface of phase 1 (phase1/headers/pcb.h, phase1/headers/asl.h)

Phase 2 is written against the functions that `pcb.h` and `asl.h` export, as in
the source. The class lists those that it calls on the free list, on the ready
queue, on the process tree and on the active semaphore list. `Q` is whatever
represents the embedded lists: the pointers of the source, or plain lists.

A result `none` is a use without a defined outcome: an endless traversal or a
`container_of` on a node of another kind for the pointers, a broken contract
for the lists. `some (s, none)` is a call that returns NULL.
-/

namespace PandOSsh

/-- The PCB fields other than the embedded lists, and `next_pid`. -/
structure PcbData where
  pcb : Pcb → PcbFields
  nextPid : Word

def PcbData.setPcb (d : PcbData) (p : Pcb) (f : PcbFields) : PcbData :=
  { d with pcb := Function.update d.pcb p f }

@[simp] theorem PcbData.setPcb_pcb (d : PcbData) (p q : Pcb) (f : PcbFields) :
    (d.setPcb p f).pcb q = if q = p then f else d.pcb q := by
  simp [setPcb, Function.update_apply]

/-- The static data of phase 1. -/
structure Store (Q : Type) extends PcbData where
  lists : Q

namespace Store
variable {Q : Type}

def setPcb (s : Store Q) (p : Pcb) (f : PcbFields) : Store Q :=
  { s with toPcbData := s.toPcbData.setPcb p f }

@[simp] theorem setPcb_lists (s : Store Q) (p : Pcb) (f : PcbFields) :
    (s.setPcb p f).lists = s.lists := rfl
@[simp] theorem setPcb_nextPid (s : Store Q) (p : Pcb) (f : PcbFields) :
    (s.setPcb p f).nextPid = s.nextPid := rfl
@[simp] theorem setPcb_toPcbData (s : Store Q) (p : Pcb) (f : PcbFields) :
    (s.setPcb p f).toPcbData = s.toPcbData.setPcb p f := rfl
theorem setPcb_pcb (s : Store Q) (p q : Pcb) (f : PcbFields) :
    (s.setPcb p f).pcb q = if q = p then f else s.pcb q :=
  s.toPcbData.setPcb_pcb p q f

theorem setPcb_eq_self (s : Store Q) {p : Pcb} {f : PcbFields} (h : f = s.pcb p) :
    s.setPcb p f = s := by
  simp [setPcb, PcbData.setPcb, h]

end Store

/-- The fields that `initPcb` resets, with the new `p_pid`. -/
def initialFields (pid : Word) : PcbFields where
  pParent := none
  pS := .zero
  pTime := 0
  pSemAdd := null
  pSupportStruct := null
  pPrio := 0
  pPid := pid

/-- What a walk over the free list, the ready queue and the active semaphores
finds; each active key comes with its queue. -/
structure Queues where
  free : List Pcb
  ready : List Pcb
  asl : List (Word × List Pcb)

namespace Queues

/-- The PCBs queued on `key`. -/
def waiters (qs : Queues) (key : Word) : List Pcb :=
  ((qs.asl.find? fun x => x.1 = key).map Prod.snd).getD []

def blocked (qs : Queues) : List Pcb := qs.asl.flatMap Prod.snd

end Queues

class QueueApi (Q : Type) where
  initPcbs : Store Q → Store Q
  initAsl : Store Q → Store Q
  /-- `mkEmptyProcQ(&readyQueue)` -/
  mkEmptyProcQ : Store Q → Store Q
  allocPcb : Store Q → Option (Store Q × Option Pcb)
  freePcb : Pcb → Store Q → Option (Store Q)
  /-- `emptyProcQ(&readyQueue)` -/
  emptyProcQ : Store Q → Bool
  /-- `insertProcQ(&readyQueue, p)` -/
  insertProcQ : Pcb → Store Q → Option (Store Q)
  /-- `removeProcQ(&readyQueue)` -/
  removeProcQ : Store Q → Option (Store Q × Option Pcb)
  /-- `outProcQ(&readyQueue, p)` -/
  outProcQ : Pcb → Store Q → Option (Store Q × Option Pcb)
  /-- `list_add(&p->p_list, &readyQueue)` -/
  listAddReady : Pcb → Store Q → Option (Store Q)
  emptyChild : Pcb → Store Q → Option Bool
  insertChild : Option Pcb → Pcb → Store Q → Option (Store Q)
  removeChild : Pcb → Store Q → Option (Store Q × Option Pcb)
  outChild : Pcb → Store Q → Option (Store Q × Option Pcb)
  insertBlocked : Word → Pcb → Store Q → Option (Store Q × Bool)
  removeBlocked : Word → Store Q → Option (Store Q × Option Pcb)
  outBlocked : Pcb → Store Q → Option (Store Q × Option Pcb)
  /-- The PCBs visited by `list_for_each(pos, &p->p_child)`. -/
  children : Pcb → Store Q → Option (List Pcb)
  /-- The PCBs visited by `list_for_each(pos, &readyQueue)`. -/
  ready : Store Q → Option (List Pcb)
  /-- The PCBs visited by the two nested loops over the active semaphores. -/
  blocked : Store Q → Option (List Pcb)

/-- The initialisation of phase 1, in the order of `main`. -/
def initLists {Q : Type} [QueueApi Q] (s : Store Q) : Store Q :=
  QueueApi.initAsl (QueueApi.initPcbs (QueueApi.mkEmptyProcQ s))

end PandOSsh
