import PandOSsh.Nucleus.Scheduler

/-!
# The services of the Nucleus (phase2/src/syscall.c)

The recursions over the process tree carry a budget that no tree of `MAXPROC`
processes exhausts. `nsys3`, `nsys5` and `nsys7` end in `dispatch`; the others
leave the return to the caller to `syscallHandler`.
-/

namespace PandOSsh.Nucleus
open Kernel
variable {Q : Type} [QueueApi Q]

/-- The depth that no walk down the process tree exceeds. -/
def treeBudget : ℕ := maxProc + 1

/-- `while (!emptyChild(p)) terminateProcess(removeChild(p));` -/
def killChildren (terminate : Pcb → Kernel Q → Option (Kernel Q)) :
    ℕ → Pcb → Kernel Q → Option (Kernel Q)
  | 0, _, _ => none
  | n + 1, p, k =>
      (QueueApi.emptyChild p k.store).bind fun empty =>
        if empty then some k else
          (QueueApi.removeChild p k.store).bind fun r =>
            (match r.2 with
              | none => some { k with store := r.1 }
              | some c => terminate c { k with store := r.1 }).bind (killChildren terminate n p)

section Terminate
variable [Layout]

/-- Take `p` out of the place that `p_semAdd` suggests. -/
def unlink (p : Pcb) (k : Kernel Q) : Option (Kernel Q) :=
  if some p = k.currProc then some { k with currProc := none }
  else if (k.pcb p).pSemAdd ≠ null then
    (QueueApi.outBlocked p k.store).map fun r =>
      let k := { k with store := r.1 }
      if isDeviceSemaphore (k.pcb p).pSemAdd then { k with softBlockCount := k.softBlockCount - 1 }
      else k
  else (QueueApi.outProcQ p k.store).map fun r => { k with store := r.1 }

/-- The end of `terminateProcess`: leave the tree, the count and the PCB. -/
def release (p : Pcb) (k : Kernel Q) : Option (Kernel Q) :=
  (QueueApi.outChild p k.store).bind fun r =>
    let k := { k with store := r.1, processCount := k.processCount - 1 }
    (QueueApi.freePcb p k.store).map fun s => { k with store := s }

def terminateProcess : ℕ → Pcb → Kernel Q → Option (Kernel Q)
  | 0, _, _ => none
  | n + 1, p, k =>
      ((killChildren (terminateProcess n) treeBudget p k).bind (unlink p)).bind (release p)

end Terminate

section Search

def searchInTree (pid : Word) : ℕ → Pcb → Store Q → Option (Option Pcb)
  | 0, _, _ => none
  | n + 1, root, s =>
      if (s.pcb root).pPid = pid then some (some root)
      else (QueueApi.children root s).bind fun cs =>
        cs.findSomeM? fun child => searchInTree pid n child s

def searchBlockedByPid (pid : Word) (s : Store Q) : Option (Option Pcb) :=
  (QueueApi.blocked s).map fun ps => ps.find? fun p => (s.pcb p).pPid = pid

def findPcbByPid (pid : Word) (k : Kernel Q) : Option (Option Pcb) :=
  (k.currProc.toList.findSomeM? fun p => searchInTree pid treeBudget p k.store).bind fun
    | some found => some (some found)
    | none =>
        ((QueueApi.ready k.store).bind fun ps =>
          ps.findSomeM? fun p => searchInTree pid treeBudget p k.store).bind fun
            | some found => some (some found)
            | none => searchBlockedByPid pid k.store

end Search

/-- NSYS1: the new state and `p_pid`, or NOPROC. -/
def nsys1 (a1 a2 a3 : Word) (k : Kernel Q) : Option (Kernel Q × Word) :=
  (QueueApi.allocPcb k.store).bind fun r =>
    let k := { k with store := r.1 }
    match r.2 with
    | none => some (k, noProc)
    | some newPcb =>
        let k := k.setPcb newPcb
          { k.pcb newPcb with pS := k.states a1, pPrio := a2.toInt, pSupportStruct := a3 }
        (QueueApi.insertProcQ newPcb k.store).bind fun s =>
          (QueueApi.insertChild k.currProc newPcb s).map fun s =>
            let k := { k with store := s, processCount := k.processCount + 1 }
            let k := k.setPcb newPcb { k.pcb newPcb with pTime := 0, pSemAdd := null }
            (k, (k.pcb newPcb).pPid)

section Blocking

/-- What `nsys3`, `nsys5` and `nsys7` do to the current process: save its
state, charge its time, queue it on `semAdd`, leave the CPU. The result of
`insertBlocked` is ignored. -/
def blockCurrent (semAdd : Word) (k : Kernel Q) : Option (Kernel Q) :=
  k.currProc.bind fun p =>
    let k := (k.saveState p).chargeTime p
    (QueueApi.insertBlocked semAdd p k.store).map fun r =>
      { k with store := r.1, currProc := none }

def nsys3 (a1 : Word) (k : Kernel Q) : Option (Kernel Q) :=
  if 0 < (k.mem a1).toInt then some (k.setMem a1 (k.mem a1 - 1)).ldst
  else (blockCurrent a1 k).bind dispatch

/-- `removeBlocked`, and the PCB it returns goes to the ready queue. -/
def nsys4 (a1 : Word) (k : Kernel Q) : Option (Kernel Q) :=
  (QueueApi.removeBlocked a1 k.store).bind fun r =>
    let k := { k with store := r.1 }
    match r.2 with
    | some unblocked =>
        (QueueApi.insertProcQ unblocked k.store).map fun s => { k with store := s }
    | none => some (k.setMem a1 (k.mem a1 + 1))

/-- The semaphore index that NSYS5 computes from a command register address. -/
def semIndex (a1 : Word) : ℤ :=
  let offset := (a1 - startDevReg).toInt
  let regIndex := offset.tdiv devRegSize
  let fieldOffset := offset.tmod devRegSize
  let lineIndex := regIndex.tdiv devPerInt
  let devNo := regIndex.tmod devPerInt
  let semIndex := lineIndex * devPerInt + devNo
  if lineIndex = 4 ∧ fieldOffset = 0xC then semIndex + devPerInt else semIndex

variable [Layout]

def nsys5 (a1 a2 : Word) (k : Kernel Q) : Option (Kernel Q) :=
  (blockCurrent (deviceSemaphore (semIndex a1))
    { k with softBlockCount := k.softBlockCount + 1 }).bind fun k =>
      dispatch (k.setDev a1 a2)

def pseudoClockSem : Word := deviceSemaphore nSuppSem

def nsys7 (k : Kernel Q) : Option (Kernel Q) :=
  (blockCurrent pseudoClockSem { k with softBlockCount := k.softBlockCount + 1 }).bind dispatch

end Blocking

section Kill
variable [Layout]

def nsys2 (a1 : Word) (k : Kernel Q) : Option (Kernel Q) :=
  if a1 = 0 then
    (match k.currProc with
      | none => some k
      | some p => terminateProcess treeBudget p k).bind dispatch
  else
    (findPcbByPid a1 k).bind fun
      | none => some (k.setExcA0 noProc).ldst
      | some termPcb => (terminateProcess treeBudget termPcb k).bind dispatch

end Kill

def nsys6 (k : Kernel Q) : Option (Kernel Q) :=
  k.currProc.map fun p => k.setExcA0 ((k.pcb p).pTime + (k.now - k.todStart))

def nsys8 (k : Kernel Q) : Option (Kernel Q) :=
  k.currProc.map fun p => k.setExcA0 (k.pcb p).pSupportStruct

def nsys9 (a1 : Word) (k : Kernel Q) : Option (Kernel Q) :=
  k.currProc.map fun p =>
    if a1 = 0 then k.setExcA0 (k.pcb p).pPid
    else match (k.pcb p).pParent with
      | none => k.setExcA0 0
      | some q => k.setExcA0 (k.pcb q).pPid

/-- NSYS10: the old head of the ready queue goes back in front. -/
def nsys10 (k : Kernel Q) : Option (Kernel Q) :=
  k.currProc.bind fun p =>
    let k := (k.saveState p).chargeTime p
    (QueueApi.removeProcQ k.store).bind fun r =>
      (QueueApi.insertProcQ p r.1).bind fun s =>
        (match r.2 with
          | none => some s
          | some oldHead => QueueApi.listAddReady oldHead s).bind fun s =>
            dispatch { k with store := s, currProc := none }

end PandOSsh.Nucleus
