import PandOSsh.Nucleus.Scheduler

/-!
# Interrupts (phase2/src/interrupts.c)
-/

namespace PandOSsh.Nucleus
open Kernel
variable {Q : Type} [QueueApi Q]

/-- Save the current process in its PCB and put it in the ready queue. -/
def preempt (p : Pcb) (k : Kernel Q) : Option (Kernel Q) :=
  let k := k.saveState p
  (QueueApi.insertProcQ p k.store).map fun s => { k with store := s }

/-- The time is charged before `currProc` is tested. -/
def pltInterruptHandler (k : Kernel Q) : Option (Kernel Q) :=
  k.currProc.bind fun p => (preempt p (k.chargeTime p)).bind dispatch

/-- A process taken from a device semaphore becomes ready. -/
def makeReady (p : Pcb) (k : Kernel Q) : Option (Kernel Q) :=
  (QueueApi.insertProcQ p k.store).map fun s =>
    { k with store := s, softBlockCount := k.softBlockCount - 1 }

/-- `while ((unblockedPcb = removeBlocked(pseudoClockSem)))`, with a budget that
exceeds the number of waiters. -/
def wakeAll (semAdd : Word) : ℕ → Kernel Q → Option (Kernel Q)
  | 0, _ => none
  | n + 1, k =>
      (QueueApi.removeBlocked semAdd k.store).bind fun r =>
        let k := { k with store := r.1 }
        match r.2 with
        | none => some k
        | some unblockedPcb => (makeReady unblockedPcb k).bind (wakeAll semAdd n)

/-- The exception state when a process was running, the scheduler otherwise. -/
def resume (k : Kernel Q) : Option (Kernel Q) :=
  match k.currProc with
  | some _ => some k.ldst
  | none => dispatch k

section Device
variable [Layout]

/-- The current process is saved and made ready, but its time is not charged. -/
def itInterruptHandler (k : Kernel Q) : Option (Kernel Q) :=
  (wakeAll (deviceSemaphore nSuppSem) (maxProc + 1) k).bind fun k =>
    let k := k.setMem (deviceSemaphore nSuppSem) 0
    (match k.currProc with
      | none => some k
      | some p => preempt p k).bind dispatch

/-- The lowest device whose bit is set in the interrupting devices bitmap. -/
def devNo (bitmap : Word) : Option ℕ := (List.range 8).find? fun i => bitmap.getLsbD i

/-- `START_DEVREG + (IntLineNo - 3) * 0x80 + DevNo * 0x10` -/
def devAddr (intLineNo dev : ℕ) : Word :=
  startDevReg + BitVec.ofNat 32 ((intLineNo - 3) * 0x80 + dev * 0x10)

def bitmapAddr (intLineNo : ℕ) : Word := 0x10000040 + BitVec.ofNat 32 ((intLineNo - 3) * 4)

/-- `status & 0xFF` -/
def statusCode (status : Word) : Word := status &&& 0xFF

/-- V on a device semaphore: the first waiter gets the status in a0. -/
def signal (semaphoreIdx : ℕ) (status : Word) (k : Kernel Q) : Option (Kernel Q) :=
  let deviceSem := deviceSemaphore semaphoreIdx
  (QueueApi.removeBlocked deviceSem k.store).bind fun r =>
    let k := { k with store := r.1 }
    match r.2 with
    | some unblockedPcb =>
        makeReady unblockedPcb (k.setPcb unblockedPcb
          { k.pcb unblockedPcb with pS := (k.pcb unblockedPcb).pS.setA0 status })
    | none => some (k.setMem deviceSem (k.mem deviceSem + 1))

def deviceInterruptHandler (intLineNo : ℕ) (k : Kernel Q) : Option (Kernel Q) :=
  match devNo (k.dev (bitmapAddr intLineNo)) with
  | none => resume k
  | some dev =>
      let devAddr := devAddr intLineNo dev
      let semaphoreIdx := (intLineNo - 3) * 8 + dev
      if intLineNo = 7 then
        let receiveStatus := k.dev devAddr
        let transmissionStatus := k.dev (devAddr + 8)
        if statusCode transmissionStatus = okCharTrans then
          (signal (semaphoreIdx + 8) transmissionStatus (k.setDev (devAddr + 0xC) ack)).bind resume
        else if statusCode receiveStatus = charRecv then
          (signal semaphoreIdx receiveStatus (k.setDev (devAddr + 4) ack)).bind resume
        else resume k
      else
        (signal semaphoreIdx (k.dev devAddr) (k.setDev (devAddr + 4) ack)).bind resume

/-- `none` when the cause is none of the handled interrupts: the source then
falls off the end of the exception handler. -/
def interruptHandler (k : Kernel Q) : Option (Kernel Q) :=
  let excCode := k.exc.cause &&& causeExcCodeMask
  if excCode = ilCpuTimer then pltInterruptHandler k
  else if excCode = ilTimer then itInterruptHandler k
  else if ilDisk ≤ excCode ∧ excCode ≤ ilTerminal then
    deviceInterruptHandler (excCode.toNat - 14) k
  else none

end Device
end PandOSsh.Nucleus
