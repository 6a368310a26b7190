import PandOSsh.Nucleus.Interrupts
import PandOSsh.Nucleus.Syscalls

/-!
# Exceptions and the boot (phase2/src/exceptions.c, phase2/src/initial.c)

`kernelEntry` is one exception: the BIOS has saved the processor state, user
memory and the device registers hold what the processes and the devices left
there. The cells of `device_semaphores` belong to the Nucleus.
-/

namespace PandOSsh.Nucleus
open Kernel
variable {Q : Type} [QueueApi Q]

section Handlers
variable [Layout]

/-- `nsys2(0, ...)` without a support structure, else the handler context. -/
def passUpOrDie (exceptionType : Fin 2) (k : Kernel Q) : Option (Kernel Q) :=
  k.currProc.bind fun p =>
    let sup := (k.pcb p).pSupportStruct
    if sup = null then nsys2 0 k
    else
      let s := k.support sup
      some { k with
        support := Function.update k.support sup { s with
          supExceptState := Function.update s.supExceptState exceptionType k.exc }
        cpu := .context (s.supExceptContext exceptionType) }

def excTlbHandler (k : Kernel Q) : Option (Kernel Q) := passUpOrDie pgFaultExcept k

def excTrapHandler (k : Kernel Q) : Option (Kernel Q) := passUpOrDie generalExcept k

def syscallHandler (k : Kernel Q) : Option (Kernel Q) :=
  let a0 := k.exc.regA0
  let a1 := k.exc.regA1
  let a2 := k.exc.regA2
  let a3 := k.exc.regA3
  if a0.toInt < 0 ∧ mstatusMppMask &&& k.exc.status = mstatusMppU then
    excTrapHandler { k with exc := { k.exc with
      cause := (k.exc.cause &&& clearExecCode) ||| (privInstr <<< causeShift) } }
  else
    let k := if -10 ≤ a0.toInt ∧ a0.toInt ≤ -1 then
        { k with exc := { k.exc with pcEpc := k.exc.pcEpc + wordLen } }
      else k
    if a0 = createProcess then (nsys1 a1 a2 a3 k).map fun r => (r.1.setExcA0 r.2).ldst
    else if a0 = termProcess then nsys2 a1 k
    else if a0 = passeren then nsys3 a1 k
    else if a0 = verhogen then (nsys4 a1 k).map ldst
    else if a0 = doio then nsys5 a1 a2 k
    else if a0 = getTime then (nsys6 k).map ldst
    else if a0 = clockWait then nsys7 k
    else if a0 = getSupportPtr then (nsys8 k).map ldst
    else if a0 = getProcessId then (nsys9 a1 k).map ldst
    else if a0 = yield then nsys10 k
    else excTrapHandler k

def exceptionHandler (k : Kernel Q) : Option (Kernel Q) :=
  let excCode := k.exc.cause
  if causeIsInt excCode then interruptHandler k
  else
    let excCodeMask := excCode &&& causeExcCodeMask
    if 24 ≤ excCodeMask ∧ excCodeMask ≤ 28 then excTlbHandler k
    else if excCodeMask = 8 ∨ excCodeMask = 11 then syscallHandler k
    else excTrapHandler k

/-- What the Nucleus finds at an exception. -/
structure Entry where
  exc : ProcessorState
  now : Word
  mem : Word → Word
  dev : Word → Word
  states : Word → ProcessorState
  support : Word → Support

def enter (e : Entry) (k : Kernel Q) : Kernel Q :=
  { k with
    exc := e.exc
    now := e.now
    mem := fun a => if isDeviceSemaphore a then k.mem a else e.mem a
    dev := e.dev
    states := e.states
    support := e.support }

def kernelEntry (e : Entry) (k : Kernel Q) : Option (Kernel Q) := exceptionHandler (enter e k)

end Handlers

section Boot
variable [Layout]

/-- What the kernel finds when it is loaded. -/
structure BootImage where
  /-- The processor state that `allocFirstPcb` gives to `test`. -/
  firstState : ProcessorState
  now : Word
  mem : Word → Word
  dev : Word → Word
  states : Word → ProcessorState
  support : Word → Support

/-- The static data before `main`, with uninitialised lists `q`. -/
def staticData (b : BootImage) (q : Q) : Kernel Q where
  processCount := 0
  softBlockCount := 0
  currProc := none
  todStart := 0
  now := b.now
  mem := fun a => if isDeviceSemaphore a then 0 else b.mem a
  dev := b.dev
  states := b.states
  support := b.support
  exc := .zero
  cpu := .halt
  store := { pcb := fun _ => initialFields 0, nextPid := 1, lists := q }

/-- `p_child` and `p_sib` are not initialised again: `allocPcb` has just done it. -/
def allocFirstPcb (firstState : ProcessorState) (k : Kernel Q) : Option (Kernel Q × Pcb) :=
  (QueueApi.allocPcb k.store).bind fun r =>
    let k := { k with store := r.1 }
    r.2.map fun pcb =>
      (k.setPcb pcb { k.pcb pcb with
        pS := firstState, pParent := none, pTime := 0, pSemAdd := null,
        pSupportStruct := null }, pcb)

def main (b : BootImage) (q : Q) : Option (Kernel Q) :=
  let k := staticData b q
  (allocFirstPcb b.firstState { k with store := initLists k.store }).bind fun r =>
    (QueueApi.insertProcQ r.2 r.1.store).bind fun s =>
      dispatch { r.1 with store := s, processCount := r.1.processCount + 1 }

end Boot
end PandOSsh.Nucleus
