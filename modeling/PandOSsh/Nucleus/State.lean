import PandOSsh.Phase1.Interface

/-!
# The state of the Nucleus (phase2/src/initial.c)

The global variables of phase 2, the parts of memory that the Nucleus reads and
writes, and what the CPU does once the kernel entry is over. Memory is typed:
integers at semaphore addresses, device registers, `state_t` and `support_t`
records each have their own view. `now` is the clock, constant within one
kernel entry, and `exc` the exception state that the BIOS saved.
-/

namespace PandOSsh

/-- How a kernel entry ends. -/
inductive Cpu where
  | run (s : ProcessorState)
  | context (c : Context)
  | wait
  | halt
  | panic

/-- Whether a process runs next, itself or its exception handler. -/
def Cpu.isRunning : Cpu → Bool
  | .run _ | .context _ => true
  | .wait | .halt | .panic => false

structure KernelData where
  processCount : ℤ
  softBlockCount : ℤ
  currProc : Option Pcb
  todStart : Word
  now : Word
  mem : Word → Word
  dev : Word → Word
  states : Word → ProcessorState
  support : Word → Support
  exc : ProcessorState
  cpu : Cpu

structure Kernel (Q : Type) extends KernelData where
  store : Store Q

namespace Kernel
variable {Q : Type}

def pcb (k : Kernel Q) (p : Pcb) : PcbFields := k.store.pcb p

def prio (k : Kernel Q) (p : Pcb) : ℤ := (k.pcb p).pPrio

def setPcb (p : Pcb) (f : PcbFields) (k : Kernel Q) : Kernel Q :=
  { k with store := k.store.setPcb p f }

def setMem (a w : Word) (k : Kernel Q) : Kernel Q := { k with mem := Function.update k.mem a w }

def setDev (a w : Word) (k : Kernel Q) : Kernel Q := { k with dev := Function.update k.dev a w }

/-- `LDST(excState)` -/
def ldst (k : Kernel Q) : Kernel Q := { k with cpu := .run k.exc }

/-- Write a0 of the saved exception state. -/
def setExcA0 (w : Word) (k : Kernel Q) : Kernel Q := { k with exc := k.exc.setA0 w }

/-- `copyState(&p->p_s, excState)` -/
def saveState (p : Pcb) (k : Kernel Q) : Kernel Q := k.setPcb p { k.pcb p with pS := k.exc }

/-- `p->p_time += currentTime - tod_start` -/
def chargeTime (p : Pcb) (k : Kernel Q) : Kernel Q :=
  k.setPcb p { k.pcb p with pTime := (k.pcb p).pTime + (k.now - k.todStart) }

section Fields
variable (k : Kernel Q) (p q : Pcb) (f : PcbFields)

@[simp] theorem setPcb_pcb : (k.setPcb p f).pcb q = if q = p then f else k.pcb q :=
  k.store.setPcb_pcb p q f

@[simp] theorem setPcb_lists : (k.setPcb p f).store.lists = k.store.lists := rfl
@[simp] theorem setPcb_data : (k.setPcb p f).toKernelData = k.toKernelData := rfl
@[simp] theorem setPcb_nextPid : (k.setPcb p f).store.nextPid = k.store.nextPid := rfl

theorem setPcb_eq_self {k : Kernel Q} {p : Pcb} {f : PcbFields} (h : f = k.pcb p) :
    k.setPcb p f = k := by
  rw [setPcb, Store.setPcb_eq_self _ h]

theorem saveState_chargeTime_pcb : ((k.saveState p).chargeTime p).pcb q =
    if q = p then { k.pcb p with
      pS := k.exc, pTime := (k.pcb p).pTime + (k.now - k.todStart) } else k.pcb q := by
  by_cases h : q = p <;> simp [saveState, chargeTime, h]

end Fields
end Kernel
end PandOSsh
