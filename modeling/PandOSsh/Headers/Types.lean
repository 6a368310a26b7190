import Mathlib

/-!
# Constants and records (headers/const.h, headers/types.h)

Registers, addresses and clock values are 32-bit words. A `pcb_t *` is an index
into `pcbFree_table` and a `semd_t *` an index into `semd_table`; the embedded
`list_head` fields are kept apart from the other fields of these records, in
the heap of links of phase 1. NULL is `none` for a `pcb_t *` and the word 0 for
the pointers that stay in user memory.
-/

namespace PandOSsh

abbrev Word := BitVec 32

def maxProc : ℕ := 20

instance : NeZero maxProc := ⟨by decide⟩

/-- `pcb_t *`: the entries of `pcbFree_table`. -/
abbrev Pcb := Fin maxProc

instance : LawfulBEq Pcb := inferInstance

/-- `semd_t *`: the entries of `semd_table`. -/
abbrev Semd := Fin maxProc

def null : Word := 0

/-- `NOPROC` -/
def noProc : Word := -1

def wordLen : Word := 4
def nrSemaphores : ℕ := 49
def nSuppSem : ℕ := 48

def pgFaultExcept : Fin 2 := 0
def generalExcept : Fin 2 := 1

section Services

def createProcess : Word := -1
def termProcess : Word := -2
def passeren : Word := -3
def verhogen : Word := -4
def doio : Word := -5
def getTime : Word := -6
def clockWait : Word := -7
def getSupportPtr : Word := -8
def getProcessId : Word := -9
def yield : Word := -10

end Services

section Causes

def mstatusMppMask : Word := 0x1800
def mstatusMppU : Word := 0
def clearExecCode : Word := 0xFFFFFF00
def privInstr : Word := 10
def causeShift : ℕ := 2

def ilTimer : Word := 3
def ilCpuTimer : Word := 7
def ilDisk : Word := 17
def ilTerminal : Word := 21

/-- `CAUSE_EXCCODE_MASK`: everything below the interrupt bit. -/
def causeExcCodeMask : Word := 0x7FFFFFFF

/-- `CAUSE_IS_INT`: bit 31 of Cause is set. -/
def causeIsInt (cause : Word) : Bool := cause.msb

end Causes

section Devices

def startDevReg : Word := 0x10000054
def devRegSize : ℤ := 16
def devPerInt : ℤ := 8
def ack : Word := 1
def okCharTrans : Word := 5
def charRecv : Word := 5

end Devices

instance instNeZeroGpr : NeZero 32 := ⟨by decide⟩

/-- `state_t`. The register window follows the project's documentation, which
places a0 in `gpr[24]`. -/
structure ProcessorState where
  entryHi : Word
  cause : Word
  status : Word
  pcEpc : Word
  mie : Word
  gpr : Fin 32 → Word

namespace ProcessorState

def regA0 (s : ProcessorState) : Word := s.gpr 24
def regA1 (s : ProcessorState) : Word := s.gpr 25
def regA2 (s : ProcessorState) : Word := s.gpr 26
def regA3 (s : ProcessorState) : Word := s.gpr 27

def setA0 (s : ProcessorState) (w : Word) : ProcessorState :=
  { s with gpr := Function.update s.gpr 24 w }

/-- All fields zero, as `initPcb` leaves `p_s`. -/
def zero : ProcessorState := ⟨0, 0, 0, 0, 0, fun _ => 0⟩

end ProcessorState

/-- `context_t` -/
structure Context where
  stackPtr : Word
  status : Word
  pc : Word
deriving DecidableEq, Repr

/-- The part of `support_t` that the Nucleus reads and writes. -/
structure Support where
  supExceptState : Fin 2 → ProcessorState
  supExceptContext : Fin 2 → Context

/-- `pcb_t` less its `list_head` fields. -/
structure PcbFields where
  pParent : Option Pcb
  pS : ProcessorState
  pTime : Word
  pSemAdd : Word
  pSupportStruct : Word
  pPrio : ℤ
  pPid : Word

/-- Where the linker puts `device_semaphores`. -/
class Layout where
  deviceSemaphores : Word
  pos : 0 < deviceSemaphores.toNat
  fits : deviceSemaphores.toNat + 4 * nrSemaphores ≤ 2 ^ 32

section DeviceSemaphores
variable [Layout]

/-- `&device_semaphores[i]` -/
def deviceSemaphore (i : ℤ) : Word := Layout.deviceSemaphores + 4 * BitVec.ofInt 32 i

/-- Whether an address belongs to the device semaphore array. -/
def isDeviceSemaphore (semAdd : Word) : Bool :=
  (deviceSemaphore 0 ≤ semAdd) && (semAdd ≤ deviceSemaphore (nrSemaphores - 1))

theorem toNat_deviceSemaphore {i : ℤ} (h0 : 0 ≤ i) (h1 : i < nrSemaphores) :
    (deviceSemaphore i).toNat = (Layout.deviceSemaphores).toNat + 4 * i.toNat := by
  have hf := Layout.fits
  have h1' : i < 49 := h1
  have hi : (BitVec.ofInt 32 i).toNat = i.toNat := by
    rw [BitVec.toNat_ofInt, Int.emod_eq_of_lt h0 (by omega)]
  have h4 : (4 : Word).toNat = 4 := by decide
  rw [deviceSemaphore, BitVec.toNat_add, BitVec.toNat_mul, hi, h4]
  unfold nrSemaphores at hf
  omega

theorem isDeviceSemaphore_iff (a : Word) :
    isDeviceSemaphore a = true ↔ (Layout.deviceSemaphores).toNat ≤ a.toNat ∧
      a.toNat ≤ (Layout.deviceSemaphores).toNat + 4 * nSuppSem := by
  have h0 := toNat_deviceSemaphore (i := 0) (by decide) (by decide)
  have h1 := toNat_deviceSemaphore (i := (nrSemaphores : ℤ) - 1) (by decide) (by decide)
  have hc : ((nrSemaphores : ℤ) - 1).toNat = nSuppSem := by decide
  rw [hc] at h1
  rw [isDeviceSemaphore, Bool.and_eq_true, decide_eq_true_eq, decide_eq_true_eq,
    BitVec.le_def, BitVec.le_def, h0, h1]
  simp

theorem isDeviceSemaphore_deviceSemaphore {i : ℤ} (h0 : 0 ≤ i) (h1 : i < nrSemaphores) :
    isDeviceSemaphore (deviceSemaphore i) = true := by
  rw [isDeviceSemaphore_iff, toNat_deviceSemaphore h0 h1]
  have h1' : i < 49 := h1
  unfold nSuppSem
  omega

theorem deviceSemaphore_injective {i j : ℤ} (hi : 0 ≤ i) (hi' : i < nrSemaphores)
    (hj : 0 ≤ j) (hj' : j < nrSemaphores) (h : deviceSemaphore i = deviceSemaphore j) :
    i = j := by
  have ht := congrArg BitVec.toNat h
  rw [toNat_deviceSemaphore hi hi', toNat_deviceSemaphore hj hj'] at ht
  omega

theorem isDeviceSemaphore_null : isDeviceSemaphore null = false := by
  rw [Bool.eq_false_iff]
  intro h
  have hp := Layout.pos
  have hn := ((isDeviceSemaphore_iff null).mp h).1
  have h0 : null.toNat = 0 := by decide
  omega

end DeviceSemaphores
end PandOSsh
