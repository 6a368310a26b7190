import PandOSsh.Library.Runs
import PandOSsh.Nucleus.Exceptions

/-!
# Kernel entries by what they ask for

`decode` reads from a saved exception state which handler or service runs, and
with which exception state; `perform` runs it. A run of the Nucleus starts with
`main` and takes any exception that can happen: everything while a process is
on the CPU, and in `WAIT` the interrupts that `dispatch` leaves enabled.
-/

namespace PandOSsh.Nucleus
open Library Kernel

inductive Action where
  | plt
  | it
  | device (intLineNo : ℕ)
  | unknown
  | createProcess (a1 a2 a3 : Word)
  | termProcess (a1 : Word)
  | passeren (a1 : Word)
  | verhogen (a1 : Word)
  | doio (a1 a2 : Word)
  | getTime
  | clockWait
  | getSupportPtr
  | getProcessId (a1 : Word)
  | yield
  | passUp (exceptionType : Fin 2)
deriving DecidableEq

/-- The handlers that need no current process. -/
def Action.isDevice : Action → Bool
  | .it | .device _ => true
  | _ => false

/-- `dispatch` masks the local timer before `WAIT`. -/
def admits : Cpu → Action → Bool
  | .run _, a | .context _, a => a ≠ .unknown
  | .wait, a => a.isDevice
  | .halt, _ | .panic, _ => false

/-- The interrupt of an exception code. -/
def interrupt (code : Word) : Action :=
  if code = ilCpuTimer then .plt
  else if code = ilTimer then .it
  else if ilDisk ≤ code ∧ code ≤ ilTerminal then .device (code.toNat - 14)
  else .unknown

/-- The service that a0 names. -/
def service (s : ProcessorState) : Action :=
  if s.regA0 = createProcess then .createProcess s.regA1 s.regA2 s.regA3
  else if s.regA0 = termProcess then .termProcess s.regA1
  else if s.regA0 = passeren then .passeren s.regA1
  else if s.regA0 = verhogen then .verhogen s.regA1
  else if s.regA0 = doio then .doio s.regA1 s.regA2
  else if s.regA0 = getTime then .getTime
  else if s.regA0 = clockWait then .clockWait
  else if s.regA0 = getSupportPtr then .getSupportPtr
  else if s.regA0 = getProcessId then .getProcessId s.regA1
  else if s.regA0 = yield then .yield
  else .passUp generalExcept

def decode (s : ProcessorState) : Action × ProcessorState :=
  let code := s.cause &&& causeExcCodeMask
  if causeIsInt s.cause then (interrupt code, s)
  else if 24 ≤ code ∧ code ≤ 28 then (.passUp pgFaultExcept, s)
  else if code = 8 ∨ code = 11 then
    if s.regA0.toInt < 0 ∧ mstatusMppMask &&& s.status = mstatusMppU then
      (.passUp generalExcept,
        { s with cause := (s.cause &&& clearExecCode) ||| (privInstr <<< causeShift) })
    else
      (service s, if -10 ≤ s.regA0.toInt ∧ s.regA0.toInt ≤ -1 then
        { s with pcEpc := s.pcEpc + wordLen } else s)
  else (.passUp generalExcept, s)

/-- The action of a kernel entry. -/
def action (e : Entry) : Action := (decode e.exc).1

theorem interrupt_device {code : Word} {n : ℕ} (h : interrupt code = .device n) :
    3 ≤ n ∧ n ≤ 7 := by
  simp only [interrupt] at h
  split at h
  · cases h
  · split at h
    · cases h
    · split at h
      · next hr =>
        have h17 : 17 ≤ code.toNat := BitVec.le_def.mp hr.1
        have h21 : code.toNat ≤ 21 := BitVec.le_def.mp hr.2
        simp only [Action.device.injEq] at h
        omega
      · cases h

/-- Interrupts come from the lines 3 to 7. -/
theorem action_device {e : Entry} {n : ℕ} (h : action e = .device n) : 3 ≤ n ∧ n ≤ 7 := by
  have hservice : service e.exc ≠ .device n := by
    unfold service
    split_ifs <;> exact nofun
  simp only [action, decode] at h
  split at h
  · exact interrupt_device h
  · split at h
    · cases h
    · split at h
      · split at h
        · cases h
        · exact absurd h hservice
      · cases h

section Perform
variable {Q : Type} [QueueApi Q]

section Handlers
variable [Layout]

def perform : Action → Kernel Q → Option (Kernel Q)
  | .plt, k => pltInterruptHandler k
  | .it, k => itInterruptHandler k
  | .device intLineNo, k => deviceInterruptHandler intLineNo k
  | .unknown, _ => none
  | .createProcess a1 a2 a3, k => (nsys1 a1 a2 a3 k).map fun r => (r.1.setExcA0 r.2).ldst
  | .termProcess a1, k => nsys2 a1 k
  | .passeren a1, k => nsys3 a1 k
  | .verhogen a1, k => (nsys4 a1 k).map ldst
  | .doio a1 a2, k => nsys5 a1 a2 k
  | .getTime, k => (nsys6 k).map ldst
  | .clockWait, k => nsys7 k
  | .getSupportPtr, k => (nsys8 k).map ldst
  | .getProcessId a1, k => (nsys9 a1 k).map ldst
  | .yield, k => nsys10 k
  | .passUp exceptionType, k => passUpOrDie exceptionType k

theorem perform_ite (c : Prop) [Decidable c] (a b : Action) (k : Kernel Q) :
    perform (if c then a else b) k = if c then perform a k else perform b k := by
  split <;> rfl

theorem interruptHandler_eq (k : Kernel Q) :
    interruptHandler k = perform (interrupt (k.exc.cause &&& causeExcCodeMask)) k := by
  simp only [interrupt, perform_ite]
  rfl

theorem syscallHandler_eq (k : Kernel Q) : syscallHandler k =
    if k.exc.regA0.toInt < 0 ∧ mstatusMppMask &&& k.exc.status = mstatusMppU then
      excTrapHandler { k with exc := { k.exc with
        cause := (k.exc.cause &&& clearExecCode) ||| (privInstr <<< causeShift) } }
    else perform (service k.exc) (if -10 ≤ k.exc.regA0.toInt ∧ k.exc.regA0.toInt ≤ -1 then
      { k with exc := { k.exc with pcEpc := k.exc.pcEpc + wordLen } } else k) := by
  simp only [service, perform_ite]
  rfl

/-- The state in which the handler of an entry starts its work. -/
def prepared (e : Entry) (k : Kernel Q) : Kernel Q :=
  enter { e with exc := (decode e.exc).2 } k

theorem kernelEntry_eq (e : Entry) (k : Kernel Q) :
    kernelEntry e k = perform (action e) (prepared e k) := by
  have hexc : (enter e k).exc = e.exc := rfl
  rw [kernelEntry, exceptionHandler, action, prepared, decode]
  simp only [interruptHandler_eq, syscallHandler_eq, hexc]
  by_cases hint : causeIsInt e.exc.cause = true
  · simp only [if_pos hint]
  · by_cases htlb : 24 ≤ e.exc.cause &&& causeExcCodeMask ∧ e.exc.cause &&& causeExcCodeMask ≤ 28
    · simp only [if_neg hint, if_pos htlb]
      rfl
    · by_cases hsys : e.exc.cause &&& causeExcCodeMask = 8 ∨ e.exc.cause &&& causeExcCodeMask = 11
      · simp only [if_neg hint, if_neg htlb, if_pos hsys]
        split
        · rfl
        · congr 1
          split <;> rfl
      · simp only [if_neg hint, if_neg htlb, if_neg hsys]
        rfl

end Handlers

section Runs
variable [Layout]

/-- The exceptions that can happen in a state. -/
def Possible (k : Kernel Q) (e : Entry) : Prop := admits k.cpu (action e) = true

instance (k : Kernel Q) (e : Entry) : Decidable (Possible k e) :=
  inferInstanceAs (Decidable (_ = true))

/-- The runs of the Nucleus from `main`. -/
def nucleus (Q : Type) [QueueApi Q] : System (Kernel Q) Entry where
  init k := ∃ b q, main b q = some k
  step k e k' := Possible k e ∧ kernelEntry e k = some k'

end Runs

section Conditions

/-- The process that an action passes to `terminateProcess`. -/
def victim (a : Action) (k : Kernel Q) : Option Pcb :=
  match a with
  | .termProcess a1 => if a1 = 0 then k.currProc else (findPcbByPid a1 k).join
  | .passUp _ => k.currProc.filter fun p => (k.pcb p).pSupportStruct = null
  | _ => none

/-- `c` is in the child list of `p`. -/
def IsChild (k : Kernel Q) (p c : Pcb) : Prop :=
  ∃ cs, QueueApi.children p k.store = some cs ∧ c ∈ cs

/-- `q` is in the subtree of `p`. -/
def InSubtree (k : Kernel Q) : Pcb → Pcb → Prop := Relation.ReflTransGen (IsChild k)

def IsReady (k : Kernel Q) (q : Pcb) : Prop :=
  ∃ ps, QueueApi.ready k.store = some ps ∧ q ∈ ps

/-- `q` is in the queue of some active semaphore. -/
def IsBlocked (k : Kernel Q) (q : Pcb) : Prop :=
  ∃ ps, QueueApi.blocked k.store = some ps ∧ q ∈ ps

/-- `p_semAdd` is NULL for every ready process that the entry kills, and is not
NULL for every blocked one. -/
def KillsByPlace (k : Kernel Q) (e : Entry) : Prop :=
  ∀ p, victim (action e) k = some p → ∀ q, InSubtree k p q → k.currProc ≠ some q →
    (IsReady k q → (k.pcb q).pSemAdd = null) ∧ (IsBlocked k q → (k.pcb q).pSemAdd ≠ null)

theorem KillsByPlace.of_victim {k : Kernel Q} {e : Entry} (h : victim (action e) k = none) :
    KillsByPlace k e := fun _ hp => nomatch h.symm.trans hp

/-- No process is taken to be current while the CPU waits. -/
def WaitsAlone (k : Kernel Q) (_ : Entry) : Prop := k.cpu = .wait → k.currProc = none

end Conditions

end Perform
end PandOSsh.Nucleus
