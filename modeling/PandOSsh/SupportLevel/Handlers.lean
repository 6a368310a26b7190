import PandOSsh.SupportLevel.Vm

/-!
# Handlers of the Support Level (vmSupport.c, syscalls.c, sysSupport.c)

A U-proc executes its program, `writeTerminal` or `readTerminal` on behalf of
it, or the pager that serves a fault of one of these, or `sys2`, or `sys6`. The
control of a U-proc says which, and at which statement; a service of the Nucleus
that a statement requests is handed to the system. Statements that run with
interrupts disabled are one step, and a device command is one step from the
request to the status.
-/

namespace PandOSsh.SupportLevel

/-- The semaphores of initProc.c and vmSupport.c. -/
inductive Sem where
  | swapSemaphore
  | termWriteSemaphore
  | termReadSemaphore
  | masterSemaphore
  | shellSemaphore
deriving DecidableEq, Repr

/-- What a statement asks of the Nucleus, beside the assignments to the semaphores
at the start of `test`. The flag of `create` is false when CREATEPROCESS fails. -/
inductive Service where
  | none
  | initSemaphores
  | passeren (x : Sem)
  | verhogen (x : Sem)
  | create (a : Asid) (ok : Bool)
  | term
deriving DecidableEq, Repr

/-- What the program, the devices and the hardware decide. -/
inductive Input where
  /-- The next statement of the handler. -/
  | go
  | load (va : Word)
  | store (va : Word) (b : Byte)
  /-- No TLB entry matches; TLBWR may replace one. -/
  | refill (va : Word) (replaced : Option Word)
  /-- A TLB exception; the flag tells TLB-Mod from the others. -/
  | fault (va : Word) (mod : Bool)
  /-- A Program Trap. -/
  | trap
  | syscall (a0 a1 a2 : Word)
  /-- The device ends the command. -/
  | status (w : Word)
  /-- The result of CREATEPROCESS. -/
  | created (ok : Bool)
deriving DecidableEq, Repr

/-- The statements of `writeTerminal`. -/
inductive WritePoint where
  | passeren
  | load (i : ℕ)
  | transmit (i : ℕ) (c : Byte)
  | verhogen (result : ℤ)
deriving DecidableEq, Repr

/-- The statements of `readTerminal`. -/
inductive ReadPoint where
  | passeren
  | receive (received : ℕ)
  | store (received : ℕ) (c : Byte)
  | verhogen (result : ℤ)
deriving DecidableEq, Repr

/-- The code that a page fault interrupts and returns to. -/
inductive Code where
  | user
  | writeTerminal (str : Word) (len : ℕ) (pt : WritePoint)
  | readTerminal (buf : Word) (pt : ReadPoint)
deriving DecidableEq, Repr

/-- The statements of `pager`, with the frame i once it is chosen. -/
inductive PagerPoint where
  | cause (mod : Bool)
  | passeren
  | setFlag
  | choose
  | evict (i : Frame)
  | write (i : Frame) (x k : ℤ)
  | read (i : Frame)
  | clearFlagFailed
  | verhogenFailed
  | record (i : Frame)
  | install (i : Frame)
  | clearFlag
  | verhogen
deriving DecidableEq, Repr

/-- The statements of `sys2`, those of `freeSwapFrames` among them. -/
inductive Sys2Point where
  | checkFlag
  | releaseMutex
  | signal
  | passeren
  | sweep
  | verhogen
  | term
deriving DecidableEq, Repr

/-- The statements of `sys6` once its arguments are valid. -/
inductive Sys6Point where
  | init
  | create
  | passeren
deriving DecidableEq, Repr

inductive Control where
  | run (code : Code)
  /-- `sup_exceptState[PGFAULTEXCEPT].entry_hi` and the interrupted code. -/
  | pager (entryHi : Word) (back : Code) (pt : PagerPoint)
  | sys2 (pt : Sys2Point)
  | sys6 (child : Asid) (pt : Sys6Point)
deriving DecidableEq, Repr

/-- `programTrapHandler` -/
def programTrapHandler : Control := .sys2 .checkFlag

namespace Code

/-- The code accesses this virtual address. -/
def touches (va : Word) : Code → Bool
  | user => true
  | writeTerminal str _ (.load i) => va == str + BitVec.ofNat 32 i
  | readTerminal buf (.store received _) =>
      decide ((received : ℤ) < maxStrLeng) && va == buf + BitVec.ofNat 32 received
  | _ => false

/-- The code accesses user memory, or is user code. -/
def accesses : Code → Bool
  | user => true
  | writeTerminal _ _ (.load _) => true
  | readTerminal _ (.store received _) => decide ((received : ℤ) < maxStrLeng)
  | _ => false

end Code

section Arguments

/-- The tests of `sys4`. -/
def sys4 (a1 a2 : Word) : Control :=
  if a1 < kuseg ∨ userStackTop < a1 + a2 then .sys2 .checkFlag
  else if a2.toInt < 0 ∨ maxStrLeng < a2.toInt then .sys2 .checkFlag
  else .run (.writeTerminal a1 a2.toInt.toNat .passeren)

/-- The test of `sys5`. -/
def sys5 (a1 : Word) : Control :=
  if a1 < kuseg ∨ userStackTop ≤ a1 then .sys2 .checkFlag
  else .run (.readTerminal a1 .passeren)

/-- The tests of `sys6`, made by the U-proc with this ASID. -/
def sys6 (supAsid : ℤ) (a1 : Word) : Control :=
  if supAsid ≠ shellAsid then .sys2 .checkFlag
  else if h : a1.toInt ≤ 0 ∨ (uprocMax : ℤ) < a1.toInt ∨ a1.toInt = shellAsid then .sys2 .checkFlag
  else .sys6 ⟨(a1.toInt - 1).toNat, by omega⟩ .init

def posSyscallHandler (supAsid : ℤ) (a0 a1 a2 : Word) : Control :=
  if a0 = 2 then .sys2 .checkFlag
  else if a0 = 4 then sys4 a1 a2
  else if a0 = 5 then sys5 a1
  else if a0 = 6 then sys6 supAsid a1
  else .sys2 .checkFlag

end Arguments

section Steps
variable (a : Asid) (vm : Vm)

/-- A statement that waits for nothing. -/
def Input.onGo {α : Type} (inp : Input) (r : α) : Option α := if inp = .go then some r else none

def Input.status? : Input → Option Word
  | .status w => some w
  | _ => none

def Input.created? : Input → Option Bool
  | .created ok => some ok
  | _ => none

@[simp] theorem Input.onGo_eq_some {α : Type} {inp : Input} {r x : α} :
    inp.onGo r = some x ↔ inp = .go ∧ r = x := by
  unfold Input.onGo
  split
  · next h => simp [h]
  · next h => simp [h]

@[simp] theorem Input.status?_eq_some {inp : Input} {w : Word} :
    inp.status? = some w ↔ inp = .status w := by
  cases inp <;> simp [Input.status?]

@[simp] theorem Input.created?_eq_some {inp : Input} {ok : Bool} :
    inp.created? = some ok ↔ inp = .created ok := by
  cases inp <;> simp [Input.created?]

/-- The U-proc in user mode. -/
def userStep (inp : Input) : Option (Control × Vm × Service) :=
  match inp with
  | .load va => (vm.load a va).map fun _ => (.run .user, vm, .none)
  | .store va b => (vm.store a va b).map fun vm' => (.run .user, vm', .none)
  | .syscall a0 a1 a2 => some (posSyscallHandler a.num a0 a1 a2, vm, .none)
  | _ => none

/-- The result of a terminal helper whose device returned a bad status. -/
def statusError (w : Word) : ℤ := -(w &&& 0xFF).toInt

/-- The head of the loop of `writeTerminal`, with i characters transmitted. -/
def nextChar (len i : ℕ) : WritePoint := if i < len then .load i else .verhogen i

def writeTerminalStep (str : Word) (len : ℕ) (pt : WritePoint) (inp : Input) :
    Option (Control × Vm × Service) :=
  match pt with
  | .passeren => inp.onGo
      (.run (.writeTerminal str len (nextChar len 0)), vm, .passeren .termWriteSemaphore)
  | .load i => (inp.onGo ()).bind fun _ =>
      (vm.load a (str + BitVec.ofNat 32 i)).map fun c =>
        (.run (.writeTerminal str len (.transmit i c)), vm, .none)
  | .transmit i _ => inp.status?.map fun w =>
      (.run (.writeTerminal str len
        (if w &&& 0xFF = okCharTrans then nextChar len (i + 1) else .verhogen (statusError w))),
        vm, .none)
  | .verhogen _ => inp.onGo (.run .user, vm, .verhogen .termWriteSemaphore)

/-- The end of a round of the loop of `readTerminal`, which a newline ends. -/
def afterChar (received : ℕ) (c : Byte) : ReadPoint :=
  if c = 10 then .verhogen received else .receive received

def readTerminalStep (buf : Word) (pt : ReadPoint) (inp : Input) :
    Option (Control × Vm × Service) :=
  match pt with
  | .passeren => inp.onGo
      (.run (.readTerminal buf (.receive 0)), vm, .passeren .termReadSemaphore)
  | .receive received => inp.status?.map fun w =>
      (.run (.readTerminal buf (if w &&& 0xFF = charRecv then
        .store received (w.extractLsb' 8 8) else .verhogen (statusError w))), vm, .none)
  | .store received c => (inp.onGo ()).bind fun _ =>
      if (received : ℤ) < maxStrLeng then
        (vm.store a (buf + BitVec.ofNat 32 received) c).map fun vm' =>
          (.run (.readTerminal buf (afterChar (received + 1) c)), vm', .none)
      else some (.run (.readTerminal buf (afterChar received c)), vm, .none)
  | .verhogen _ => inp.onGo (.run .user, vm, .verhogen .termReadSemaphore)

/-- A statement of the code, less the exceptions that an access can raise. -/
def codeStep (code : Code) (inp : Input) : Option (Control × Vm × Service) :=
  match code with
  | .user => userStep a vm inp
  | .writeTerminal str len pt => writeTerminalStep a vm str len pt inp
  | .readTerminal buf pt => readTerminalStep a vm buf pt inp

/-- The access misses the TLB. -/
def refillStep (code : Code) (va : Word) (replaced : Option Word) :
    Option (Control × Vm × Service) :=
  if code.touches va && (vm.tlb (accessHI a va)).isNone then
    some (.run code, vm.uTLB_RefillHandler a va replaced, .none)
  else none

/-- The access raises a TLB exception, which the Nucleus passes up to the pager. -/
def faultStep (code : Code) (va : Word) (mod : Bool) : Option (Control × Vm × Service) :=
  if code.touches va && (mod || vm.pageFaults a va) then
    some (.pager (accessHI a va) code (.cause mod), vm, .none)
  else none

def trapStep (code : Code) : Option (Control × Vm × Service) :=
  if code.accesses then some (programTrapHandler, vm, .none) else none

def runStep (code : Code) (inp : Input) : Option (Control × Vm × Service) :=
  match inp with
  | .refill va replaced => refillStep a vm code va replaced
  | .fault va mod => faultStep a vm code va mod
  | .trap => trapStep vm code
  | .go | .load _ | .store _ _ | .syscall _ _ _ | .status _ | .created _ => codeStep a vm code inp

def pagerStep (entryHi : Word) (back : Code) (pt : PagerPoint) (inp : Input) :
    Option (Control × Vm × Service) :=
  match pt with
  | .cause mod => inp.onGo
      (if mod then programTrapHandler else .pager entryHi back .passeren, vm, .none)
  | .passeren => inp.onGo (.pager entryHi back .setFlag, vm, .passeren .swapSemaphore)
  | .setFlag => inp.onGo (.pager entryHi back .choose, vm.setFlag a true, .none)
  | .choose => inp.onGo (.pager entryHi back (.evict vm.chooseFrame.1), vm.chooseFrame.2, .none)
  | .evict i => inp.onGo
      (if (vm.swapPool i).swAsid = -1 then (.pager entryHi back (.read i), vm, .none)
      else (.pager entryHi back (.write i (vm.swapPool i).swAsid (vm.swapPool i).swPageNo),
        vm.evict i, .none))
  | .write i x k => inp.status?.map fun w =>
      (.pager entryHi back (.read i),
        (vm.readWriteFlashdrive x k (physicalFrame i) flashWrite w).1, .none)
  | .read i => inp.status?.map fun w =>
      let r := vm.readWriteFlashdrive a.num (missingPage entryHi) (physicalFrame i) flashRead w
      (.pager entryHi back (if r.2 = 1 then .record i else .clearFlagFailed), r.1, .none)
  | .clearFlagFailed => inp.onGo (.pager entryHi back .verhogenFailed, vm.setFlag a false, .none)
  | .verhogenFailed => inp.onGo (programTrapHandler, vm, .verhogen .swapSemaphore)
  | .record i => inp.onGo
      (.pager entryHi back (.install i), vm.recordPage a (missingPage entryHi) i, .none)
  | .install i => inp.onGo
      (.pager entryHi back .clearFlag, vm.install a (missingPage entryHi) i, .none)
  | .clearFlag => inp.onGo (.pager entryHi back .verhogen, vm.setFlag a false, .none)
  | .verhogen => inp.onGo (.run back, vm, .verhogen .swapSemaphore)

def sys2Step (pt : Sys2Point) (inp : Input) : Option (Control × Vm × Service) :=
  match pt with
  | .checkFlag => inp.onGo
      (if vm.holdingSwapMutex a then (.sys2 .releaseMutex, vm.setFlag a false, .none)
      else (.sys2 .signal, vm, .none))
  | .releaseMutex => inp.onGo (.sys2 .signal, vm, .verhogen .swapSemaphore)
  | .signal => inp.onGo
      (.sys2 .passeren, vm,
        .verhogen (if a.num = shellAsid then .masterSemaphore else .shellSemaphore))
  | .passeren => inp.onGo (.sys2 .sweep, vm, .passeren .swapSemaphore)
  | .sweep => inp.onGo (.sys2 .verhogen, vm.freeSwapFrames a.num, .none)
  | .verhogen => inp.onGo (.sys2 .term, vm, .verhogen .swapSemaphore)
  | .term => inp.onGo (.sys2 .term, vm, .term)

/-- `createUProc(asid)` and the rest of `sys6`. -/
def sys6Step (child : Asid) (pt : Sys6Point) (inp : Input) : Option (Control × Vm × Service) :=
  match pt with
  | .init => inp.onGo (.sys6 child .create, vm.initPageTable child, .none)
  | .create => inp.created?.map fun ok =>
      (if ok then .sys6 child .passeren else .sys2 .checkFlag, vm, .create child ok)
  | .passeren => inp.onGo (.run .user, vm, .passeren .shellSemaphore)

def next (c : Control) (inp : Input) : Option (Control × Vm × Service) :=
  match c with
  | .run code => runStep a vm code inp
  | .pager entryHi back pt => pagerStep a vm entryHi back pt inp
  | .sys2 pt => sys2Step a vm pt inp
  | .sys6 child pt => sys6Step vm child pt inp

end Steps
end PandOSsh.SupportLevel
