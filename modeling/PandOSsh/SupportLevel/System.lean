import PandOSsh.Library.Runs
import PandOSsh.Library.Semaphore
import PandOSsh.SupportLevel.Handlers

/-!
# The Phase 3 system (initProc.c)

The Instantiator and the U-procs, with their parents, over the virtual memory
and the five semaphores. Any process that is not blocked may take the next step:
the order is the one in which the Nucleus dispatches them, with a timer
interrupt between any two steps.
-/

namespace PandOSsh.SupportLevel
open Library

instance : Fintype Sem where
  elems := {.swapSemaphore, .termWriteSemaphore, .termReadSemaphore, .masterSemaphore, .shellSemaphore}
  complete x := by cases x <;> decide

/-- The statements of `test`, those of `initSwapPool` and `createUProc` among them. -/
inductive TestPoint where
  | initSemaphores
  | initSwapPool
  | init
  | create
  | panic
  | passeren
  | term
deriving DecidableEq, Repr

inductive Body where
  | test (pt : TestPoint)
  | uproc (a : Asid) (c : Control)
deriving DecidableEq, Repr

structure Proc where
  parent : ℕ
  body : Body
deriving DecidableEq, Repr

/-- Every U-proc has a control of its own. In the source `sup_stackGen`, `sup_stackTLB` and the
exception states belong to the ASID, so this is the code's behaviour as long as no two live
U-procs have one ASID; Stacks.lean adds what they share. -/
structure State where
  vm : Vm
  sem : Sem → Semaphore ℕ
  /-- The live processes, by PID. -/
  proc : ℕ → Option Proc
  nextPid : ℕ

/-- The shell's index in `supportPool`. -/
def shellIdx : Asid := ⟨(shellAsid - 1).toNat, by decide⟩

def testStep (vm : Vm) (pt : TestPoint) (inp : Input) : Option (TestPoint × Vm × Service) :=
  match pt with
  | .initSemaphores => inp.onGo (.initSwapPool, vm, .initSemaphores)
  | .initSwapPool => inp.onGo (.init, vm.initSwapPool, .verhogen .swapSemaphore)
  | .init => inp.onGo (.create, vm.initPageTable shellIdx, .none)
  | .create => inp.created?.map fun ok =>
      (if ok then .passeren else .panic, vm, .create shellIdx ok)
  | .panic => none
  | .passeren => inp.onGo (.term, vm, .passeren .masterSemaphore)
  | .term => inp.onGo (.term, vm, .term)

/-- What a process does next. -/
def Body.next (vm : Vm) (body : Body) (inp : Input) : Option (Body × Vm × Service) :=
  match body with
  | .test pt => (testStep vm pt inp).map fun r => (.test r.1, r.2)
  | .uproc a c => (SupportLevel.next a vm c inp).map fun r => (.uproc a r.1, r.2)

namespace State
variable (s : State)

def Blocked (p : ℕ) : Prop := ∃ x, p ∈ (s.sem x).queue

instance (p : ℕ) : Decidable (s.Blocked p) := inferInstanceAs (Decidable (∃ x, p ∈ (s.sem x).queue))

def setSem (x : Sem) (σ : Semaphore ℕ) : State := { s with sem := Function.update s.sem x σ }

/-- Among the first n ancestors of q, itself included, is p. -/
def descends (p : ℕ) : ℕ → ℕ → Bool
  | 0, _ => false
  | n + 1, q => q == p || (s.proc q).any fun r => descends p n r.parent

/-- NSYS2 takes a process, its progeny with it, out of the system and out of the
queues. -/
def kill (p : ℕ) : State :=
  { s with
    proc := fun q => if s.descends p s.nextPid q then none else s.proc q
    sem := fun x => ⟨(s.sem x).value,
      (s.sem x).queue.filter fun q => !s.descends p s.nextPid q⟩ }

/-- The value that `test` gives to a semaphore. -/
def initialValue : Sem → ℤ
  | .termWriteSemaphore | .termReadSemaphore => 1
  | _ => 0

def initSem : Sem → Semaphore ℕ
  | .swapSemaphore => s.sem .swapSemaphore
  | x => ⟨initialValue x, (s.sem x).queue⟩

/-- The process p has requested the service. -/
def serve (p : ℕ) : Service → State
  | .none => s
  | .initSemaphores => { s with sem := s.initSem }
  | .passeren x => s.setSem x ((s.sem x).passeren p)
  | .verhogen x => s.setSem x (s.sem x).verhogen
  | .create a ok =>
      if ok then
        { s with
          proc := Function.update s.proc s.nextPid (some ⟨p, .uproc a (.run .user)⟩)
          nextPid := s.nextPid + 1 }
      else s
  | .term => s.kill p

/-- The process p has reached this point. -/
def move (p : ℕ) (r : Proc) (vm : Vm) : State :=
  { s with vm := vm, proc := Function.update s.proc p (some r) }

/-- One step of the process p. -/
def exec (p : ℕ) (inp : Input) : Option State :=
  (s.proc p).bind fun r =>
    if s.Blocked p then none
    else (r.body.next s.vm inp).map fun n => (s.move p { r with body := n.1 } n.2.1).serve p n.2.2

end State

/-- The process and what the environment decides for it. -/
abbrev Event := ℕ × Input

/-- The run that takes these steps, each of which must be admissible. -/
def State.run (ok : State → Event → Bool) : List Event → State → Option State
  | [], s => some s
  | e :: es, s => if ok s e then (s.exec e.1 e.2).bind (run ok es) else none

def system (init : State → Prop) : System State Event where
  init := init
  step s e s' := s.exec e.1 e.2 = some s'

theorem State.run_reachable {init : State → Prop} {ok : State → Event → Bool} {es : List Event}
    {s s' : State} (hs : (system init).Reachable s) (h : s.run ok es = some s') :
    (system init).Reachable s' := by
  induction es generalizing s with
  | nil =>
      simp only [run, Option.some.injEq] at h
      exact h ▸ hs
  | cons e es ih =>
      simp only [run] at h
      split at h
      · simp only [Option.bind_eq_some_iff] at h
        obtain ⟨s₁, h1, h2⟩ := h
        exact ih (hs.step h1) h2
      · exact absurd h (by simp)

/-- The Instantiator is about to execute `test`. -/
structure Boot (s : State) : Prop where
  proc : s.proc = Function.update (fun _ => none) 1 (some ⟨0, .test .initSemaphores⟩)
  nextPid : s.nextPid = 2
  sem : ∀ x, s.sem x = ⟨0, []⟩
  flag : ∀ a, s.vm.holdingSwapMutex a = false
  tlb : ∀ hi, s.vm.tlb hi = none

/-- The processes that may be there after `initSwapPool`: the Instantiator at its P,
and U-procs that have not begun. -/
inductive Fresh : Body → Prop
  | test : Fresh (.test .passeren)
  | uproc (a : Asid) : Fresh (.uproc a (.run .user))

/-- Virtual memory after `initSwapPool`, with the page tables of all U-procs. -/
def startVm (flash : Word → BitVec 24 → Page) : Vm where
  privatePgTbl a k := ⟨makePrivateEntryHI (Vm.pageAddress k) a.num, dirtyOn⟩
  swapPool _ := Vm.freeEntry
  fifoCont := 0
  holdingSwapMutex _ := false
  tlb _ := none
  ram _ _ := 0
  flash := flash

/-- The Instantiator is about to execute `test`. -/
def bootState (flash : Word → BitVec 24 → Page) : State where
  vm := startVm flash
  sem _ := ⟨0, []⟩
  proc := Function.update (fun _ => none) 1 (some ⟨0, .test .initSemaphores⟩)
  nextPid := 2

theorem bootState_boot (flash : Word → BitVec 24 → Page) : Boot (bootState flash) where
  proc := rfl
  nextPid := rfl
  sem _ := rfl
  flag _ := rfl
  tlb _ := rfl

/-- The Instantiator and two U-procs, which have the PIDs 2 and 3. -/
def startState (a b : Asid) (flash : Word → BitVec 24 → Page) : State where
  vm := startVm flash
  sem x := ⟨if x = .swapSemaphore then 1 else State.initialValue x, []⟩
  proc p :=
    if p = 1 then some ⟨0, .test .passeren⟩
    else if p = 2 then some ⟨1, .uproc a (.run .user)⟩
    else if p = 3 then some ⟨1, .uproc b (.run .user)⟩
    else none
  nextPid := 4

/-- Any number of U-procs with distinct ASIDs, after `initSwapPool`. -/
structure Started (s : State) : Prop where
  fresh : ∀ p r, s.proc p = some r → Fresh r.body ∧ r.parent < p ∧ p < s.nextPid
  distinct : ∀ p q r r' a, s.proc p = some r → s.proc q = some r' →
    r.body = .uproc a (.run .user) → r'.body = .uproc a (.run .user) → p = q
  table : ∀ p r a, s.proc p = some r → r.body = .uproc a (.run .user) →
    s.vm.initPageTable a = s.vm
  swapSemaphore : s.sem .swapSemaphore = ⟨1, []⟩
  sem : ∀ x, x ≠ .swapSemaphore → s.sem x = ⟨State.initialValue x, []⟩
  swapPool : s.vm.initSwapPool = s.vm
  flag : ∀ a, s.vm.holdingSwapMutex a = false
  tlb : ∀ hi, s.vm.tlb hi = none

theorem startState_started {a b : Asid} (h : a ≠ b) (flash : Word → BitVec 24 → Page) :
    Started (startState a b flash) := by
  constructor
  · intro p r hp
    simp only [startState] at hp
    split_ifs at hp with h1 h2 h3 <;> simp only [Option.some.injEq] at hp <;> subst hp
    · exact ⟨.test, by simp only [startState]; omega⟩
    · exact ⟨.uproc a, by simp only [startState]; omega⟩
    · exact ⟨.uproc b, by simp only [startState]; omega⟩
  · intro p q r r' c hp hq hr hr'
    simp only [startState] at hp hq
    split_ifs at hp hq <;> simp only [Option.some.injEq] at hp hq <;> subst hp <;> subst hq <;>
      simp only [Body.uproc.injEq, reduceCtorEq, and_true] at hr hr'
    · omega
    · exact absurd (hr.trans hr'.symm) h
    · exact absurd (hr'.trans hr.symm) h
    · omega
  · intro p r c _ _
    simp [startState, startVm, Vm.initPageTable]
  · rfl
  · intro x hx
    simp [startState, hx]
  · rfl
  · intro c
    rfl
  · intro hi
    rfl

end PandOSsh.SupportLevel
