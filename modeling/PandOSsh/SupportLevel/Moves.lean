import PandOSsh.Library.Mutex
import PandOSsh.SupportLevel.System

/-!
# What a step can do

One case for each kind of step of a U-proc, with everything the step requires
and everything it changes. The invariants of the Support Level are proved over
these cases, not over the handlers.
-/

namespace PandOSsh.SupportLevel
open Library

namespace Code

/-- The code stands between its P and its V on the semaphore. -/
def past (x : Sem) : Code → Bool
  | user => false
  | writeTerminal _ _ pt => x == .termWriteSemaphore && pt != .passeren
  | readTerminal _ pt => x == .termReadSemaphore && pt != .passeren

/-- The byte that the next statement stores, and where. -/
def storing : Code → Input → Option (Word × Byte)
  | user, .store va b => some (va, b)
  | readTerminal buf (.store received c), .go =>
      if (received : ℤ) < maxStrLeng then some (buf + BitVec.ofNat 32 received, c) else none
  | _, _ => none

/-- The address that the next statement loads from. -/
def loading : Code → Input → Option Word
  | user, .load va => some va
  | writeTerminal str _ (.load i), .go => some (str + BitVec.ofNat 32 i)
  | _, _ => none

end Code

/-- A step of a U-proc. -/
inductive Moves (a : Asid) (vm : Vm) : Control → Input → Control → Vm → Service → Prop
  | code {code code' : Code} {inp : Input} (hs : code.storing inp = none)
      (hl : ∀ va, code.loading inp = some va → (vm.load a va).isSome)
      (hp : ∀ x, code'.past x = code.past x) : Moves a vm (.run code) inp (.run code') vm .none
  | store {code code' : Code} {inp : Input} {va : Word} {b : Byte} {vm' : Vm}
      (hs : code.storing inp = some (va, b)) (hv : vm.store a va b = some vm')
      (hp : ∀ x, code'.past x = code.past x) : Moves a vm (.run code) inp (.run code') vm' .none
  | refill {code : Code} {va : Word} {replaced : Option Word} (ht : code.touches va = true)
      (hm : vm.tlb (accessHI a va) = none) : Moves a vm (.run code) (.refill va replaced) (.run code)
        (vm.uTLB_RefillHandler a va replaced) .none
  | fault {code : Code} {va : Word} {mod : Bool} (ht : code.touches va = true)
      (hf : mod = true ∨ vm.pageFaults a va = true) : Moves a vm (.run code) (.fault va mod)
        (.pager (accessHI a va) code (.cause mod)) vm .none
  | trap {code : Code} (ha : code.accesses = true) :
      Moves a vm (.run code) .trap programTrapHandler vm .none
  | terminate {a0 a1 a2 : Word} :
      Moves a vm (.run .user) (.syscall a0 a1 a2) (.sys2 .checkFlag) vm .none
  | terminal {a0 a1 a2 : Word} {code : Code} (hp : ∀ x, code.past x = false) :
      Moves a vm (.run .user) (.syscall a0 a1 a2) (.run code) vm .none
  | execute {a0 a1 a2 : Word} {child : Asid} (ha : a.num = shellAsid)
      (hc : child.num ≠ shellAsid) :
      Moves a vm (.run .user) (.syscall a0 a1 a2) (.sys6 child .init) vm .none
  | codePasseren {code code' : Code} {x : Sem} (hx : x ≠ .swapSemaphore ∧ x ≠ .shellSemaphore ∧
      x ≠ .masterSemaphore) (hp : ∀ y, code.past y = false) (hp' : ∀ y, code'.past y = (y == x)) :
      Moves a vm (.run code) .go (.run code') vm (.passeren x)
  | codeVerhogen {code code' : Code} {x : Sem} (hx : x ≠ .swapSemaphore ∧ x ≠ .shellSemaphore ∧
      x ≠ .masterSemaphore) (hp : ∀ y, code.past y = (y == x)) (hp' : ∀ y, code'.past y = false) :
      Moves a vm (.run code) .go (.run code') vm (.verhogen x)
  | cause {hi : Word} {back : Code} :
      Moves a vm (.pager hi back (.cause false)) .go (.pager hi back .passeren) vm .none
  | causeMod {hi : Word} {back : Code} :
      Moves a vm (.pager hi back (.cause true)) .go programTrapHandler vm .none
  | passeren {hi : Word} {back : Code} : Moves a vm (.pager hi back .passeren) .go
      (.pager hi back .setFlag) vm (.passeren .swapSemaphore)
  | setFlag {hi : Word} {back : Code} : Moves a vm (.pager hi back .setFlag) .go
      (.pager hi back .choose) (vm.setFlag a true) .none
  | choose {hi : Word} {back : Code} : Moves a vm (.pager hi back .choose) .go
      (.pager hi back (.evict vm.chooseFrame.1)) vm.chooseFrame.2 .none
  | evictFree {hi : Word} {back : Code} {i : Frame} (hf : (vm.swapPool i).swAsid = -1) :
      Moves a vm (.pager hi back (.evict i)) .go (.pager hi back (.read i)) vm .none
  | evict {hi : Word} {back : Code} {i : Frame} (hf : (vm.swapPool i).swAsid ≠ -1) :
      Moves a vm (.pager hi back (.evict i)) .go
        (.pager hi back (.write i (vm.swapPool i).swAsid (vm.swapPool i).swPageNo))
        (vm.evict i) .none
  | write {hi : Word} {back : Code} {i : Frame} {x k : ℤ} {w : Word} :
      Moves a vm (.pager hi back (.write i x k)) (.status w) (.pager hi back (.read i))
        (vm.readWriteFlashdrive x k (physicalFrame i) flashWrite w).1 .none
  | read {hi : Word} {back : Code} {i : Frame} {w : Word}
      (hr : (vm.readWriteFlashdrive a.num (missingPage hi) (physicalFrame i) flashRead w).2 = 1) :
      Moves a vm (.pager hi back (.read i)) (.status w) (.pager hi back (.record i))
        (vm.readWriteFlashdrive a.num (missingPage hi) (physicalFrame i) flashRead w).1 .none
  | readFailed {hi : Word} {back : Code} {i : Frame} {w : Word}
      (hr : (vm.readWriteFlashdrive a.num (missingPage hi) (physicalFrame i) flashRead w).2 ≠ 1) :
      Moves a vm (.pager hi back (.read i)) (.status w) (.pager hi back .clearFlagFailed)
        (vm.readWriteFlashdrive a.num (missingPage hi) (physicalFrame i) flashRead w).1 .none
  | clearFlagFailed {hi : Word} {back : Code} : Moves a vm (.pager hi back .clearFlagFailed) .go
      (.pager hi back .verhogenFailed) (vm.setFlag a false) .none
  | verhogenFailed {hi : Word} {back : Code} : Moves a vm (.pager hi back .verhogenFailed) .go
      programTrapHandler vm (.verhogen .swapSemaphore)
  | record {hi : Word} {back : Code} {i : Frame} : Moves a vm (.pager hi back (.record i)) .go
      (.pager hi back (.install i)) (vm.recordPage a (missingPage hi) i) .none
  | install {hi : Word} {back : Code} {i : Frame} : Moves a vm (.pager hi back (.install i)) .go
      (.pager hi back .clearFlag) (vm.install a (missingPage hi) i) .none
  | clearFlag {hi : Word} {back : Code} : Moves a vm (.pager hi back .clearFlag) .go
      (.pager hi back .verhogen) (vm.setFlag a false) .none
  | verhogen {hi : Word} {back : Code} : Moves a vm (.pager hi back .verhogen) .go
      (.run back) vm (.verhogen .swapSemaphore)
  | checkHeld (hf : vm.holdingSwapMutex a = true) : Moves a vm (.sys2 .checkFlag) .go
      (.sys2 .releaseMutex) (vm.setFlag a false) .none
  | check (hf : vm.holdingSwapMutex a = false) : Moves a vm (.sys2 .checkFlag) .go
      (.sys2 .signal) vm .none
  | releaseMutex : Moves a vm (.sys2 .releaseMutex) .go (.sys2 .signal) vm
      (.verhogen .swapSemaphore)
  | signal : Moves a vm (.sys2 .signal) .go (.sys2 .passeren) vm
      (.verhogen (if a.num = shellAsid then .masterSemaphore else .shellSemaphore))
  | sys2Passeren : Moves a vm (.sys2 .passeren) .go (.sys2 .sweep) vm (.passeren .swapSemaphore)
  | sweep : Moves a vm (.sys2 .sweep) .go (.sys2 .verhogen) (vm.freeSwapFrames a.num) .none
  | sys2Verhogen : Moves a vm (.sys2 .verhogen) .go (.sys2 .term) vm (.verhogen .swapSemaphore)
  | term : Moves a vm (.sys2 .term) .go (.sys2 .term) vm .term
  | init {child : Asid} : Moves a vm (.sys6 child .init) .go (.sys6 child .create)
      (vm.initPageTable child) .none
  | create {child : Asid} : Moves a vm (.sys6 child .create) (.created true)
      (.sys6 child .passeren) vm (.create child true)
  | createFailed {child : Asid} : Moves a vm (.sys6 child .create) (.created false)
      (.sys2 .checkFlag) vm (.create child false)
  | sys6Passeren {child : Asid} : Moves a vm (.sys6 child .passeren) .go (.run .user) vm
      (.passeren .shellSemaphore)

/-- What a step of a U-proc does to virtual memory. -/
inductive Changes (a : Asid) (vm : Vm) : Vm → Prop
  | same : Changes a vm vm
  | store {va : Word} {x : Byte} {vm' : Vm} (hv : vm.store a va x = some vm') : Changes a vm vm'
  | refill (va : Word) (replaced : Option Word) : Changes a vm (vm.uTLB_RefillHandler a va replaced)
  | flag (b : Bool) : Changes a vm (vm.setFlag a b)
  | choose : Changes a vm vm.chooseFrame.2
  | evict (i : Frame) : Changes a vm (vm.evict i)
  | transfer (asid vpn : ℤ) (data0 op w : Word) :
      Changes a vm (vm.readWriteFlashdrive asid vpn data0 op w).1
  | record (n : ℤ) (i : Frame) : Changes a vm (vm.recordPage a n i)
  | install (n : ℤ) (i : Frame) : Changes a vm (vm.install a n i)
  | sweep : Changes a vm (vm.freeSwapFrames a.num)
  | init (child : Asid) : Changes a vm (vm.initPageTable child)

theorem Moves.changes {a : Asid} {vm vm' : Vm} {c c' : Control} {inp : Input} {svc : Service}
    (h : Moves a vm c inp c' vm' svc) : Changes a vm vm' := by
  cases h with
  | store _ hv => exact .store hv
  | refill => exact .refill ..
  | setFlag | clearFlagFailed | clearFlag | checkHeld => exact .flag _
  | choose => exact .choose
  | evict => exact .evict _
  | write | read | readFailed => exact .transfer ..
  | record => exact .record ..
  | install => exact .install ..
  | sweep => exact .sweep
  | init => exact .init _
  | code | fault | trap | terminate | terminal | execute | codePasseren | codeVerhogen | cause |
    causeMod | passeren | evictFree | verhogenFailed | verhogen | check | releaseMutex | signal |
    sys2Passeren | sys2Verhogen | term | create | createFailed | sys6Passeren => exact .same

/-- A step of the Instantiator. -/
inductive TestMoves (vm : Vm) : TestPoint → Input → TestPoint → Vm → Service → Prop
  | initSemaphores : TestMoves vm .initSemaphores .go .initSwapPool vm .initSemaphores
  | initSwapPool :
      TestMoves vm .initSwapPool .go .init vm.initSwapPool (.verhogen .swapSemaphore)
  | init : TestMoves vm .init .go .create (vm.initPageTable shellIdx) .none
  | create : TestMoves vm .create (.created true) .passeren vm (.create shellIdx true)
  | createFailed : TestMoves vm .create (.created false) .panic vm (.create shellIdx false)
  | passeren : TestMoves vm .passeren .go .term vm (.passeren .masterSemaphore)
  | term : TestMoves vm .term .go .term vm .term

theorem testStep_moves {vm vm' : Vm} {pt pt' : TestPoint} {inp : Input} {svc : Service}
    (h : testStep vm pt inp = some (pt', vm', svc)) : TestMoves vm pt inp pt' vm' svc := by
  cases pt with
  | create =>
      simp only [testStep, Option.map_eq_some_iff, Input.created?_eq_some, Prod.mk.injEq] at h
      obtain ⟨ok, rfl, rfl, rfl, rfl⟩ := h
      cases ok
      · exact .createFailed
      · exact .create
  | panic => exact absurd h (by simp [testStep])
  | initSemaphores | initSwapPool | init | passeren | term =>
      simp only [testStep, Input.onGo_eq_some, Prod.mk.injEq] at h
      obtain ⟨rfl, rfl, rfl, rfl⟩ := h
      constructor

section Handlers
variable {a : Asid} {vm vm' : Vm} {c' : Control} {svc : Service} {inp : Input}

theorem past_nextChar (x : Sem) (str : Word) (len i : ℕ) :
    (Code.writeTerminal str len (nextChar len i)).past x = (x == .termWriteSemaphore) := by
  unfold nextChar
  split <;> simp [Code.past]

theorem past_afterChar (x : Sem) (buf : Word) (n : ℕ) (c : Byte) :
    (Code.readTerminal buf (afterChar n c)).past x = (x == .termReadSemaphore) := by
  unfold afterChar
  split <;> simp [Code.past]

theorem sys4_moves {a0 a1 a2 : Word} :
    Moves a vm (.run .user) (.syscall a0 a1 a2) (sys4 a1 a2) vm .none := by
  unfold sys4
  split
  · exact .terminate
  · split
    · exact .terminate
    · exact .terminal fun x => by simp [Code.past]

theorem sys5_moves {a0 a1 a2 : Word} :
    Moves a vm (.run .user) (.syscall a0 a1 a2) (sys5 a1) vm .none := by
  unfold sys5
  split
  · exact .terminate
  · exact .terminal fun x => by simp [Code.past]

theorem sys6_moves {a0 a1 a2 : Word} :
    Moves a vm (.run .user) (.syscall a0 a1 a2) (sys6 a.num a1) vm .none := by
  unfold sys6
  split
  · exact .terminate
  · next ha =>
    split
    · exact .terminate
    · next hc =>
      refine .execute (not_not.mp ha) ?_
      simp only [not_or, not_le] at hc
      have hs : shellAsid = 1 := rfl
      simp only [Asid.num]
      omega

theorem userStep_moves (h : userStep a vm inp = some (c', vm', svc)) :
    Moves a vm (.run .user) inp c' vm' svc := by
  unfold userStep at h
  split at h
  · next va =>
    simp only [Option.map_eq_some_iff, Prod.mk.injEq] at h
    obtain ⟨b, hb, rfl, rfl, rfl⟩ := h
    refine .code rfl (fun va' hl => ?_) fun _ => rfl
    simp only [Code.loading, Option.some.injEq] at hl
    rw [← hl, hb]
    rfl
  · next va b =>
    simp only [Option.map_eq_some_iff, Prod.mk.injEq] at h
    obtain ⟨vm₁, hv, rfl, rfl, rfl⟩ := h
    exact .store rfl hv fun _ => rfl
  · next a0 a1 a2 =>
    simp only [Option.some.injEq, Prod.mk.injEq] at h
    obtain ⟨rfl, rfl, rfl⟩ := h
    unfold posSyscallHandler
    split
    · exact .terminate
    · split
      · exact sys4_moves
      · split
        · exact sys5_moves
        · split
          · exact sys6_moves
          · exact .terminate
  · exact absurd h (by simp)

theorem writeTerminalStep_moves {str : Word} {len : ℕ} {pt : WritePoint}
    (h : writeTerminalStep a vm str len pt inp = some (c', vm', svc)) :
    Moves a vm (.run (.writeTerminal str len pt)) inp c' vm' svc := by
  cases pt with
  | passeren =>
      simp only [writeTerminalStep, Input.onGo_eq_some, Prod.mk.injEq] at h
      obtain ⟨rfl, rfl, rfl, rfl⟩ := h
      exact .codePasseren (by decide) (fun y => by simp [Code.past]) fun y => past_nextChar y _ _ _
  | load i =>
      simp only [writeTerminalStep, Option.bind_eq_some_iff, Input.onGo_eq_some,
        Option.map_eq_some_iff, Prod.mk.injEq] at h
      obtain ⟨_, ⟨rfl, _⟩, b, hb, rfl, rfl, rfl⟩ := h
      refine .code rfl (fun va' hl => ?_) fun _ => rfl
      simp only [Code.loading, Option.some.injEq] at hl
      rw [← hl, hb]
      rfl
  | transmit i c =>
      simp only [writeTerminalStep, Option.map_eq_some_iff, Input.status?_eq_some,
        Prod.mk.injEq] at h
      obtain ⟨w, rfl, rfl, rfl, rfl⟩ := h
      refine .code rfl (fun va' hl => by simp [Code.loading] at hl) fun x => ?_
      split
      · rw [past_nextChar]
        simp [Code.past]
      · rfl
  | verhogen r =>
      simp only [writeTerminalStep, Input.onGo_eq_some, Prod.mk.injEq] at h
      obtain ⟨rfl, rfl, rfl, rfl⟩ := h
      exact .codeVerhogen (by decide) (fun y => by simp [Code.past]) fun y => rfl

theorem readTerminalStep_moves {buf : Word} {pt : ReadPoint}
    (h : readTerminalStep a vm buf pt inp = some (c', vm', svc)) :
    Moves a vm (.run (.readTerminal buf pt)) inp c' vm' svc := by
  cases pt with
  | passeren =>
      simp only [readTerminalStep, Input.onGo_eq_some, Prod.mk.injEq] at h
      obtain ⟨rfl, rfl, rfl, rfl⟩ := h
      exact .codePasseren (by decide) (fun y => by simp [Code.past]) fun y => by simp [Code.past]
  | receive n =>
      simp only [readTerminalStep, Option.map_eq_some_iff, Input.status?_eq_some,
        Prod.mk.injEq] at h
      obtain ⟨w, rfl, rfl, rfl, rfl⟩ := h
      refine .code rfl (fun va' hl => by simp [Code.loading] at hl) fun x => ?_
      split <;> rfl
  | store n c =>
      simp only [readTerminalStep, Option.bind_eq_some_iff, Input.onGo_eq_some] at h
      obtain ⟨_, ⟨rfl, _⟩, h⟩ := h
      split at h
      · next hn =>
        simp only [Option.map_eq_some_iff, Prod.mk.injEq] at h
        obtain ⟨vm₁, hv, rfl, rfl, rfl⟩ := h
        refine .store (by simp only [Code.storing, hn, if_true]) hv fun x => ?_
        rw [past_afterChar]
        simp [Code.past]
      · next hn =>
        simp only [Option.some.injEq, Prod.mk.injEq] at h
        obtain ⟨rfl, rfl, rfl⟩ := h
        refine .code (by simp only [Code.storing, hn, if_false])
          (fun va' hl => by simp [Code.loading] at hl) fun x => ?_
        rw [past_afterChar]
        simp [Code.past]
  | verhogen r =>
      simp only [readTerminalStep, Input.onGo_eq_some, Prod.mk.injEq] at h
      obtain ⟨rfl, rfl, rfl, rfl⟩ := h
      exact .codeVerhogen (by decide) (fun y => by simp [Code.past]) fun y => rfl

theorem codeStep_moves {code : Code} (h : codeStep a vm code inp = some (c', vm', svc)) :
    Moves a vm (.run code) inp c' vm' svc := by
  cases code with
  | user => exact userStep_moves h
  | writeTerminal str len pt => exact writeTerminalStep_moves h
  | readTerminal buf pt => exact readTerminalStep_moves h

theorem runStep_moves {code : Code} (h : runStep a vm code inp = some (c', vm', svc)) :
    Moves a vm (.run code) inp c' vm' svc := by
  cases inp with
  | refill va replaced =>
      simp only [runStep, refillStep, Bool.and_eq_true, Option.isNone_iff_eq_none,
        Option.ite_none_right_eq_some, Option.some.injEq, Prod.mk.injEq] at h
      obtain ⟨⟨ht, hm⟩, rfl, rfl, rfl⟩ := h
      exact .refill ht hm
  | fault va mod =>
      simp only [runStep, faultStep, Bool.and_eq_true, Bool.or_eq_true,
        Option.ite_none_right_eq_some, Option.some.injEq, Prod.mk.injEq] at h
      obtain ⟨⟨ht, hf⟩, rfl, rfl, rfl⟩ := h
      exact .fault ht hf
  | trap =>
      simp only [runStep, trapStep, Option.ite_none_right_eq_some, Option.some.injEq,
        Prod.mk.injEq] at h
      obtain ⟨ha, rfl, rfl, rfl⟩ := h
      exact .trap ha
  | go | load | store | syscall | status | created =>
      simp only [runStep] at h
      exact codeStep_moves h

theorem pagerStep_moves {hi : Word} {back : Code} {pt : PagerPoint}
    (h : pagerStep a vm hi back pt inp = some (c', vm', svc)) :
    Moves a vm (.pager hi back pt) inp c' vm' svc := by
  cases pt with
  | cause mod =>
      simp only [pagerStep, Input.onGo_eq_some, Prod.mk.injEq] at h
      obtain ⟨rfl, rfl, rfl, rfl⟩ := h
      cases mod
      · exact .cause
      · exact .causeMod
  | evict i =>
      simp only [pagerStep, Input.onGo_eq_some] at h
      obtain ⟨rfl, h⟩ := h
      split at h <;> simp only [Prod.mk.injEq] at h <;> obtain ⟨rfl, rfl, rfl⟩ := h
      · next hf => exact .evictFree hf
      · next hf => exact .evict hf
  | write i x k =>
      simp only [pagerStep, Option.map_eq_some_iff, Input.status?_eq_some, Prod.mk.injEq] at h
      obtain ⟨w, rfl, rfl, rfl, rfl⟩ := h
      exact .write
  | read i =>
      simp only [pagerStep, Option.map_eq_some_iff, Input.status?_eq_some, Prod.mk.injEq] at h
      obtain ⟨w, rfl, rfl, rfl, rfl⟩ := h
      split
      · next hr => exact .read hr
      · next hr => exact .readFailed hr
  | passeren | setFlag | choose | clearFlagFailed | verhogenFailed | record | install | clearFlag |
    verhogen =>
      simp only [pagerStep, Input.onGo_eq_some, Prod.mk.injEq] at h
      obtain ⟨rfl, rfl, rfl, rfl⟩ := h
      constructor

theorem sys2Step_moves {pt : Sys2Point} (h : sys2Step a vm pt inp = some (c', vm', svc)) :
    Moves a vm (.sys2 pt) inp c' vm' svc := by
  cases pt with
  | checkFlag =>
      simp only [sys2Step, Input.onGo_eq_some] at h
      obtain ⟨rfl, h⟩ := h
      split at h <;> simp only [Prod.mk.injEq] at h <;> obtain ⟨rfl, rfl, rfl⟩ := h
      · next hf => exact .checkHeld hf
      · next hf => exact .check (by simpa using hf)
  | releaseMutex | signal | passeren | sweep | verhogen | term =>
      simp only [sys2Step, Input.onGo_eq_some, Prod.mk.injEq] at h
      obtain ⟨rfl, rfl, rfl, rfl⟩ := h
      constructor

theorem sys6Step_moves {child : Asid} {pt : Sys6Point}
    (h : sys6Step vm child pt inp = some (c', vm', svc)) :
    Moves a vm (.sys6 child pt) inp c' vm' svc := by
  cases pt with
  | create =>
      simp only [sys6Step, Option.map_eq_some_iff, Input.created?_eq_some, Prod.mk.injEq] at h
      obtain ⟨ok, rfl, rfl, rfl, rfl⟩ := h
      cases ok
      · exact .createFailed
      · exact .create
  | init | passeren =>
      simp only [sys6Step, Input.onGo_eq_some, Prod.mk.injEq] at h
      obtain ⟨rfl, rfl, rfl, rfl⟩ := h
      constructor

theorem next_moves {c : Control} (h : next a vm c inp = some (c', vm', svc)) :
    Moves a vm c inp c' vm' svc := by
  cases c with
  | run code => exact runStep_moves h
  | pager hi back pt => exact pagerStep_moves h
  | sys2 pt => exact sys2Step_moves h
  | sys6 child pt => exact sys6Step_moves h

end Handlers
end PandOSsh.SupportLevel
