import PandOSsh.SupportLevel.SwapMutex

/-!
# The semaphores of terminal 0 (syscalls.c)

What the calls of `writeTerminal` and `readTerminal` do between their P and their V,
statement by statement. A call that a page fault interrupts stands in the pager for a
while; one that dies on the way leaves its semaphore taken.
-/

namespace PandOSsh.SupportLevel
open Library

/-- What a call does that has its semaphore. The memory of the caller is noted when the call
gets the semaphore, and when it returns. -/
inductive TermEntry where
  | writes (str : Word) (len : ℕ) (mem : Word → Byte)
  | loads (va : Word) (c : Byte)
  | transmits (c : Byte)
  | reads (buf : Word) (mem : Word → Byte)
  | receives (w : Word)
  | stores (va : Word) (c : Byte)
  | returns (result : ℤ) (mem : Word → Byte)

namespace Code

/-- The call has got its semaphore. -/
def opening (mem : Word → Byte) : Code → Option TermEntry
  | user => none
  | writeTerminal str len _ => some (.writes str len mem)
  | readTerminal buf _ => some (.reads buf mem)

/-- The next statement of the call. -/
def entries (a : Asid) (vm : Vm) (mem : Word → Byte) : Code → Input → List TermEntry
  | writeTerminal str _ (.load i), .go =>
      ((vm.load a (str + BitVec.ofNat 32 i)).map (.loads (str + BitVec.ofNat 32 i))).toList
  | writeTerminal _ _ (.transmit _ c), .status _ => [.transmits c]
  | writeTerminal _ _ (.verhogen result), .go => [.returns result mem]
  | readTerminal _ (.receive _), .status w => [.receives w]
  | readTerminal buf (.store received c), .go =>
      if (received : ℤ) < maxStrLeng then [.stores (buf + BitVec.ofNat 32 received) c] else []
  | readTerminal _ (.verhogen result), .go => [.returns result mem]
  | _, _ => []

end Code

namespace Control

/-- The code that runs, or that a page fault has interrupted. -/
def code : Control → Option Code
  | run code | pager _ code _ => some code
  | sys2 _ | sys6 _ _ => none

def opening (mem : Word → Byte) : Control → Option TermEntry
  | run code => code.opening mem
  | pager _ _ _ | sys2 _ | sys6 _ _ => none

/-- What the next statement does under the semaphore. -/
def entries (x : Sem) (a : Asid) (vm : Vm) (mem : Word → Byte) (inp : Input) :
    Control → List TermEntry
  | run code => if code.past x then code.entries a vm mem inp else []
  | pager _ _ _ | sys2 _ | sys6 _ _ => []

/-- The next statement does nothing under the semaphore. -/
def Silent (x : Sem) (a : Asid) (vm : Vm) (inp : Input) (c : Control) : Prop :=
  ∀ mem, c.entries x a vm mem inp = []

end Control

/-- Who gets the semaphore with this step. -/
def State.granted (s : State) (x : Sem) (e : Event) : Option ℕ :=
  match s.service e with
  | .passeren y => if y = x ∧ 0 < (s.sem x).value then some e.1 else none
  | .verhogen y => if y = x then (s.sem x).queue.head? else none
  | _ => none

section Moves
variable {a : Asid} {vm vm' : Vm} {c c' : Control} {code code' : Code} {inp : Input} {svc : Service}
  {x : Sem}

/-- The semaphores of terminal 0. -/
def Sem.OfTerminal (x : Sem) : Prop := x = .termWriteSemaphore ∨ x = .termReadSemaphore

/-- The P of a call. -/
inductive Starts : Code → Code → Sem → Prop
  | write {str : Word} {len : ℕ} : Starts (.writeTerminal str len .passeren)
      (.writeTerminal str len (nextChar len 0)) .termWriteSemaphore
  | read {buf : Word} : Starts (.readTerminal buf .passeren) (.readTerminal buf (.receive 0))
      .termReadSemaphore

/-- A statement of a call between its P and its V. -/
inductive Works (a : Asid) (vm : Vm) : Code → Input → Code → Vm → Prop
  | load {str : Word} {len i : ℕ} {c : Byte} (hl : vm.load a (str + BitVec.ofNat 32 i) = some c) :
      Works a vm (.writeTerminal str len (.load i)) .go (.writeTerminal str len (.transmit i c)) vm
  | transmit {str : Word} {len i : ℕ} {c : Byte} {w : Word} :
      Works a vm (.writeTerminal str len (.transmit i c)) (.status w) (.writeTerminal str len
        (if w &&& 0xFF = okCharTrans then nextChar len (i + 1) else .verhogen (statusError w))) vm
  | receive {buf : Word} {received : ℕ} {w : Word} :
      Works a vm (.readTerminal buf (.receive received)) (.status w) (.readTerminal buf
        (if w &&& 0xFF = charRecv then .store received (w.extractLsb' 8 8)
        else .verhogen (statusError w))) vm
  | store {buf : Word} {received : ℕ} {c : Byte} {vm' : Vm} (hn : (received : ℤ) < maxStrLeng)
      (hs : vm.store a (buf + BitVec.ofNat 32 received) c = some vm') :
      Works a vm (.readTerminal buf (.store received c)) .go
        (.readTerminal buf (afterChar (received + 1) c)) vm'
  | skip {buf : Word} {received : ℕ} {c : Byte} (hn : ¬ (received : ℤ) < maxStrLeng) :
      Works a vm (.readTerminal buf (.store received c)) .go
        (.readTerminal buf (afterChar received c)) vm

/-- The V of a call. -/
inductive Ends : Code → Sem → Prop
  | write {str : Word} {len : ℕ} {result : ℤ} :
      Ends (.writeTerminal str len (.verhogen result)) .termWriteSemaphore
  | read {buf : Word} {result : ℤ} : Ends (.readTerminal buf (.verhogen result)) .termReadSemaphore

/-- A step of a U-proc, with respect to a terminal semaphore. -/
inductive Uses (x : Sem) (a : Asid) (vm : Vm) : Control → Input → Control → Vm → Service → Prop
  | outside {c c' : Control} {inp : Input} {vm' : Vm} {svc : Service} (h : c.past x = false)
      (h' : c'.past x = false) (hp : svc ≠ .passeren x) (hv : svc ≠ .verhogen x) :
      Uses x a vm c inp c' vm' svc
  | starts {code code' : Code} (h : Starts code code' x) :
      Uses x a vm (.run code) .go (.run code') vm (.passeren x)
  | works {code code' : Code} {inp : Input} {vm' : Vm} (h : Works a vm code inp code' vm')
      (hx : code.past x = true) (hx' : code'.past x = true) :
      Uses x a vm (.run code) inp (.run code') vm' .none
  | faults {c c' : Control} {inp : Input} {vm' : Vm} {svc : Service} (h : c.past x = true)
      (h' : c'.past x = true) (hc : c'.code = c.code) (he : c.Silent x a vm inp)
      (hp : svc ≠ .passeren x) (hv : svc ≠ .verhogen x) : Uses x a vm c inp c' vm' svc
  | ends {code : Code} (h : Ends code x) : Uses x a vm (.run code) .go (.run .user) vm (.verhogen x)
  | dies {c c' : Control} {inp : Input} {vm' : Vm} {svc : Service} (h : c.past x = true)
      (h' : c'.past x = false) (he : c.Silent x a vm inp)
      (hs : svc = .none ∨ svc = .verhogen .swapSemaphore) : Uses x a vm c inp c' vm' svc

theorem Sem.OfTerminal.ne (hx : x.OfTerminal) :
    x ≠ .swapSemaphore ∧ x ≠ .masterSemaphore ∧ x ≠ .shellSemaphore := by
  rcases hx with rfl | rfl
  · decide
  · decide

/-- A page fault does not change where its code stands. -/
theorem past_pager (hx : x.OfTerminal) {hi : Word} {back : Code} {pt : PagerPoint} :
    (Control.pager hi back pt).past x = back.past x := by
  rcases hx with rfl | rfl
  · exact Bool.or_false _
  · exact Bool.or_false _

theorem past_sys2 (hx : x.OfTerminal) {pt : Sys2Point} : (Control.sys2 pt).past x = false := by
  rcases hx with rfl | rfl
  · rfl
  · rfl

theorem Starts.past (h : Starts code code' x) : code.past x = false ∧ code'.past x = true := by
  cases h with
  | write => exact ⟨rfl, past_nextChar _ _ _ _⟩
  | read => exact ⟨rfl, rfl⟩

theorem Ends.past (h : Ends code x) : code.past x = true := by
  cases h with
  | write => rfl
  | read => rfl

/-- The code goes on after a service that has nothing to do with the semaphore. -/
theorem uses_of_code (hc : c'.code = c.code) (hpast : c'.past x = c.past x)
    (he : c.Silent x a vm inp) (hp : svc ≠ .passeren x) (hv : svc ≠ .verhogen x) :
    Uses x a vm c inp c' vm' svc := by
  cases h : c.past x with
  | true => exact .faults h (hpast.trans h) hc he hp hv
  | false => exact .outside h (hpast.trans h) hp hv

/-- The U-proc goes to `sys2`. -/
theorem uses_of_sys2 (hx : x.OfTerminal) {pt : Sys2Point} (he : c.Silent x a vm inp)
    (hs : svc = .none ∨ svc = .verhogen .swapSemaphore) :
    Uses x a vm c inp (.sys2 pt) vm' svc := by
  cases h : c.past x with
  | true => exact .dies h (past_sys2 hx) he hs
  | false =>
      have hne := hx.ne.1
      apply Uses.outside h (past_sys2 hx)
      · rcases hs with rfl | rfl
        · simp
        · simp
      · rcases hs with rfl | rfl
        · simp
        · simpa using hne.symm

theorem silent_of_not_past (h : c.past x = false) : c.Silent x a vm inp := by
  intro mem
  cases c with
  | run code => exact if_neg (by rw [show code.past x = false from h]; decide)
  | pager | sys2 | sys6 => rfl

theorem writeTerminalStep_uses (hx : x.OfTerminal) {str : Word} {len : ℕ} {pt : WritePoint}
    (h : writeTerminalStep a vm str len pt inp = some (c', vm', svc)) :
    Uses x a vm (.run (.writeTerminal str len pt)) inp c' vm' svc := by
  cases pt with
  | passeren =>
      simp only [writeTerminalStep, Input.onGo_eq_some, Prod.mk.injEq] at h
      obtain ⟨rfl, rfl, rfl, rfl⟩ := h
      rcases hx with rfl | rfl
      · exact .starts .write
      · exact .outside rfl rfl (by decide) (by decide)
  | load i =>
      simp only [writeTerminalStep, Option.bind_eq_some_iff, Input.onGo_eq_some,
        Option.map_eq_some_iff, Prod.mk.injEq] at h
      obtain ⟨_, ⟨rfl, _⟩, b, hb, rfl, rfl, rfl⟩ := h
      rcases hx with rfl | rfl
      · exact .works (.load hb) rfl rfl
      · exact .outside rfl rfl (by simp) (by simp)
  | transmit i c =>
      simp only [writeTerminalStep, Option.map_eq_some_iff, Input.status?_eq_some,
        Prod.mk.injEq] at h
      obtain ⟨w, rfl, rfl, rfl, rfl⟩ := h
      rcases hx with rfl | rfl
      · apply Uses.works .transmit rfl
        split
        · exact past_nextChar _ _ _ _
        · rfl
      · exact .outside rfl rfl (by simp) (by simp)
  | verhogen result =>
      simp only [writeTerminalStep, Input.onGo_eq_some, Prod.mk.injEq] at h
      obtain ⟨rfl, rfl, rfl, rfl⟩ := h
      rcases hx with rfl | rfl
      · exact .ends .write
      · exact .outside rfl rfl (by decide) (by decide)

theorem readTerminalStep_uses (hx : x.OfTerminal) {buf : Word} {pt : ReadPoint}
    (h : readTerminalStep a vm buf pt inp = some (c', vm', svc)) :
    Uses x a vm (.run (.readTerminal buf pt)) inp c' vm' svc := by
  cases pt with
  | passeren =>
      simp only [readTerminalStep, Input.onGo_eq_some, Prod.mk.injEq] at h
      obtain ⟨rfl, rfl, rfl, rfl⟩ := h
      rcases hx with rfl | rfl
      · exact .outside rfl rfl (by decide) (by decide)
      · exact .starts .read
  | receive received =>
      simp only [readTerminalStep, Option.map_eq_some_iff, Input.status?_eq_some,
        Prod.mk.injEq] at h
      obtain ⟨w, rfl, rfl, rfl, rfl⟩ := h
      rcases hx with rfl | rfl
      · exact .outside rfl rfl (by simp) (by simp)
      · apply Uses.works .receive rfl
        split
        · rfl
        · rfl
  | store received c =>
      simp only [readTerminalStep, Option.bind_eq_some_iff, Input.onGo_eq_some] at h
      obtain ⟨_, ⟨rfl, _⟩, h⟩ := h
      split at h
      · next hn =>
        simp only [Option.map_eq_some_iff, Prod.mk.injEq] at h
        obtain ⟨vm₁, hv, rfl, rfl, rfl⟩ := h
        rcases hx with rfl | rfl
        · exact .outside rfl rfl (by simp) (by simp)
        · exact .works (.store hn hv) rfl (past_afterChar _ _ _ _)
      · next hn =>
        simp only [Option.some.injEq, Prod.mk.injEq] at h
        obtain ⟨rfl, rfl, rfl⟩ := h
        rcases hx with rfl | rfl
        · exact .outside rfl rfl (by simp) (by simp)
        · exact .works (.skip hn) rfl (past_afterChar _ _ _ _)
  | verhogen result =>
      simp only [readTerminalStep, Input.onGo_eq_some, Prod.mk.injEq] at h
      obtain ⟨rfl, rfl, rfl, rfl⟩ := h
      rcases hx with rfl | rfl
      · exact .outside rfl rfl (by decide) (by decide)
      · exact .ends .read

/-- The steps of user code and of the handlers other than the two calls. -/
theorem Moves.uses (hx : x.OfTerminal) (h : Moves a vm c inp c' vm' svc)
    (hc : ∀ code, c = .run code → code = .user ∧ svc = .none) : Uses x a vm c inp c' vm' svc := by
  obtain ⟨hswap, hmaster, hshell⟩ := hx.ne
  cases h with
  | code _ _ hp | store _ _ hp =>
      obtain ⟨rfl, -⟩ := hc _ rfl
      exact .outside rfl (hp x) (by simp) (by simp)
  | refill =>
      obtain ⟨rfl, -⟩ := hc _ rfl
      exact .outside rfl rfl (by simp) (by simp)
  | fault =>
      obtain ⟨rfl, -⟩ := hc _ rfl
      exact .outside rfl (past_pager hx) (by simp) (by simp)
  | trap =>
      obtain ⟨rfl, -⟩ := hc _ rfl
      exact .outside rfl (past_sys2 hx) (by simp) (by simp)
  | terminate => exact .outside rfl (past_sys2 hx) (by simp) (by simp)
  | terminal hp => exact .outside rfl (hp x) (by simp) (by simp)
  | execute => exact .outside rfl rfl (by simp) (by simp)
  | codePasseren | codeVerhogen => exact absurd (hc _ rfl).2 (by simp)
  | causeMod => exact uses_of_sys2 hx (fun _ => rfl) (.inl rfl)
  | verhogenFailed => exact uses_of_sys2 hx (fun _ => rfl) (.inr rfl)
  | verhogen =>
      exact uses_of_code rfl (past_pager hx).symm (fun _ => rfl) (by simp) (by simpa using hswap.symm)
  | passeren =>
      exact uses_of_code rfl ((past_pager hx).trans (past_pager hx).symm) (fun _ => rfl)
        (by simpa using hswap.symm) (by simp)
  | cause | setFlag | choose | evictFree | evict | write | read | readFailed | clearFlagFailed |
    record | install | clearFlag =>
      exact uses_of_code rfl ((past_pager hx).trans (past_pager hx).symm) (fun _ => rfl) (by simp)
        (by simp)
  | signal =>
      apply Uses.outside (past_sys2 hx) (past_sys2 hx)
      · simp
      · split
        · simpa using hmaster.symm
        · simpa using hshell.symm
  | sys2Passeren =>
      exact .outside (past_sys2 hx) (past_sys2 hx) (by simpa using hswap.symm) (by simp)
  | releaseMutex | sys2Verhogen =>
      exact .outside (past_sys2 hx) (past_sys2 hx) (by simp) (by simpa using hswap.symm)
  | checkHeld | check | sweep | term =>
      exact .outside (past_sys2 hx) (past_sys2 hx) (by simp) (by simp)
  | sys6Passeren => exact .outside rfl rfl (by simpa using hshell.symm) (by simp)
  | createFailed => exact .outside rfl (past_sys2 hx) (by simp) (by simp)
  | init | create => exact .outside rfl rfl (by simp) (by simp)

theorem userStep_none (h : userStep a vm inp = some (c', vm', svc)) : svc = .none := by
  unfold userStep at h
  split at h
  · simp only [Option.map_eq_some_iff, Prod.mk.injEq] at h
    obtain ⟨_, _, _, _, rfl⟩ := h
    rfl
  · simp only [Option.map_eq_some_iff, Prod.mk.injEq] at h
    obtain ⟨_, _, _, _, rfl⟩ := h
    rfl
  · simp only [Option.some.injEq, Prod.mk.injEq] at h
    exact h.2.2.symm
  · exact absurd h (by simp)

/-- An exception is no statement of the call. -/
theorem silent_exception (hg : inp ≠ .go) (hs : ∀ w, inp ≠ .status w) :
    (Control.run code).Silent x a vm inp := by
  intro mem
  have hnil : code.entries a vm mem inp = [] := by
    cases inp with
    | go => exact absurd rfl hg
    | status w => exact absurd rfl (hs w)
    | refill | fault | trap | load | store | syscall | created =>
        cases code with
        | user => rfl
        | writeTerminal str len pt => cases pt <;> rfl
        | readTerminal buf pt => cases pt <;> rfl
  simp only [Control.entries, hnil, ite_self]

theorem codeStep_uses (hx : x.OfTerminal) (h : codeStep a vm code inp = some (c', vm', svc)) :
    Uses x a vm (.run code) inp c' vm' svc := by
  cases code with
  | user =>
      have hu : userStep a vm inp = some (c', vm', svc) := h
      apply Moves.uses hx (userStep_moves hu)
      intro code hc
      exact ⟨(Control.run.inj hc).symm, userStep_none hu⟩
  | writeTerminal => exact writeTerminalStep_uses hx h
  | readTerminal => exact readTerminalStep_uses hx h

theorem runStep_uses (hx : x.OfTerminal) (h : runStep a vm code inp = some (c', vm', svc)) :
    Uses x a vm (.run code) inp c' vm' svc := by
  cases inp with
  | refill va replaced =>
      simp only [runStep, refillStep, Option.ite_none_right_eq_some, Option.some.injEq,
        Prod.mk.injEq] at h
      obtain ⟨-, rfl, rfl, rfl⟩ := h
      exact uses_of_code rfl rfl (silent_exception (by simp) (by simp)) (by simp) (by simp)
  | fault va mod =>
      simp only [runStep, faultStep, Option.ite_none_right_eq_some, Option.some.injEq,
        Prod.mk.injEq] at h
      obtain ⟨-, rfl, rfl, rfl⟩ := h
      exact uses_of_code rfl (past_pager hx) (silent_exception (by simp) (by simp)) (by simp)
        (by simp)
  | trap =>
      simp only [runStep, trapStep, Option.ite_none_right_eq_some, Option.some.injEq,
        Prod.mk.injEq] at h
      obtain ⟨-, rfl, rfl, rfl⟩ := h
      exact uses_of_sys2 hx (silent_exception (by simp) (by simp)) (.inl rfl)
  | go | load | store | syscall | status | created =>
      exact codeStep_uses hx h

theorem next_uses (hx : x.OfTerminal) (h : next a vm c inp = some (c', vm', svc)) :
    Uses x a vm c inp c' vm' svc := by
  cases c with
  | run code => exact runStep_uses hx h
  | pager | sys2 | sys6 =>
      apply (next_moves h).uses hx
      intro code hc
      cases hc

theorem Moves.ne_initSemaphores {vm₀ : Vm} (h : Moves a vm₀ c inp c' vm svc) :
    svc ≠ .initSemaphores := by
  cases h <;> simp

/-- Where a U-proc stands after its step. -/
theorem uproc_self {s : State} {p parent : ℕ} (hlt : p < s.nextPid) (ht : svc ≠ .term) :
    ((s.move p ⟨parent, .uproc a c'⟩ vm).serve p svc).uproc p = some (a, c') :=
  State.uproc_of_proc (State.proc_self (Nat.ne_of_lt hlt) ht)

theorem State.granted_none {s : State} {p : ℕ} (h : s.service (p, inp) = svc) (h1 : svc ≠ .passeren x)
    (h2 : svc ≠ .verhogen x) : s.granted x (p, inp) = none := by
  unfold State.granted
  rw [h]
  cases svc with
  | passeren y => exact if_neg fun hy => h1 (by rw [hy.1])
  | verhogen y => exact if_neg fun hy => h2 (by rw [hy])
  | none | initSemaphores | create | term => rfl

end Moves
end PandOSsh.SupportLevel
