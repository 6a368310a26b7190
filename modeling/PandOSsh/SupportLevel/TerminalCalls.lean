import PandOSsh.SupportLevel.TerminalLog

/-!
# Calls of `writeTerminal` and `readTerminal`

What a call does between its P and its V, and what it has done when it stands at
some statement. The log of the transmitter is a concatenation of complete
strings, that of the receiver a concatenation of lines. The strings are those in
the memories of the callers, and the lines end up there.
-/

namespace PandOSsh.SupportLevel
open Library

namespace TermEntry

def sent? : TermEntry → Option Byte
  | transmits c => some c
  | _ => none

def received? : TermEntry → Option Word
  | receives w => some w
  | _ => none

def stored? : TermEntry → Option (Word × Byte)
  | stores va c => some (va, c)
  | _ => none

def returned? : TermEntry → Option ℤ
  | returns result _ => some result
  | _ => none

def isOpening : TermEntry → Bool
  | writes _ _ _ | reads _ _ => true
  | _ => false

end TermEntry

section Projections
variable (log : List (ℕ × TermEntry))

/-- The characters that went to the transmitter. -/
def sent : List Byte := log.filterMap fun t => t.2.sent?

/-- The statuses that came from the receiver. -/
def received : List Word := log.filterMap fun t => t.2.received?

/-- What the calls returned to whom. -/
def returned : List (ℕ × ℤ) := log.filterMap fun t => t.2.returned?.map fun r => (t.1, r)

/-- Who got the semaphore, in this order. -/
def acquired : List ℕ := log.filterMap fun t => if t.2.isOpening then some t.1 else none

end Projections

section Write

/-- A call, with the memory that its caller has when it gets the semaphore. -/
structure WriteCall where
  caller : ℕ
  str : Word
  len : ℕ
  mem : Word → Byte

/-- n bytes of a memory from an address on. -/
def bytes (mem : Word → Byte) (va : Word) (n : ℕ) : List Byte :=
  (List.range n).map fun i => mem (va + BitVec.ofNat 32 i)

/-- The rounds of the loop for the characters from the index i on. -/
def transmissions (str : Word) (i : ℕ) : List Byte → List TermEntry
  | [] => []
  | c :: cs => .loads (str + BitVec.ofNat 32 i) c :: .transmits c :: transmissions str (i + 1) cs

namespace WriteCall
variable (c : WriteCall)

/-- The string of the caller. -/
def text : List Byte := bytes c.mem c.str c.len

def entries : List TermEntry :=
  .writes c.str c.len c.mem :: transmissions c.str 0 c.text ++ [.returns c.len c.mem]

def log : List (ℕ × TermEntry) := c.entries.map fun t => (c.caller, t)

end WriteCall

/-- What a call of `writeTerminal` has done where it stands. -/
inductive Wrote (mem : Word → Byte) : Code → List TermEntry → Prop
  | head {str : Word} {len n : ℕ} {pt : WritePoint} (h : n ≤ len) (hpt : pt = nextChar len n) :
      Wrote mem (.writeTerminal str len pt)
        (.writes str len mem :: transmissions str 0 (bytes mem str n))
  | loaded {str : Word} {len i : ℕ} {c : Byte} (h : i < len)
      (hc : c = mem (str + BitVec.ofNat 32 i)) : Wrote mem (.writeTerminal str len (.transmit i c))
        (.writes str len mem :: transmissions str 0 (bytes mem str i) ++
          [.loads (str + BitVec.ofNat 32 i) c])

/-- The transmitter accepts the character. -/
def Transmits : Code → Input → Prop
  | .writeTerminal _ _ (.transmit _ _), .status w => w &&& 0xFF = okCharTrans
  | _, _ => True

def IsWrite (es : List TermEntry) : Prop := ∃ c : WriteCall, es = c.entries

variable {mem : Word → Byte} {str : Word} {len i n : ℕ} {code : Code} {es : List TermEntry}

@[simp] theorem length_bytes : (bytes mem str n).length = n := by
  rw [bytes, List.length_map, List.length_range]

theorem bytes_succ : bytes mem str (n + 1) =
    bytes mem str n ++ [mem (str + BitVec.ofNat 32 n)] := by
  rw [bytes, List.range_succ, List.map_append]
  rfl

theorem transmissions_append (xs ys : List Byte) : transmissions str i (xs ++ ys) =
    transmissions str i xs ++ transmissions str (i + xs.length) ys := by
  induction xs generalizing i with
  | nil => rfl
  | cons x xs ih =>
      rw [List.cons_append, transmissions, transmissions, ih, List.length_cons]
      rw [show i + 1 + xs.length = i + (xs.length + 1) by omega]
      rfl

/-- One more character. -/
theorem transmissions_succ : transmissions str 0 (bytes mem str (n + 1)) =
    transmissions str 0 (bytes mem str n) ++ [.loads (str + BitVec.ofNat 32 n)
      (mem (str + BitVec.ofNat 32 n)), .transmits (mem (str + BitVec.ofNat 32 n))] := by
  rw [bytes_succ, transmissions_append, length_bytes, Nat.zero_add]
  rfl

theorem nextChar_load (h : nextChar len n = .load i) : n < len ∧ i = n := by
  unfold nextChar at h
  split at h
  · next hlt =>
    cases h
    exact ⟨hlt, rfl⟩
  · cases h

theorem nextChar_verhogen {result : ℤ} (hle : n ≤ len) (h : nextChar len n = .verhogen result) :
    n = len ∧ result = n := by
  unfold nextChar at h
  split at h
  · cases h
  · next hlt =>
    cases h
    exact ⟨by omega, rfl⟩

/-- A call that has transmitted this much can transmit the rest. -/
theorem isWrite_rest (hn : n ≤ len) : ∃ es', es' ≠ [] ∧
    IsWrite (.writes str len mem :: transmissions str 0 (bytes mem str n) ++ es') := by
  induction hk : len - n generalizing n with
  | zero =>
      obtain rfl : n = len := by omega
      exact ⟨[.returns n mem], List.cons_ne_nil _ _, ⟨0, str, n, mem⟩, rfl⟩
  | succ k ih =>
      obtain ⟨es', -, hw⟩ := ih (n := n + 1) (by omega) (by omega)
      rw [transmissions_succ, ← List.cons_append, List.append_assoc] at hw
      exact ⟨_, by simp, hw⟩

theorem Wrote.goesOn (h : Wrote mem code es) : ∃ es', es' ≠ [] ∧ IsWrite (es ++ es') := by
  cases h with
  | head h _ => exact isWrite_rest h
  | @loaded str len i c h hc =>
      have hrest : ∃ es', es' ≠ [] ∧ IsWrite
          (.writes str len mem :: transmissions str 0 (bytes mem str (i + 1)) ++ es') :=
        isWrite_rest h
      obtain ⟨es', -, hw⟩ := hrest
      rw [transmissions_succ, ← List.cons_append, List.append_assoc] at hw
      refine ⟨.transmits c :: es', List.cons_ne_nil _ _, ?_⟩
      rw [List.append_assoc, hc]
      exact hw

/-- The next statement of a call. -/
theorem Wrote.step {a : Asid} {vm vm' : Vm} {inp : Input} {code' : Code} (h : Wrote mem code es)
    (hw : Works a vm code inp code' vm') (hok : Transmits code inp)
    (hload : ∀ va c, vm.load a va = some c → c = mem va) :
    Wrote mem code' (es ++ code.entries a vm mem inp) := by
  cases hw with
  | @load str len i c hl =>
      have hentries : (Code.writeTerminal str len (.load i)).entries a vm mem .go =
          [.loads (str + BitVec.ofNat 32 i) c] := by
        rw [Code.entries, hl]
        rfl
      cases h with
      | head hle hpt =>
          obtain ⟨hlt, rfl⟩ := nextChar_load hpt.symm
          rw [hentries]
          exact .loaded hlt (hload _ _ hl)
  | @transmit str len i c w =>
      cases h with
      | head hle hpt =>
          unfold nextChar at hpt
          split at hpt
          · cases hpt
          · cases hpt
      | loaded hlt hc =>
          have hhead : Wrote mem (.writeTerminal str len (nextChar len (i + 1)))
              (.writes str len mem :: transmissions str 0 (bytes mem str (i + 1))) :=
            .head hlt rfl
          have hstatus : w &&& 0xFF = okCharTrans := hok
          rw [if_pos hstatus, List.append_assoc, hc]
          rw [transmissions_succ] at hhead
          exact hhead
  | receive | store | skip => cases h

/-- `writeTerminal` sends its string, if every transmission succeeds. -/
theorem write_discipline : Discipline .termWriteSemaphore Transmits Wrote IsWrite where
  starts := by
    intro code code' h mem
    cases h with
    | @write str len => exact ⟨.writes str len mem, rfl, .head (n := 0) (Nat.zero_le len) rfl⟩
  works := by
    intro a vm mem code inp code' vm' es hw hok hload hd
    have hsame : code.after inp mem = mem := by
      cases hd <;> cases inp <;> rfl
    rw [hsame]
    exact hd.step hw hok hload
  ends := by
    intro a vm mem code es he hd
    cases he with
    | @write str len result =>
        cases hd with
        | head hle hpt =>
            obtain ⟨rfl, rfl⟩ := nextChar_verhogen hle hpt.symm
            exact ⟨⟨0, str, _, mem⟩, rfl⟩
  goesOn := Wrote.goesOn

/-- The runs in which every transmission succeeds. -/
def writeRuns : System ((State × Set Asid) × (Memory × List (ℕ × TermEntry))) Event :=
  (terminalRuns .termWriteSemaphore).restrict fun y e => Complies Transmits y.1.1 e

/-- The log is that of these calls one after the other, and `rest`, the beginning of
one more, whose caller has the semaphore. -/
structure Written (s : State) (log : List (ℕ × TermEntry)) (cs : List WriteCall)
    (rest : List (ℕ × TermEntry)) : Prop where
  calls : log = cs.flatMap WriteCall.log ++ rest
  unfinished : rest = [] ∨ ∃ c : WriteCall, rest <+: c.log ∧ rest ≠ c.log ∧ sent rest <+: c.text ∧
    (s.sem .termWriteSemaphore).Holds (s.past .termWriteSemaphore) c.caller
  free : (s.sem .termWriteSemaphore).value = 1 → rest = []
  sent : sent log = (cs.flatMap fun c => c.text) ++ sent rest
  acquired : acquired log = (cs.map fun c => c.caller) ++ acquired rest
  returned : returned log = cs.map fun c => (c.caller, (c.text.length : ℤ))

section Log
variable (c : WriteCall) {rest : List (ℕ × TermEntry)}

theorem sent_transmissions (p : ℕ) (str : Word) (i : ℕ) (text : List Byte) :
    sent ((transmissions str i text).map fun t => (p, t)) = text := by
  induction text generalizing i with
  | nil => rfl
  | cons c cs ih => exact congrArg (List.cons c) (ih (i + 1))

theorem filterMap_transmissions {β : Type} {f : ℕ × TermEntry → Option β}
    (hl : ∀ p va c, f (p, .loads va c) = none) (ht : ∀ p c, f (p, .transmits c) = none)
    (p : ℕ) (str : Word) (i : ℕ) (text : List Byte) :
    ((transmissions str i text).map fun t => (p, t)).filterMap f = [] := by
  induction text generalizing i with
  | nil => rfl
  | cons c cs ih =>
      rw [transmissions, List.map_cons, List.map_cons, List.filterMap_cons_none (hl p _ c),
        List.filterMap_cons_none (ht p c)]
      exact ih (i + 1)

theorem WriteCall.log_eq : c.log = (c.caller, .writes c.str c.len c.mem) ::
    ((transmissions c.str 0 c.text).map fun t => (c.caller, t)) ++
      [(c.caller, .returns c.len c.mem)] := by
  rw [WriteCall.log, WriteCall.entries, List.map_append, List.map_cons]
  rfl

theorem WriteCall.sent_log : sent c.log = c.text := by
  rw [c.log_eq, sent, List.filterMap_append, List.filterMap_cons_none rfl]
  change sent _ ++ [] = c.text
  rw [sent_transmissions, List.append_nil]

theorem WriteCall.acquired_log : acquired c.log = [c.caller] := by
  have hnone : acquired ((transmissions c.str 0 c.text).map fun t => (c.caller, t)) = [] :=
    filterMap_transmissions (fun _ _ _ => rfl) (fun _ _ => rfl) _ _ _ _
  rw [c.log_eq, acquired, List.filterMap_append]
  change c.caller :: acquired _ ++ [] = _
  rw [hnone]
  rfl

/-- Only a complete call has returned. -/
theorem WriteCall.returned_log :
    returned c.log = [(c.caller, (c.text.length : ℤ))] := by
  rw [c.log_eq, returned, List.filterMap_append, List.filterMap_cons_none rfl,
    filterMap_transmissions (fun _ _ _ => rfl) fun _ _ => rfl, text, length_bytes]
  rfl

theorem WriteCall.returned_of_prefix (h : rest <+: c.log) (hne : rest ≠ c.log) :
    returned rest = [] := by
  rw [c.log_eq] at h hne
  rcases List.prefix_concat_iff.mp h with he | hpre
  · exact absurd he hne
  · have hnil := hpre.filterMap fun t : ℕ × TermEntry => t.2.returned?.map fun r => (t.1, r)
    rw [List.filterMap_cons_none rfl,
      filterMap_transmissions (fun _ _ _ => rfl) fun _ _ => rfl] at hnil
    exact List.prefix_nil.mp hnil

end Log

/-- Terminal output is not interleaved: the characters sent are the strings of the callers,
one for each call, in the order in which the calls got the semaphore, and what the call that
has it now has sent. A call returns the length of its string. -/
theorem output_not_interleaved {y : (State × Set Asid) × (Memory × List (ℕ × TermEntry))}
    (h : (writeRuns.restrict fun y e => Undisturbed y.1 e).Reachable y) :
    ∃ cs rest, Written y.1.1 y.2.2 cs rest := by
  obtain ⟨-, hlog⟩ := terminalLog_reachable (.inl rfl) write_discipline h.restrict_and
  have hcall : ∀ c : Session ℕ TermEntry, IsWrite c.entries →
      ∃ w : WriteCall, w.log = c.log ∧ w.caller = c.owner := by
    rintro ⟨owner, es⟩ ⟨w, rfl⟩
    exact ⟨⟨owner, w.str, w.len, w.mem⟩, rfl, rfl⟩
  obtain ⟨cs, rest, heq, hrest⟩ := hlog.logged.calls hcall
  have hreturned : returned rest = [] := by
    rcases hrest with rfl | ⟨_, w, hpre, hne, _⟩
    · rfl
    · exact w.returned_of_prefix hpre hne
  refine ⟨cs, rest, ?_⟩
  constructor
  · exact heq
  · rcases hrest with hnil | ⟨hz, w, hpre, hne, hown⟩
    · exact .inl hnil
    · obtain ⟨p, hp⟩ := hlog.owned.owned hz
      refine .inr ⟨w, hpre, hne, ?_, hown p hp ▸ hp⟩
      rw [← w.sent_log]
      exact hpre.filterMap _
  · intro hv
    rcases hrest with hnil | ⟨hz, _⟩
    · exact hnil
    · rw [hz] at hv
      exact absurd hv (by decide)
  · rw [heq, sent, List.filterMap_append, List.filterMap_flatMap]
    exact congrArg (· ++ sent rest) (congrArg cs.flatMap (funext WriteCall.sent_log))
  · rw [heq, acquired, List.filterMap_append, List.filterMap_flatMap]
    apply congrArg (· ++ acquired rest)
    rw [← List.flatMap_pure_eq_map]
    exact congrArg cs.flatMap (funext WriteCall.acquired_log)
  · rw [heq, returned, List.filterMap_append, List.filterMap_flatMap]
    change _ ++ returned rest = _
    rw [hreturned, List.append_nil, ← List.flatMap_pure_eq_map]
    exact congrArg cs.flatMap (funext WriteCall.returned_log)

end Write

section Concrete

/-- `p` faults on an address, and the pager reads the page into a free frame. -/
def servedFault (p : ℕ) (va : Word) : List Event := faultEvents p va ++ loadEvents p

/-- Two calls; the second one waits until the first one has sent its two characters. -/
def twoWriters : List Event :=
  [(2, .syscall 4 0x80000000 2), (2, .go), (3, .syscall 4 0x80000000 1), (3, .go)] ++
    servedFault 2 0x80000000 ++
      [(2, .go), (2, .status 5), (2, .go), (2, .status 5), (2, .go)]

def transmitting (s : State) (e : Event) : Bool :=
  (s.uproc e.1).all fun r =>
    match r.2, e.2 with
    | .run (.writeTerminal _ _ (.transmit _ _)), .status w => w &&& 0xFF == okCharTrans
    | _, _ => true

theorem complies_of_transmitting {s : State} {e : Event} (h : transmitting s e = true) :
    Complies Transmits s e := by
  intro a code hu
  rw [transmitting, hu, Option.all_some] at h
  cases code with
  | user | readTerminal => trivial
  | writeTerminal str len pt =>
      cases pt with
      | passeren | load | verhogen => trivial
      | transmit i c =>
          obtain ⟨p, inp⟩ := e
          cases inp with
          | status w => exact eq_of_beq h
          | go | load | store | refill | fault | trap | syscall | created => trivial

/-- The first string is sent, and the second call has got the semaphore. -/
theorem output_not_interleaved_two :
    ∃ y : (State × Set Asid) × (Memory × List (ℕ × TermEntry)),
      sent y.2.2 = [0x41, 0x41] ∧ acquired y.2.2 = [2, 3] ∧
        ∃ cs rest, Written y.1.1 y.2.2 cs rest := by
  have hrun : (logOf .termWriteSemaphore (fun s e => transmitting s e && undisturbed s e) 1 2
      (fun _ _ _ => 0x41) twoWriters).any
        (fun y => sent y.2.2 = [0x41, 0x41] ∧ acquired y.2.2 = [2, 3]) = true := by
    decide +kernel
  obtain ⟨y, hy, hcheck⟩ := (Option.any_eq_true _ _).mp hrun
  obtain ⟨hsent, hacq⟩ := of_decide_eq_true hcheck
  have hreach : ((terminalRuns .termWriteSemaphore).restrict fun y e =>
      Complies Transmits y.1.1 e ∧ Undisturbed y.1 e).Reachable ((y.1.1, (y.1.2 : Set Asid)), y.2) := by
    refine logOf_reachable (fun y e h => ?_) (by decide) hy
    obtain ⟨ht, hu⟩ := Bool.and_eq_true_iff.mp h
    exact ⟨complies_of_transmitting ht, undisturbed_sound hu⟩
  exact ⟨_, hsent, hacq, output_not_interleaved hreach.restrict_restrict⟩

/-- A page fault that evicts a page whose FLASHWRITE fails, after the P on `swapSemaphore`. -/
def failedReplace (p : ℕ) : List Event :=
  [(p, .go), (p, .go), (p, .go), (p, .status 4), (p, .status 1), (p, .go), (p, .go), (p, .go), (p, .go)]

/-- A U-proc stores a character to its first page, which is evicted for another one, and sends
it. -/
def lostWrite : List Event :=
  fillEvents ++ (2, .store 0x80000000 0x2A) :: faultEvents 2 0x80010000 ++ failedReplace 2 ++
    [(2, .syscall 4 0x80000000 1), (2, .go), (2, .fault 0x80000000 false), (2, .go), (2, .go)] ++
      replaceEvents 2 ++ [(2, .go), (2, .status 5), (2, .go)]

/-- The call is about to write this one character of the memory of its caller. -/
def opensWith (va : Word) (c : Byte) (log : List (ℕ × TermEntry)) : Bool :=
  log.head?.any fun t =>
    match t.2 with
    | .writes str len mem => str == va && len == 1 && mem va == c
    | _ => false

/-- One call whose string is not what was sent. -/
theorem not_written {s : State} {log : List (ℕ × TermEntry)} {p : ℕ} {va : Word} {c d : Byte}
    (hret : returned log = [(p, 1)]) (hsent : sent log = [d]) (hopen : opensWith va c log = true)
    (hne : c ≠ d) : ¬ ∃ cs rest, Written s log cs rest := by
  rintro ⟨cs, rest, h⟩
  obtain ⟨w, rfl⟩ : ∃ w, cs = [w] := by
    have hlen := congrArg List.length (h.returned.symm.trans hret)
    rw [List.length_map] at hlen
    exact List.length_eq_one_iff.mp hlen
  have hfirst : log.head? = some (w.caller, .writes w.str w.len w.mem) := by
    rw [h.calls, List.flatMap_singleton, w.log_eq]
    rfl
  rw [opensWith, hfirst, Option.any_some] at hopen
  simp only [Bool.and_eq_true, beq_iff_eq] at hopen
  obtain ⟨⟨hstr, hlen⟩, hmem⟩ := hopen
  have htext : w.text = [c] := by
    rw [WriteCall.text, hstr, hlen, bytes, ← hmem]
    simp
  have hhead := h.sent
  rw [hsent, List.flatMap_singleton, htext] at hhead
  exact hne (List.cons.inj hhead).1.symm

/-- A failed FLASHWRITE loses the string, and the U-proc sends what its flash device has. -/
theorem output_lost : ∃ y, writeRuns.Reachable y ∧ returned y.2.2 = [(2, 1)] ∧
    sent y.2.2 = [0x11] ∧ opensWith 0x80000000 0x2A y.2.2 = true ∧
      ¬ ∃ cs rest, Written y.1.1 y.2.2 cs rest := by
  have hrun : (logOf .termWriteSemaphore transmitting 0 1 (fun _ _ _ => 0x11) lostWrite).any
      (fun y => (returned y.2.2 = [(2, 1)] ∧ sent y.2.2 = [0x11]) ∧
        opensWith 0x80000000 0x2A y.2.2 = true) = true := by
    decide +kernel
  obtain ⟨y, hy, hcheck⟩ := (Option.any_eq_true _ _).mp hrun
  obtain ⟨⟨hret, hsent⟩, hopen⟩ := of_decide_eq_true hcheck
  have hreach : writeRuns.Reachable ((y.1.1, (y.1.2 : Set Asid)), y.2) :=
    logOf_reachable (fun _ _ => complies_of_transmitting) (by decide) hy
  exact ⟨_, hreach, hret, hsent, hopen, not_written hret hsent hopen (by decide)⟩

end Concrete

section Read

/-- A character has been received. -/
def IsChar (w : Word) : Prop := w &&& 0xFF = charRecv

instance (w : Word) : Decidable (IsChar w) := inferInstanceAs (Decidable (_ = _))

def charOf (w : Word) : Byte := w.extractLsb' 8 8

/-- The characters that fit in the buffer, of n characters received. -/
def fitting (n : ℕ) : ℕ := min n maxStrLeng.toNat

/-- The characters that fit in the buffer, of those in these statuses. -/
def keptChars (ws : List Word) : List Byte := (ws.map charOf).take maxStrLeng.toNat

/-- A memory with these bytes from an address on. -/
def put (mem : Word → Byte) (va : Word) (cs : List Byte) : Word → Byte :=
  fun va' => (cs[(va' - va).toNat]?).getD (mem va')

/-- A call, with the memory that its caller has when it gets the semaphore. The last status is
that of a newline, or is no CHARRECV. -/
structure ReadCall where
  caller : ℕ
  buf : Word
  before : Word → Byte
  chars : List Word
  last : Word
  isChar : ∀ w ∈ chars, IsChar w ∧ charOf w ≠ 10
  ends : IsChar last → charOf last = 10

/-- The character is stored as long as the buffer is not full. -/
def keeping (buf : Word) (n : ℕ) (w : Word) : List TermEntry :=
  if (n : ℤ) < maxStrLeng then [.stores (buf + BitVec.ofNat 32 n) (charOf w)] else []

/-- The rounds of the loop for these statuses, after n characters. -/
def receptions (buf : Word) (n : ℕ) : List Word → List TermEntry
  | [] => []
  | w :: ws => .receives w :: (keeping buf n w ++ receptions buf (n + 1) ws)

namespace ReadCall
variable (c : ReadCall)

/-- The part of the stream that the call consumes. -/
def statuses : List Word := c.chars ++ [c.last]

/-- The line, with its newline. -/
def line : List Byte := c.statuses.map charOf

def result : ℤ := if IsChar c.last then fitting c.line.length else statusError c.last

/-- The memory of the caller when the call returns. -/
def after : Word → Byte :=
  put c.before c.buf (keptChars (if IsChar c.last then c.statuses else c.chars))

def entries : List TermEntry :=
  .reads c.buf c.before :: receptions c.buf 0 c.chars ++
    (if IsChar c.last then receptions c.buf c.chars.length [c.last] else [.receives c.last]) ++
    [.returns c.result c.after]

def log : List (ℕ × TermEntry) := c.entries.map fun t => (c.caller, t)

end ReadCall

/-- What a call of `readTerminal` has done where it stands. -/
inductive HasRead (mem : Word → Byte) : Code → List TermEntry → Prop
  | head {buf : Word} {before : Word → Byte} {pt : ReadPoint} {ws : List Word}
      (hw : ∀ w ∈ ws, IsChar w ∧ charOf w ≠ 10) (hm : mem = put before buf (keptChars ws))
      (hpt : pt = .receive (fitting ws.length)) :
      HasRead mem (.readTerminal buf pt) (.reads buf before :: receptions buf 0 ws)
  | got {buf w : Word} {before : Word → Byte} {pt : ReadPoint} {ws : List Word}
      (hw : ∀ w ∈ ws, IsChar w ∧ charOf w ≠ 10) (hm : mem = put before buf (keptChars ws))
      (hc : IsChar w) (hpt : pt = .store (fitting ws.length) (charOf w)) :
      HasRead mem (.readTerminal buf pt)
        (.reads buf before :: receptions buf 0 ws ++ [.receives w])
  | ended {buf w : Word} {before : Word → Byte} {pt : ReadPoint} {ws : List Word}
      (hw : ∀ w ∈ ws, IsChar w ∧ charOf w ≠ 10)
      (hm : mem = put before buf (keptChars (ws ++ [w]))) (hc : IsChar w) (hn : charOf w = 10)
      (hpt : pt = .verhogen (fitting (ws.length + 1))) :
      HasRead mem (.readTerminal buf pt)
        (.reads buf before :: receptions buf 0 ws ++ receptions buf ws.length [w])
  | failed {buf w : Word} {before : Word → Byte} {pt : ReadPoint} {ws : List Word}
      (hw : ∀ w ∈ ws, IsChar w ∧ charOf w ≠ 10) (hm : mem = put before buf (keptChars ws))
      (hc : ¬ IsChar w) (hpt : pt = .verhogen (statusError w)) :
      HasRead mem (.readTerminal buf pt)
        (.reads buf before :: receptions buf 0 ws ++ [.receives w])

def IsRead (es : List TermEntry) : Prop := ∃ c : ReadCall, es = c.entries

variable {buf : Word} {n : ℕ} {ws : List Word} {w : Word} {code : Code} {es : List TermEntry}
  {mem before : Word → Byte}

@[simp] theorem put_nil : put mem buf [] = mem := by
  funext va
  simp [put]

/-- One more byte is a store behind the others. -/
theorem put_snoc {cs : List Byte} {b : Byte} (h : cs.length < 2 ^ 32) : put mem buf (cs ++ [b]) =
    Function.update (put mem buf cs) (buf + BitVec.ofNat 32 cs.length) b := by
  funext va
  by_cases hva : va = buf + BitVec.ofNat 32 cs.length
  · have hi : (va - buf).toNat = cs.length := by
      rw [hva, add_sub_cancel_left, BitVec.toNat_ofNat, Nat.mod_eq_of_lt h]
    rw [hva, Function.update_self, ← hva, put, hi]
    simp
  · have hi : (va - buf).toNat ≠ cs.length := by
      intro he
      apply hva
      rw [← he, BitVec.ofNat_toNat, BitVec.setWidth_eq, add_sub_cancel]
    rw [Function.update_of_ne hva, put, put, List.getElem?_append]
    split
    · rfl
    · next hlt =>
      have hnone : cs[(va - buf).toNat]? = none := List.getElem?_eq_none (by omega)
      have hone : [b][(va - buf).toNat - cs.length]? = none := by
        apply List.getElem?_eq_none
        rw [List.length_singleton]
        omega
      rw [hnone, hone]

theorem keptChars_snoc (h : ws.length < maxStrLeng.toNat) :
    keptChars (ws ++ [w]) = keptChars ws ++ [charOf w] := by
  have hlen : (ws.map charOf).length < maxStrLeng.toNat := by rwa [List.length_map]
  rw [keptChars, keptChars, List.map_append, List.map_cons, List.map_nil,
    List.take_of_length_le hlen.le, List.take_of_length_le]
  rw [List.length_append, List.length_singleton]
  omega

theorem keptChars_full (h : maxStrLeng.toNat ≤ ws.length) :
    keptChars (ws ++ [w]) = keptChars ws := by
  rw [keptChars, keptChars, List.map_append, List.take_append_of_le_length]
  rwa [List.length_map]

theorem receptions_append (xs ys : List Word) : receptions buf n (xs ++ ys) =
    receptions buf n xs ++ receptions buf (n + xs.length) ys := by
  induction xs generalizing n with
  | nil => rfl
  | cons x xs ih =>
      rw [List.cons_append, receptions, receptions, ih, List.length_cons,
        show n + 1 + xs.length = n + (xs.length + 1) by omega, List.cons_append, List.append_assoc]

theorem receptions_singleton : receptions buf n [w] = .receives w :: keeping buf n w := by
  rw [receptions, receptions, List.append_nil]

theorem receptions_snoc : receptions buf 0 (ws ++ [w]) =
    receptions buf 0 ws ++ receptions buf ws.length [w] := by
  rw [receptions_append, Nat.zero_add]

/-- A call that has received a line, but for the newline. -/
theorem isRead_newline (hw : ∀ w ∈ ws, IsChar w ∧ charOf w ≠ 10) (hc : IsChar w)
    (hn : charOf w = 10) : IsRead (.reads buf before :: receptions buf 0 ws ++
      receptions buf ws.length [w] ++ [.returns (fitting (ws.length + 1))
        (put before buf (keptChars (ws ++ [w])))]) := by
  refine ⟨⟨0, buf, before, ws, w, hw, fun _ => hn⟩, ?_⟩
  have hlen : (ws ++ [w]).length = ws.length + 1 := by simp
  rw [ReadCall.entries, ReadCall.result, ReadCall.after, ReadCall.line, ReadCall.statuses,
    if_pos hc, if_pos hc, if_pos hc, List.length_map, hlen]

theorem isRead_failed (hw : ∀ w ∈ ws, IsChar w ∧ charOf w ≠ 10) (hc : ¬ IsChar w) :
    IsRead (.reads buf before :: receptions buf 0 ws ++ [.receives w] ++
      [.returns (statusError w) (put before buf (keptChars ws))]) := by
  refine ⟨⟨0, buf, before, ws, w, hw, fun h => absurd h hc⟩, ?_⟩
  rw [ReadCall.entries, ReadCall.result, ReadCall.after, if_neg hc, if_neg hc, if_neg hc]

theorem forall_snoc (hw : ∀ w ∈ ws, IsChar w ∧ charOf w ≠ 10) (hc : IsChar w)
    (hn : charOf w ≠ 10) : ∀ v ∈ ws ++ [w], IsChar v ∧ charOf v ≠ 10 := by
  intro v hv
  rcases List.mem_append.mp hv with hv | hv
  · exact hw v hv
  · rw [List.mem_singleton.mp hv]
    exact ⟨hc, hn⟩

theorem round_entries : .reads buf before :: receptions buf 0 ws ++ [.receives w] ++
    keeping buf ws.length w =
      .reads buf before :: receptions buf 0 ws ++ receptions buf ws.length [w] := by
  rw [receptions_singleton, List.append_assoc, List.singleton_append]

/-- The end of a round. -/
theorem HasRead.round (hw : ∀ w ∈ ws, IsChar w ∧ charOf w ≠ 10) (hc : IsChar w)
    (hm : mem = put before buf (keptChars (ws ++ [w]))) :
    HasRead mem (.readTerminal buf (afterChar (fitting (ws.length + 1)) (charOf w)))
      (.reads buf before :: receptions buf 0 ws ++ [.receives w] ++ keeping buf ws.length w) := by
  rw [round_entries]
  unfold afterChar
  split
  · next hn => exact .ended hw hm hc hn rfl
  · next hn =>
    have hlen : (ws ++ [w]).length = ws.length + 1 := by simp
    rw [List.cons_append, ← receptions_snoc, ← hlen]
    exact .head (forall_snoc hw hc hn) hm rfl

theorem HasRead.goesOn (h : HasRead mem code es) : ∃ es', es' ≠ [] ∧ IsRead (es ++ es') := by
  have hnewline : IsChar 0xA05 ∧ charOf 0xA05 = 10 := by decide
  have hhead : ∀ (buf : Word) (before : Word → Byte) {ws : List Word},
      (∀ w ∈ ws, IsChar w ∧ charOf w ≠ 10) → ∃ es', es' ≠ [] ∧
        IsRead (.reads buf before :: receptions buf 0 ws ++ es') := by
    intro buf before ws hw
    refine ⟨receptions buf ws.length [0xA05] ++ [.returns (fitting (ws.length + 1))
      (put before buf (keptChars (ws ++ [0xA05])))], by simp, ?_⟩
    rw [← List.append_assoc]
    exact isRead_newline hw hnewline.1 hnewline.2
  cases h with
  | head hw hm hpt => exact hhead _ _ hw
  | @got buf w before _ ws hw hm hc hpt =>
      by_cases hn : charOf w = 10
      · refine ⟨keeping buf ws.length w ++ [.returns (fitting (ws.length + 1))
          (put before buf (keptChars (ws ++ [w])))], by simp, ?_⟩
        rw [← List.append_assoc, round_entries]
        exact isRead_newline hw hc hn
      · obtain ⟨es', hne, hes'⟩ := hhead buf before (forall_snoc hw hc hn)
        refine ⟨keeping buf ws.length w ++ es', by simp [hne], ?_⟩
        rw [← List.append_assoc, round_entries, List.cons_append, ← receptions_snoc]
        exact hes'
  | ended hw hm hc hn hpt => exact ⟨_, by simp, isRead_newline hw hc hn⟩
  | failed hw hm hc hpt => exact ⟨_, by simp, isRead_failed hw hc⟩

/-- The next statement of a call. -/
theorem HasRead.step {a : Asid} {vm vm' : Vm} {inp : Input} {code' : Code}
    (h : HasRead mem code es) (hw : Works a vm code inp code' vm') :
    HasRead (code.after inp mem) code' (es ++ code.entries a vm mem inp) := by
  have hmax : maxStrLeng = 128 := rfl
  cases hw with
  | load | transmit => cases h
  | @receive buf received w =>
      cases h with
      | head hws hm hpt =>
          cases hpt
          change HasRead mem _ (_ ++ [TermEntry.receives w])
          split
          · next hc => exact .got hws hm hc rfl
          · next hc => exact .failed hws hm hc rfl
      | got _ _ _ hpt | ended _ _ _ _ hpt | failed _ _ _ hpt => cases hpt
  | @store buf received c vm' hn hs =>
      cases h with
      | @got _ w before _ ws hws hm hc hpt =>
          cases hpt
          have hlen : fitting ws.length = ws.length := by unfold fitting at hn ⊢; omega
          have hlen' : fitting ws.length + 1 = fitting (ws.length + 1) := by
            unfold fitting at hn ⊢
            omega
          have hentries : (Code.readTerminal buf (.store (fitting ws.length) (charOf w))).entries a vm
              mem .go = keeping buf ws.length w := by
            rw [Code.entries, if_pos hn, keeping, hlen, if_pos (hlen ▸ hn)]
          have hkept : (keptChars ws).length = ws.length := by
            rw [keptChars, List.length_take, List.length_map]
            omega
          have hafter : (Code.readTerminal buf (.store (fitting ws.length) (charOf w))).after .go mem =
              put before buf (keptChars (ws ++ [w])) := by
            rw [keptChars_snoc (by omega), put_snoc (by omega), hkept, Code.after, Code.storing,
              if_pos hn, hlen, hm]
            rfl
          rw [hlen', hentries]
          exact .round hws hc hafter
      | head _ _ hpt | ended _ _ _ _ hpt | failed _ _ _ hpt => cases hpt
  | @skip buf received c hn =>
      cases h with
      | @got _ w before _ ws hws hm hc hpt =>
          cases hpt
          have hlen : fitting ws.length = fitting (ws.length + 1) := by
            unfold fitting at hn ⊢
            omega
          have hfull : ¬ (ws.length : ℤ) < maxStrLeng := by
            unfold fitting at hn
            omega
          have hentries : (Code.readTerminal buf (.store (fitting ws.length) (charOf w))).entries a vm
              mem .go = keeping buf ws.length w := by
            rw [Code.entries, if_neg hn, keeping, if_neg hfull]
          have hafter : (Code.readTerminal buf (.store (fitting ws.length) (charOf w))).after .go mem =
              put before buf (keptChars (ws ++ [w])) := by
            rw [keptChars_full (by omega), Code.after, Code.storing, if_neg hn, hm]
            rfl
          rw [hentries]
          have hround := HasRead.round hws hc hafter
          rw [← hlen] at hround
          exact hround
      | head _ _ hpt | ended _ _ _ _ hpt | failed _ _ _ hpt => cases hpt

/-- `readTerminal` reads its line, whatever the receiver returns. -/
theorem read_discipline : Discipline .termReadSemaphore (fun _ _ => True) HasRead IsRead where
  starts := by
    intro code code' h mem
    cases h with
    | @read buf =>
        have hnil : mem = put mem buf (keptChars []) := put_nil.symm
        exact ⟨.reads buf mem, rfl, .head (List.forall_mem_nil _) hnil rfl⟩
  works := by
    intro a vm mem code inp code' vm' es hw _ _ hd
    exact hd.step hw
  ends := by
    intro a vm mem code es he hd
    cases he with
    | read =>
        cases hd with
        | head _ _ hpt | got _ _ _ hpt => cases hpt
        | ended hw hm hc hn hpt =>
            cases hpt
            rw [hm]
            exact isRead_newline hw hc hn
        | failed hw hm hc hpt =>
            cases hpt
            rw [hm]
            exact isRead_failed hw hc
  goesOn := HasRead.goesOn

/-- What the calls stored. -/
def stored (log : List (ℕ × TermEntry)) : List (Word × Byte) := log.filterMap fun t => t.2.stored?

/-- The log is that of these calls one after the other, and `rest`, the beginning of
one more, whose caller has the semaphore. -/
structure HasLines (s : State) (log : List (ℕ × TermEntry)) (cs : List ReadCall)
    (rest : List (ℕ × TermEntry)) : Prop where
  calls : log = cs.flatMap ReadCall.log ++ rest
  unfinished : rest = [] ∨ ∃ c : ReadCall, rest <+: c.log ∧ rest ≠ c.log ∧
    (s.sem .termReadSemaphore).Holds (s.past .termReadSemaphore) c.caller
  free : (s.sem .termReadSemaphore).value = 1 → rest = []
  stream : received log = (cs.flatMap fun c => c.statuses) ++ received rest
  acquired : acquired log = (cs.map fun c => c.caller) ++ acquired rest
  returned : returned log = cs.map fun c => (c.caller, c.result)
  success : ∀ c ∈ cs, IsChar c.last → c.result = min (c.line.length : ℤ) maxStrLeng ∧
    c.after = put c.before c.buf (c.line.take maxStrLeng.toNat) ∧
    stored c.log = (c.line.take maxStrLeng.toNat).zipIdx.map
      fun x => (c.buf + BitVec.ofNat 32 x.2, x.1)
  failure : ∀ c ∈ cs, ¬ IsChar c.last → c.result = -(c.last &&& 0xFF).toInt

section Log
variable (c : ReadCall) {rest : List (ℕ × TermEntry)}

theorem received_append (l l' : List (ℕ × TermEntry)) :
    received (l ++ l') = received l ++ received l' := List.filterMap_append

theorem stored_append (l l' : List (ℕ × TermEntry)) : stored (l ++ l') = stored l ++ stored l' :=
  List.filterMap_append

theorem received_receptions (p : ℕ) (buf : Word) (n : ℕ) (ws : List Word) :
    received ((receptions buf n ws).map fun t => (p, t)) = ws := by
  induction ws generalizing n with
  | nil => rfl
  | cons w ws ih =>
      have hkeep : received ((keeping buf n w).map fun t => (p, t)) = [] := by
        unfold keeping
        split
        · rfl
        · rfl
      have hfirst : ∀ l, received ((p, .receives w) :: l) = w :: received l := fun l => rfl
      rw [receptions, List.map_cons, List.map_append, hfirst, received_append, hkeep, ih]
      rfl

/-- The characters go to the buffer one after the other, until it is full. -/
theorem stored_receptions (p : ℕ) (buf : Word) (n : ℕ) (ws : List Word) :
    stored ((receptions buf n ws).map fun t => (p, t)) =
      (((ws.map charOf).take (maxStrLeng.toNat - n)).zipIdx n).map
        fun x => (buf + BitVec.ofNat 32 x.2, x.1) := by
  induction ws generalizing n with
  | nil => simp [receptions, stored]
  | cons w ws ih =>
      have hmax : maxStrLeng = 128 := rfl
      have hskip : ∀ l, stored ((p, .receives w) :: l) = stored l := fun l => rfl
      rw [receptions, List.map_cons, List.map_append, hskip, stored_append]
      by_cases hn : (n : ℤ) < maxStrLeng
      · have hleft : maxStrLeng.toNat - n = maxStrLeng.toNat - (n + 1) + 1 := by omega
        have hchars : (w :: ws).map charOf = charOf w :: ws.map charOf := rfl
        rw [keeping, if_pos hn, hleft, hchars, List.take_succ_cons, List.zipIdx_cons]
        exact congrArg (List.cons _) (ih (n + 1))
      · have hz : maxStrLeng.toNat - n = 0 := by omega
        have hz' : maxStrLeng.toNat - (n + 1) = 0 := by omega
        have hrest := ih (n + 1)
        rw [hz'] at hrest
        rw [keeping, if_neg hn, hz]
        exact hrest

theorem filterMap_receptions {β : Type} {f : ℕ × TermEntry → Option β}
    (hr : ∀ p w, f (p, .receives w) = none) (hs : ∀ p va c, f (p, .stores va c) = none)
    (p : ℕ) (buf : Word) (n : ℕ) (ws : List Word) :
    ((receptions buf n ws).map fun t => (p, t)).filterMap f = [] := by
  induction ws generalizing n with
  | nil => rfl
  | cons w ws ih =>
      have hkeep : ((keeping buf n w).map fun t => (p, t)).filterMap f = [] := by
        unfold keeping
        split
        · exact List.filterMap_cons_none (hs p _ _)
        · rfl
      rw [receptions, List.map_cons, List.map_append, List.filterMap_cons_none (hr p w),
        List.filterMap_append, hkeep, ih]
      rfl

theorem ReadCall.log_eq : c.log = (c.caller, .reads c.buf c.before) ::
    ((receptions c.buf 0 c.chars).map fun t => (c.caller, t)) ++
      ((if IsChar c.last then receptions c.buf c.chars.length [c.last] else [.receives c.last]).map
        fun t => (c.caller, t)) ++ [(c.caller, .returns c.result c.after)] := by
  rw [ReadCall.log, ReadCall.entries, List.map_append, List.map_append, List.map_cons]
  rfl

theorem ReadCall.received_log : received c.log = c.statuses := by
  have hlast : received ((if IsChar c.last then receptions c.buf c.chars.length [c.last]
      else [.receives c.last]).map fun t => (c.caller, t)) = [c.last] := by
    split
    · exact received_receptions _ _ _ _
    · rfl
  have hskip : ∀ l, received ((c.caller, .reads c.buf c.before) :: l) = received l := fun l => rfl
  rw [c.log_eq, received_append, received_append, hskip, received_receptions, hlast]
  exact List.append_nil _

/-- The last round stores at most. -/
theorem ReadCall.filterMap_last {β : Type} {f : ℕ × TermEntry → Option β}
    (hr : ∀ p w, f (p, .receives w) = none) (hs : ∀ p va c, f (p, .stores va c) = none) :
    ((if IsChar c.last then receptions c.buf c.chars.length [c.last]
      else [.receives c.last]).map fun t => (c.caller, t)).filterMap f = [] := by
  split
  · exact filterMap_receptions hr hs _ _ _ _
  · exact List.filterMap_cons_none (hr _ _)

theorem ReadCall.acquired_log : acquired c.log = [c.caller] := by
  have hfirst : ∀ l, acquired ((c.caller, .reads c.buf c.before) :: l) = c.caller :: acquired l :=
    fun l => rfl
  have hnone : acquired ((receptions c.buf 0 c.chars).map fun t => (c.caller, t)) = [] :=
    filterMap_receptions (fun _ _ => rfl) (fun _ _ _ => rfl) _ _ _ _
  rw [c.log_eq, acquired, List.filterMap_append, List.filterMap_append,
    c.filterMap_last (fun _ _ => rfl) fun _ _ _ => rfl]
  change acquired _ ++ [] ++ [] = _
  rw [hfirst, hnone]
  rfl

theorem ReadCall.returned_log : returned c.log = [(c.caller, c.result)] := by
  rw [c.log_eq, returned, List.filterMap_append, List.filterMap_append,
    List.filterMap_cons_none rfl, filterMap_receptions (fun _ _ => rfl) fun _ _ _ => rfl,
    c.filterMap_last (fun _ _ => rfl) fun _ _ _ => rfl]
  rfl

/-- Only a complete call has returned. -/
theorem ReadCall.returned_of_prefix (h : rest <+: c.log) (hne : rest ≠ c.log) :
    returned rest = [] := by
  rw [c.log_eq] at h hne
  rcases List.prefix_concat_iff.mp h with he | hpre
  · exact absurd he hne
  · have hnil := hpre.filterMap fun t : ℕ × TermEntry => t.2.returned?.map fun r => (t.1, r)
    rw [List.filterMap_append, List.filterMap_cons_none rfl,
      filterMap_receptions (fun _ _ => rfl) fun _ _ _ => rfl,
      c.filterMap_last (fun _ _ => rfl) fun _ _ _ => rfl] at hnil
    exact List.prefix_nil.mp hnil

theorem ReadCall.stored_log (hc : IsChar c.last) : stored c.log =
    (c.line.take maxStrLeng.toNat).zipIdx.map fun x => (c.buf + BitVec.ofNat 32 x.2, x.1) := by
  have hskip : ∀ l, stored ((c.caller, .reads c.buf c.before) :: l) = stored l := fun l => rfl
  have hrounds : (receptions c.buf 0 c.chars).map (fun t => (c.caller, t)) ++
      (receptions c.buf c.chars.length [c.last]).map (fun t => (c.caller, t)) =
        (receptions c.buf 0 c.statuses).map fun t => (c.caller, t) := by
    rw [← List.map_append, ← receptions_snoc]
    rfl
  rw [c.log_eq, if_pos hc, stored_append, List.cons_append, hskip, hrounds, stored_receptions]
  exact List.append_nil _

theorem ReadCall.result_success (hc : IsChar c.last) :
    c.result = min (c.line.length : ℤ) maxStrLeng := by
  have hmax : maxStrLeng = 128 := rfl
  rw [ReadCall.result, if_pos hc, fitting]
  omega

theorem ReadCall.after_success (hc : IsChar c.last) :
    c.after = put c.before c.buf (c.line.take maxStrLeng.toNat) := by
  rw [ReadCall.after, if_pos hc]
  rfl

end Log

section Steps
variable {s : State} {p : ℕ} {inp : Input} {t : TermEntry} {a : Asid} {vm : Vm} {memory : Memory}

/-- Entries are made by a call of `readTerminal` past its P. -/
theorem mem_entries_read (h : (p, t) ∈ s.entries .termReadSemaphore (p, inp) memory) :
    ∃ a buf pt, s.uproc p = some (a, .run (.readTerminal buf pt)) ∧
      t ∈ (Code.readTerminal buf pt).entries a s.vm (memory a) inp := by
  unfold State.entries at h
  cases hu : s.uproc p with
  | none => simp [hu] at h
  | some r =>
      obtain ⟨a, c⟩ := r
      rw [hu, Option.toList_some, List.flatMap_singleton] at h
      obtain ⟨t', ht, he⟩ := List.mem_map.mp h
      obtain rfl : t' = t := (Prod.mk.inj he).2
      cases c with
      | run code =>
          cases code with
          | readTerminal buf pt =>
              have hmem : t' ∈ if (Code.readTerminal buf pt).past .termReadSemaphore then
                (Code.readTerminal buf pt).entries a s.vm (memory a) inp else [] := ht
              exact ⟨a, buf, pt, rfl, (List.mem_ite_nil_right.mp hmem).2⟩
          | user | writeTerminal => exact absurd ht List.not_mem_nil
      | pager | sys2 | sys6 => exact absurd ht List.not_mem_nil

theorem service_of_next {parent : ℕ} {c c' : Control} {svc : Service}
    (hp : s.proc p = some ⟨parent, .uproc a c⟩) (h : next a s.vm c inp = some (c', vm, svc)) :
    s.service (p, inp) = svc := by
  simp only [State.service, hp, Option.bind_some, Body.next, h, Option.map_some, Option.elim_some]

/-- A call that returns gives the semaphore back. -/
theorem service_of_returns {e : Event} {result : ℤ} {mem : Word → Byte}
    (h : (e.1, .returns result mem) ∈ s.entries .termReadSemaphore e memory) :
    s.service e = .verhogen .termReadSemaphore := by
  obtain ⟨p, inp⟩ := e
  obtain ⟨a, buf, pt, hu, ht⟩ := mem_entries_read h
  obtain ⟨parent, hp⟩ := State.uproc_eq_some.mp hu
  cases pt with
  | verhogen r =>
      cases inp with
      | go => exact service_of_next hp rfl
      | refill | fault | trap | load | store | syscall | status | created =>
          exact absurd ht List.not_mem_nil
  | passeren => cases inp <;> exact absurd ht List.not_mem_nil
  | receive n => cases inp <;> simp [Code.entries] at ht
  | store n c => cases inp <;> simp [Code.entries] at ht

end Steps

/-- The calls of `readTerminal` consume consecutive parts of the stream and give the semaphore
back when they return. What a U-proc loads is what is in its memory, where the lines are. -/
structure LinesInOrder (y : (State × Set Asid) × (Memory × List (ℕ × TermEntry))) : Prop where
  lines : ∃ cs rest, HasLines y.1.1 y.2.2 cs rest
  releases : ∀ e result mem, (e.1, .returns result mem) ∈
    y.1.1.entries .termReadSemaphore e y.2.1 → y.1.1.service e = .verhogen .termReadSemaphore
  loads : ∀ p a code va b, y.1.1.uproc p = some (a, .run code) → y.1.1.vm.load a va = some b →
    b = y.2.1 a va

/-- Every call of `readTerminal` gets a line, or what comes before a bad status, in the order
in which the calls got the semaphore, and the line is in the memory of its caller. -/
theorem lines_in_order {y : (State × Set Asid) × (Memory × List (ℕ × TermEntry))}
    (h : ((terminalRuns .termReadSemaphore).restrict fun y e => Undisturbed y.1 e).Reachable y) :
    LinesInOrder y := by
  obtain ⟨⟨busy, hflat⟩, hlog⟩ := terminalLog_reachable (.inr rfl) read_discipline
    (h.restrict_mono fun _ _ hu => ⟨fun _ _ _ => trivial, hu⟩)
  have hcall : ∀ c : Session ℕ TermEntry, IsRead c.entries →
      ∃ w : ReadCall, w.log = c.log ∧ w.caller = c.owner := by
    rintro ⟨owner, es⟩ ⟨w, rfl⟩
    exact ⟨⟨owner, w.buf, w.before, w.chars, w.last, w.isChar, w.ends⟩, rfl, rfl⟩
  obtain ⟨cs, rest, heq, hrest⟩ := hlog.logged.calls hcall
  have hreturned : returned rest = [] := by
    rcases hrest with rfl | ⟨_, w, hpre, hne, _⟩
    · rfl
    · exact w.returned_of_prefix hpre hne
  refine ⟨⟨cs, rest, ?_⟩, fun e result mem he => service_of_returns he,
    fun p a code va b hp hl => hflat.backed.load hflat.paged.coherent ⟨p, _, hp, rfl⟩ hl⟩
  constructor
  · exact heq
  · rcases hrest with hnil | ⟨hz, w, hpre, hne, hown⟩
    · exact .inl hnil
    · obtain ⟨p, hp⟩ := hlog.owned.owned hz
      exact .inr ⟨w, hpre, hne, hown p hp ▸ hp⟩
  · intro hv
    rcases hrest with hnil | ⟨hz, _⟩
    · exact hnil
    · rw [hz] at hv
      exact absurd hv (by decide)
  · rw [heq, received, List.filterMap_append, List.filterMap_flatMap]
    exact congrArg (· ++ received rest) (congrArg cs.flatMap (funext ReadCall.received_log))
  · rw [heq, acquired, List.filterMap_append, List.filterMap_flatMap]
    apply congrArg (· ++ acquired rest)
    rw [← List.flatMap_pure_eq_map]
    exact congrArg cs.flatMap (funext ReadCall.acquired_log)
  · rw [heq, returned, List.filterMap_append, List.filterMap_flatMap]
    change _ ++ returned rest = _
    rw [hreturned, List.append_nil, ← List.flatMap_pure_eq_map]
    exact congrArg cs.flatMap (funext ReadCall.returned_log)
  · exact fun c _ hc => ⟨c.result_success hc, c.after_success hc, c.stored_log hc⟩
  · exact fun c _ hc => if_neg hc

end Read

section Concrete

/-- A call that receives an A and a newline. -/
def oneReader : List Event :=
  [(2, .syscall 5 0x80000000 0), (2, .go), (2, .status 0x4105)] ++ servedFault 2 0x80000000 ++
    [(2, .go), (2, .status 0xA05), (2, .go), (2, .go)]

theorem lines_in_order_one : ∃ y : (State × Set Asid) × (Memory × List (ℕ × TermEntry)),
    returned y.2.2 = [(2, 2)] ∧ y.2.1 1 0x80000000 = 0x41 ∧ LinesInOrder y := by
  have hrun : (logOf .termReadSemaphore undisturbed 1 2 (fun _ _ _ => 0) oneReader).any
      (fun y => returned y.2.2 = [(2, 2)] ∧ y.2.1 1 0x80000000 = 0x41) = true := by
    decide +kernel
  obtain ⟨y, hy, hcheck⟩ := (Option.any_eq_true _ _).mp hrun
  obtain ⟨hret, hmem⟩ := of_decide_eq_true hcheck
  have hreach := logOf_reachable (fun _ _ => undisturbed_sound) (by decide) hy
  exact ⟨_, hret, hmem, lines_in_order hreach⟩

/-- A U-proc reads an A and a newline into two pages. The page of the A is evicted for the
other one, and comes back when the A is loaded. -/
def lostLine : List Event :=
  ((0 :: List.range' 2 15).flatMap fun n => servedFault 2 (kuseg + BitVec.ofNat 32 n * pageSize)) ++
    [(2, .syscall 5 0x80000FFF 0), (2, .go), (2, .status 0x4105), (2, .go), (2, .status 0xA05)] ++
      faultEvents 2 0x80001000 ++ failedReplace 2 ++
        [(2, .go), (2, .go), (2, .fault 0x80000FFF false), (2, .go), (2, .go)] ++ replaceEvents 2

/-- The call returns 2, but after a failed FLASHWRITE the A is not in the buffer. -/
theorem line_lost : ∃ y, (terminalRuns .termReadSemaphore).Reachable y ∧
    returned y.2.2 = [(2, 2)] ∧ stored y.2.2 = [(0x80000FFF, 0x41), (0x80001000, 0xA)] ∧
      y.1.1.vm.load 0 0x80000FFF = some 0x11 ∧ ¬ LinesInOrder y := by
  have hrun : (logOf .termReadSemaphore (fun _ _ => true) 0 1 (fun _ _ _ => 0x11) lostLine).any
      (fun y => (returned y.2.2 = [(2, 2)] ∧
        stored y.2.2 = [(0x80000FFF, 0x41), (0x80001000, 0xA)]) ∧
          y.1.1.vm.load 0 0x80000FFF = some 0x11 ∧ y.2.1 0 0x80000FFF = 0x41 ∧
            y.1.1.uproc 2 = some (0, .run .user)) = true := by
    decide +kernel
  obtain ⟨y, hy, hcheck⟩ := (Option.any_eq_true _ _).mp hrun
  obtain ⟨⟨hret, hst⟩, hload, hmem, hu⟩ := of_decide_eq_true hcheck
  have hreach : ((terminalRuns .termReadSemaphore).restrict fun _ _ => True).Reachable
      ((y.1.1, (y.1.2 : Set Asid)), y.2) := logOf_reachable (fun _ _ _ => trivial) (by decide) hy
  refine ⟨_, hreach.of_restrict, hret, hst, hload, fun h => ?_⟩
  have hsame : (0x11 : Byte) = y.2.1 0 0x80000FFF := h.loads 2 0 .user 0x80000FFF 0x11 hu hload
  rw [hmem] at hsame
  exact absurd hsame (by decide)

end Concrete
end PandOSsh.SupportLevel
