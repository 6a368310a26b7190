import PandOSsh.Library.Buffers
import PandOSsh.SupportLevel.UserBuffers

/-!
# The shell (testers/shell.c)

The body of the loop of `main` on its buffer of 128 bytes. An access outside of
the buffer has no result, so that a command is dispatched only if all of them
stay inside. They do as long as the newline of the typed line still fits.
-/

namespace PandOSsh.Shell
open Library SupportLevel

/-- `char buffer[MAXSTRLENG]` -/
abbrev Buff := Buffer maxStrLeng.toNat Byte

def chars (s : String) : List Byte := s.toList.map fun c => BitVec.ofNat 8 c.toNat

def eos : Byte := 0
def newline : Byte := 10
def space : Byte := 32

/-- The names of the programs, and their ASIDs. -/
def arr : List (List Byte × ℤ) :=
  [(chars "fibEight", 2), (chars "echo", 3), (chars "fibEleven", 4), (chars "uname", 5),
    (chars "date", 6), (chars "sl", 7), (chars "calc", 8)]

section TrimSpaces

/-- `while (s[start] == ' ')` -/
def skipSpaces (s : Buff) (start : ℕ) : Option ℕ :=
  match h : s.read start with
  | none => none
  | some c => if c = space then skipSpaces s (start + 1) else some start
termination_by maxStrLeng.toNat - start
decreasing_by
  have := Buffer.lt_of_read h
  omega

/-- `while (s[start] != '\0')`, the shift to the beginning. -/
def shift (s : Buff) (start write : ℕ) : Option (Buff × ℕ) :=
  match h : s.read start with
  | none => none
  | some c =>
      if c = eos then some (s, write)
      else (s.write write c).bind fun s' => shift s' (start + 1) (write + 1)
termination_by maxStrLeng.toNat - start
decreasing_by
  have := Buffer.lt_of_read h
  omega

/-- `while (s[end] != '\0')` -/
def findEnd (s : Buff) (n : ℕ) : Option ℕ :=
  match h : s.read n with
  | none => none
  | some c => if c = eos then some n else findEnd s (n + 1)
termination_by maxStrLeng.toNat - n
decreasing_by
  have := Buffer.lt_of_read h
  omega

/-- `while (end > 0 && s[end - 1] == ' ')` -/
def stripEnd (s : Buff) : ℕ → Option Buff
  | 0 => some s
  | n + 1 => (s.read n).bind fun c =>
      if c = space then (s.write n eos).bind fun s' => stripEnd s' n else some s

def trimSpaces (s : Buff) : Option Buff :=
  (skipSpaces s 0).bind fun start =>
    (shift s start 0).bind fun (s, write) =>
      (s.write write eos).bind fun s => (findEnd s 0).bind fun n => stripEnd s n

end TrimSpaces

/-- Whether the buffer has these characters from the index on, and then the terminator. The
comparison stops at the first difference. -/
def sameString (buff : Buff) : ℕ → List Byte → Option Bool
  | index, [] => (buff.read index).map fun d => decide (d = eos)
  | index, c :: name => (buff.read index).bind fun d =>
      if c = d then sameString buff (index + 1) name else some false

/-- The test of `chkExitAndTerminate`. -/
def chkExit (buff : Buff) : Option Bool := sameString buff 0 (chars "exit")

/-- The search in the table of names. -/
def search (buff : Buff) : List (List Byte × ℤ) → Option (Option ℤ)
  | [] => some none
  | (name, asid) :: rest => (sameString buff 0 name).bind fun found =>
      if found then some (some asid) else search buff rest

/-- What a round of the loop of `main` ends with. -/
inductive Action where
  | terminate
  /-- `continue` -/
  | reprompt
  | execute (excAsid : ℤ)
  | unknownProg
deriving DecidableEq

/-- The command in the trimmed buffer. -/
def dispatch (buff : Buff) : Option Action :=
  (chkExit buff).bind fun isExit =>
    if isExit then some .terminate
    else (buff.read 0).bind fun c =>
      if c = eos then some .reprompt
      else (search buff arr).map fun r =>
        match r with
        | some excAsid => .execute excAsid
        | none => .unknownProg

/-- The statement that replaces the newline, after n characters have been read. -/
def endLine (n : ℤ) (buff : Buff) : Option Buff :=
  (n - 1).toNat?.bind fun i =>
    (buff.read i).bind fun c => if c = newline then buff.write i eos else some buff

/-- The loop of `main` from the return of READTERMINAL to the next prompt. -/
def command (n : ℤ) (buff : Buff) : Option Action :=
  (endLine n buff).bind fun buff => (trimSpaces buff).bind dispatch

/-- READTERMINAL into the buffer at the address `buf`, when the terminal delivers these
statuses: the result, and the buffer afterwards. -/
def readTerminal (buf : Word) (buff : Buff) (ws : List Word) : Option (ℤ × Buff) :=
  match readLoop buf 0 ws with
  | (stores, .verhogen n) =>
      (buff.writeAll (stores.map fun x => ((x.1 - buf).toNat, x.2))).map (n, ·)
  | _ => none

/-- The line less its leading and trailing spaces. -/
def trim (l : List Byte) : List Byte :=
  (l.dropWhile (· = space)).rdropWhile (· = space)

/-- What the shell is to do with a command. -/
structure Names (cmd : List Byte) (act : Action) : Prop where
  terminate : act = .terminate ↔ cmd = chars "exit"
  reprompt : act = .reprompt ↔ cmd = []
  execute : ∀ a, act = .execute a ↔ (cmd, a) ∈ arr
  unknownProg : act = .unknownProg ↔
    cmd ≠ chars "exit" ∧ cmd ≠ [] ∧ ∀ a, (cmd, a) ∉ arr

/-- The shell handles a typed line with all accesses inside of its buffer. -/
structure Dispatched (buf : Word) (buff : Buff) (ws : List Word) (l : List Byte) : Prop where
  terminated : ∃ n s s', readTerminal buf buff ws = some (n, s) ∧ endLine n s = some s' ∧
    ∃ i, s'.read i = some eos
  named : ∃ n s act, readTerminal buf buff ws = some (n, s) ∧ command n s = some act ∧
    Names (trim l) act

section Loops
variable {s s' : Buff} {i n : ℕ} {c : Byte} {l l' : List Byte}

theorem skipSpaces_of_read (h : s.read i = some c) :
    skipSpaces s i = if c = space then skipSpaces s (i + 1) else some i := by
  rw [skipSpaces]
  split
  · next h' =>
    rw [h] at h'
    cases h'
  · next h' =>
    rw [h, Option.some.injEq] at h'
    rw [h']

theorem shift_of_read {w : ℕ} (h : s.read i = some c) :
    shift s i w = if c = eos then some (s, w)
      else (s.write w c).bind fun s' => shift s' (i + 1) (w + 1) := by
  rw [shift]
  split
  · next h' =>
    rw [h] at h'
    cases h'
  · next h' =>
    rw [h, Option.some.injEq] at h'
    rw [h']

theorem findEnd_of_read (h : s.read i = some c) :
    findEnd s i = if c = eos then some i else findEnd s (i + 1) := by
  rw [findEnd]
  split
  · next h' =>
    rw [h] at h'
    cases h'
  · next h' =>
    rw [h, Option.some.injEq] at h'
    rw [h']

theorem skipSpaces_spec (h : Buffer.IsString eos s i l) :
    ∃ j, i ≤ j ∧ skipSpaces s i = some j ∧
      Buffer.IsString eos s j (l.dropWhile (· = space)) := by
  induction l generalizing i with
  | nil =>
      refine ⟨i, le_rfl, ?_, h⟩
      rw [skipSpaces_of_read h.holds.1, if_neg (by decide)]
  | cons c l ih =>
      rw [skipSpaces_of_read h.holds.1, List.dropWhile_cons]
      by_cases hc : c = space
      · obtain ⟨j, hij, hj, hs⟩ := ih h.tail
        refine ⟨j, by omega, ?_, ?_⟩
        · rw [if_pos hc, hj]
        · rw [decide_eq_true hc, if_pos rfl]
          exact hs
      · refine ⟨i, le_rfl, if_neg hc, ?_⟩
        rw [decide_eq_false hc, if_neg Bool.false_ne_true]
        exact h

/-- The cells that are written are never in front of those still to be read. -/
theorem shift_spec {w : ℕ} (h : Buffer.IsString eos s i l) (hw : w ≤ i) :
    ∃ s', shift s i w = some (s', w + l.length) ∧ s'.Holds w l ∧
      ∀ j, j < w → s'.read j = s.read j := by
  induction l generalizing s i w with
  | nil =>
      refine ⟨s, ?_, trivial, fun _ _ => rfl⟩
      rw [shift_of_read h.holds.1, if_pos rfl]
      rfl
  | cons c l ih =>
      have hlt := h.fits
      obtain ⟨s₁, h₁⟩ := Buffer.exists_write s (show w < maxStrLeng.toNat by omega) c
      have htail := h.tail.write h₁ (Nat.lt_succ_of_le hw)
      obtain ⟨s', hs, hh, hframe⟩ := ih htail (Nat.succ_le_succ hw)
      refine ⟨s', ?_, ⟨?_, hh⟩, ?_⟩
      · rw [shift_of_read h.holds.1, if_neg h.ne, h₁, Option.bind_some, hs, List.length_cons]
        congr 2
        omega
      · rw [hframe w (Nat.lt_succ_self w), Buffer.read_write h₁, if_pos rfl]
      · intro j hj
        rw [hframe j (Nat.lt_succ_of_lt hj), Buffer.read_write h₁, if_neg (Nat.ne_of_lt hj)]

theorem findEnd_spec (h : Buffer.IsString eos s i l) : findEnd s i = some (i + l.length) := by
  induction l generalizing i with
  | nil =>
      rw [findEnd_of_read h.holds.1, if_pos rfl]
      rfl
  | cons c l ih =>
      rw [findEnd_of_read h.holds.1, if_neg h.ne, ih h.tail, List.length_cons]
      congr 1
      omega

theorem stripEnd_spec (h : Buffer.IsString eos s 0 l) :
    ∃ s', stripEnd s l.length = some s' ∧
      Buffer.IsString eos s' 0 (l.rdropWhile (· = space)) := by
  induction l using List.reverseRecOn generalizing s with
  | nil => exact ⟨s, rfl, h⟩
  | append_singleton l c ih =>
      have hl := Buffer.Holds.append.mp (Buffer.Holds.append.mp h.holds).1
      have hc : s.read l.length = some c := by
        have := hl.2.1
        rwa [Nat.zero_add] at this
      have hfree : eos ∉ l := fun hz => h.free (List.mem_append_left _ hz)
      rw [List.length_append, List.length_singleton, stripEnd, hc, Option.bind_some,
        List.rdropWhile_concat]
      by_cases hsp : c = space
      · obtain ⟨s₁, h₁⟩ := Buffer.exists_write s (Buffer.lt_of_read hc) eos
        have hw : s.write (0 + l.length) eos = some s₁ := by rw [Nat.zero_add, h₁]
        obtain ⟨s', hs, hstr⟩ := ih (Buffer.IsString.terminate hl.1 hfree hw)
        refine ⟨s', ?_, ?_⟩
        · rw [if_pos hsp, h₁, Option.bind_some, hs]
        · rw [decide_eq_true hsp, if_pos rfl]
          exact hstr
      · refine ⟨s, if_neg hsp, ?_⟩
        rw [decide_eq_false hsp, if_neg Bool.false_ne_true]
        exact h

/-- `trimSpaces` trims the string, wherever its spaces are. -/
theorem trimSpaces_spec (h : Buffer.IsString eos s 0 l) :
    ∃ s', trimSpaces s = some s' ∧ Buffer.IsString eos s' 0 (trim l) := by
  obtain ⟨start, -, hstart, h₁⟩ := skipSpaces_spec h
  obtain ⟨s₂, hs₂, hh₂, -⟩ := shift_spec h₁ (Nat.zero_le start)
  have hfits := h₁.fits
  obtain ⟨s₃, hs₃⟩ := Buffer.exists_write s₂
    (show 0 + (l.dropWhile (· = space)).length < maxStrLeng.toNat by omega) eos
  have h₃ := Buffer.IsString.terminate hh₂ h₁.free hs₃
  obtain ⟨s', hs', h'⟩ := stripEnd_spec h₃
  refine ⟨s', ?_, h'⟩
  rw [trimSpaces, hstart, Option.bind_some, hs₂, Option.bind_some]
  dsimp only
  rw [hs₃, Option.bind_some, findEnd_spec h₃, Option.bind_some, Nat.zero_add, hs']

end Loops

section Commands
variable {s : Buff} {i : ℕ} {l name : List Byte}

theorem sameString_spec (h : Buffer.IsString eos s i l) (hn : eos ∉ name) :
    sameString s i name = some (decide (l = name)) := by
  induction name generalizing i l with
  | nil =>
      cases l with
      | nil =>
          rw [sameString, h.holds.1]
          rfl
      | cons d l =>
          rw [sameString, h.holds.1, Option.map_some, decide_eq_false h.ne,
            decide_eq_false (List.cons_ne_nil d l)]
  | cons c name ih =>
      rw [List.mem_cons, not_or] at hn
      cases l with
      | nil =>
          rw [sameString, h.holds.1, Option.bind_some, if_neg (Ne.symm hn.1),
            decide_eq_false (List.cons_ne_nil c name).symm]
      | cons d l =>
          rw [sameString, h.holds.1, Option.bind_some]
          by_cases hcd : c = d
          · rw [if_pos hcd, ih h.tail hn.2]
            congr 1
            simp [hcd]
          · rw [if_neg hcd, decide_eq_false]
            intro he
            exact hcd (List.cons.inj he).1.symm

theorem search_spec (h : Buffer.IsString eos s 0 l) (t : List (List Byte × ℤ))
    (ht : ∀ x ∈ t, eos ∉ x.1) :
    search s t = some ((t.find? fun x => l = x.1).map Prod.snd) := by
  induction t with
  | nil => rfl
  | cons x t ih =>
      rw [search, sameString_spec h (ht x List.mem_cons_self), Option.bind_some, List.find?_cons]
      by_cases hx : l = x.1
      · rw [decide_eq_true hx, if_pos rfl]
        rfl
      · rw [decide_eq_false hx, if_neg Bool.false_ne_true,
          ih fun y hy => ht y (List.mem_cons_of_mem x hy)]

theorem arr_free : ∀ x ∈ arr, eos ∉ x.1 ∧ x.1 ≠ [] ∧ x.1 ≠ chars "exit" := by decide

theorem arr_injective : (arr.map Prod.fst).Nodup := by decide

/-- The search finds exactly the entry with this name. -/
theorem find_arr (l : List Byte) (a : ℤ) :
    (arr.find? fun x => l = x.1).map Prod.snd = some a ↔ (l, a) ∈ arr := by
  rw [Option.map_eq_some_iff]
  constructor
  · intro ⟨x, hx, ha⟩
    have hl : l = x.1 := by simpa using List.find?_some hx
    rw [hl, ← ha]
    exact List.mem_of_find?_eq_some hx
  · intro hm
    cases hf : arr.find? fun x => l = x.1 with
    | none =>
        rw [List.find?_eq_none] at hf
        exact absurd (hf _ hm) (by simp)
    | some x =>
        have hl : l = x.1 := by simpa using List.find?_some hf
        have hx : x ∈ arr := List.mem_of_find?_eq_some hf
        have he : x = (l, a) := List.inj_on_of_nodup_map arr_injective hx hm hl.symm
        exact ⟨x, rfl, by rw [he]⟩

theorem dispatch_spec (h : Buffer.IsString eos s 0 l) :
    ∃ act, dispatch s = some act ∧ Names l act := by
  have hexit : eos ∉ chars "exit" := by decide
  rw [dispatch, chkExit, sameString_spec h hexit, Option.bind_some]
  by_cases he : l = chars "exit"
  · refine ⟨.terminate, by rw [decide_eq_true he, if_pos rfl], ?_⟩
    have hne : l ≠ [] := he ▸ by decide
    constructor
    · simp [he]
    · simp [hne]
    · intro a
      simp only [reduceCtorEq, false_iff]
      intro hm
      exact (arr_free _ hm).2.2 he
    · simp [he]
  · rw [decide_eq_false he, if_neg Bool.false_ne_true]
    cases l with
    | nil =>
        rw [h.holds.1, Option.bind_some, if_pos rfl]
        refine ⟨.reprompt, rfl, ?_⟩
        constructor
        · simp [he]
        · simp
        · intro a
          simp only [reduceCtorEq, false_iff]
          intro hm
          exact (arr_free _ hm).2.1 rfl
        · simp
    | cons c l =>
        rw [h.holds.1, Option.bind_some, if_neg h.ne, search_spec h arr fun x hx => (arr_free x hx).1,
          Option.map_some]
        cases hf : (arr.find? fun x => c :: l = x.1).map Prod.snd with
        | none =>
            have hno : ∀ a, (c :: l, a) ∉ arr := by
              intro a hm
              rw [(find_arr _ a).mpr hm] at hf
              cases hf
            refine ⟨.unknownProg, rfl, ?_⟩
            constructor
            · simp [he]
            · simp
            · simp [hno]
            · simp [he, hno]
        | some b =>
            have hb := (find_arr _ b).mp hf
            refine ⟨.execute b, rfl, ?_⟩
            constructor
            · simp [he]
            · simp
            · intro a
              rw [← find_arr, hf, Option.some.injEq, Action.execute.injEq]
            · simp only [reduceCtorEq, false_iff]
              intro hn
              exact hn.2.2 b hb

end Commands

section Lines
variable {s s' : Buff} {buf : Word} {ws : List Word} {l : List Byte}

/-- The stores of a call go to the cells of the buffer in order. -/
theorem stores_index {t : List Byte} (ht : t.length ≤ maxStrLeng.toNat) :
    ((t.zipIdx 0).map fun x : Byte × ℕ => (buf + BitVec.ofNat 32 x.2, x.1)).map
        (fun x => ((x.1 - buf).toNat, x.2)) =
      (t.zipIdx 0).map fun x => (x.2, x.1) := by
  rw [List.map_map]
  refine List.map_congr_left fun x hx => ?_
  have hm : maxStrLeng.toNat = 128 := rfl
  have hlt := (List.mem_zipIdx hx).2.1
  rw [Function.comp_apply, add_sub_cancel_left, BitVec.toNat_ofNat, Nat.mod_eq_of_lt (by omega)]

/-- READTERMINAL leaves as much of the line in the buffer as fits. -/
theorem readTerminal_spec (buf : Word) (buff : Buff) (hl : line ws = l ++ [newline]) :
    ∃ s, readTerminal buf buff ws =
        some (((min (l.length + 1) maxStrLeng.toNat : ℕ) : ℤ), s) ∧
      s.Holds 0 ((l ++ [newline]).take maxStrLeng.toNat) := by
  let taken := (l ++ [newline]).take maxStrLeng.toNat
  have hlen : taken.length ≤ maxStrLeng.toNat := by
    rw [List.length_take]
    exact Nat.min_le_left _ _
  obtain ⟨s, hs, hh, -⟩ := Buffer.writeAll_range (b := buff) (l := taken) (i := 0)
    (by rwa [Nat.zero_add])
  refine ⟨s, ?_, hh⟩
  rw [readTerminal, readLoop_line (Nat.zero_le _) hl]
  simp only [Nat.sub_zero, Nat.zero_add]
  change Option.map _ (buff.writeAll (List.map _ (List.map _ (taken.zipIdx 0)))) = _
  rw [stores_index hlen, hs]
  rfl

/-- The newline of a line that fits gives way to the terminator. -/
theorem endLine_newline (hh : s.Holds 0 (l ++ [newline])) :
    ∃ s', endLine (l.length + 1 : ℕ) s = some s' ∧ s'.Holds 0 (l ++ [eos]) := by
  obtain ⟨hl, hn, -⟩ := Buffer.Holds.append.mp hh
  rw [Nat.zero_add] at hn
  obtain ⟨s', hs'⟩ := Buffer.exists_write s (Buffer.lt_of_read hn) eos
  refine ⟨s', ?_, Buffer.Holds.append.mpr ⟨hl.write hs' (.inr (by omega)), ?_, trivial⟩⟩
  · have hi : ((l.length + 1 : ℕ) - 1 : ℤ).toNat? = some l.length := by
      rw [Nat.cast_add_one, add_sub_cancel_right]
      rfl
    rw [endLine, hi, Option.bind_some, hn, Option.bind_some, if_pos rfl, hs']
  · rw [Buffer.read_write hs', Nat.zero_add, if_pos rfl]

/-- What fills the buffer without a newline stays as it is. -/
theorem endLine_id (hh : s.Holds 0 l) (hl : l.length = maxStrLeng.toNat) (hn : newline ∉ l) :
    endLine (maxStrLeng.toNat : ℕ) s = some s := by
  obtain ⟨c, hc⟩ := Buffer.exists_read (b := s) (show 127 < maxStrLeng.toNat by decide)
  have hmem : c ∈ l := by
    have hlt := Buffer.lt_of_read hc
    exact hh.mem_of_read hc (Nat.zero_le 127) (by omega)
  have hi : ((maxStrLeng.toNat : ℕ) - 1 : ℤ).toNat? = some 127 := rfl
  rw [endLine, hi, Option.bind_some, hc, Option.bind_some, if_neg]
  intro he
  exact hn (he ▸ hmem)

/-- A line that fills the buffer leaves no room for the terminator. -/
theorem endLine_full (hh : s.Holds 0 l) (hl : l.length = maxStrLeng.toNat) (h0 : eos ∉ l)
    (hn : newline ∉ l) : endLine (maxStrLeng.toNat : ℕ) s = some s ∧ ∀ i, s.read i ≠ some eos := by
  refine ⟨endLine_id hh hl hn, fun i hr => ?_⟩
  have hlt := Buffer.lt_of_read hr
  exact h0 (hh.mem_of_read hr (Nat.zero_le i) (by omega))

/-- Without a terminator the shift runs out of the buffer. -/
theorem shift_none {start write : ℕ} (h : ∀ i, s.read i ≠ some eos) :
    shift s start write = none := by
  induction s, start, write using shift.induct with
  | case1 s start write hr =>
      rw [shift]
      split
      · rfl
      · next h' =>
        rw [hr] at h'
        cases h'
  | case2 s start write hr => exact absurd hr (h start)
  | case3 s start write c hr hc ih =>
      rw [shift_of_read hr, if_neg hc]
      cases hw : s.write write c with
      | none => rfl
      | some s' =>
          rw [Option.bind_some]
          apply ih
          intro i
          rw [Buffer.read_write hw]
          split
          · exact fun he => hc (Option.some.inj he)
          · exact h i

theorem trimSpaces_none (h : ∀ i, s.read i ≠ some eos) : trimSpaces s = none := by
  rw [trimSpaces]
  cases skipSpaces s 0 with
  | none => rfl
  | some start => rw [Option.bind_some, shift_none h, Option.bind_none]

/-- The shell handles exactly the lines whose newline fits into the buffer. -/
theorem shell_dispatch_iff (buf : Word) (buff : Buff) (hl : line ws = l ++ [newline])
    (h0 : eos ∉ l) : Dispatched buf buff ws l ↔ (l.length : ℤ) < maxStrLeng := by
  have hm : maxStrLeng.toNat = 128 := rfl
  have hm' : maxStrLeng = 128 := rfl
  obtain ⟨s, hs, hh⟩ := readTerminal_spec buf buff hl
  by_cases hlen : (l.length : ℤ) < maxStrLeng
  · refine iff_of_true ?_ hlen
    have hall : (l ++ [newline]).take maxStrLeng.toNat = l ++ [newline] := by
      rw [List.take_of_length_le]
      rw [List.length_append, List.length_singleton]
      omega
    have hmin : min (l.length + 1) maxStrLeng.toNat = l.length + 1 := by omega
    rw [hall] at hh
    rw [hmin] at hs
    obtain ⟨s₁, hs₁, hterm⟩ := endLine_newline hh
    have hstr : Buffer.IsString eos s₁ 0 l := ⟨hterm, h0⟩
    obtain ⟨s₂, hs₂, htrim⟩ := trimSpaces_spec hstr
    obtain ⟨act, hact, hnames⟩ := dispatch_spec htrim
    constructor
    · exact ⟨_, s, s₁, hs, hs₁, _, hstr.read_end⟩
    · refine ⟨_, s, act, hs, ?_, hnames⟩
      rw [command, hs₁, Option.bind_some, hs₂, Option.bind_some, hact]
  · refine iff_of_false ?_ hlen
    intro hd
    obtain ⟨n, t, t', hrt, het, i, hi⟩ := hd.terminated
    rw [hs, Option.some.injEq, Prod.mk.injEq] at hrt
    obtain ⟨rfl, rfl⟩ := hrt
    have hmin : min (l.length + 1) maxStrLeng.toNat = maxStrLeng.toNat := by omega
    have htake : (l ++ [newline]).take maxStrLeng.toNat = l.take maxStrLeng.toNat := by
      rw [List.take_append_of_le_length (by omega)]
    have hnl := newline_not_mem hl (List.cons_ne_nil _ _)
    rw [htake] at hh
    obtain ⟨hend, hno⟩ := endLine_full hh (by rw [List.length_take]; omega)
      (fun hz => h0 (List.mem_of_mem_take hz)) fun hz => hnl (List.mem_of_mem_take hz)
    rw [hmin, hend, Option.some.injEq] at het
    exact hno i (het ▸ hi)

/-- A line of 128 characters, and the call that delivers it. -/
def fullLine : List Byte := List.replicate 128 97

def fullStatuses : List Word := List.replicate 128 0x6105 ++ [0x0A05]

/-- The line of 128 characters: `trimSpaces` reads and writes behind the buffer. -/
theorem shell_overruns : line fullStatuses = fullLine ++ [newline] ∧ eos ∉ fullLine ∧
    ¬ Dispatched 0xBFFFFF00 (fun _ => 0) fullStatuses fullLine ∧
    ∀ n s, readTerminal 0xBFFFFF00 (fun _ => 0) fullStatuses = some (n, s) → command n s = none := by
  have hl : line fullStatuses = fullLine ++ [newline] := by decide
  have h0 : eos ∉ fullLine := by decide
  have hnone : ∀ n s, readTerminal 0xBFFFFF00 (fun _ => 0) fullStatuses = some (n, s) →
      command n s = none := by
    intro n s hr
    obtain ⟨s', hs, hh⟩ := readTerminal_spec 0xBFFFFF00 (fun _ => 0) hl
    rw [hr, Option.some.injEq, Prod.mk.injEq] at hs
    obtain ⟨rfl, rfl⟩ := hs
    have htake : (fullLine ++ [newline]).take maxStrLeng.toNat = fullLine := by decide
    rw [htake] at hh
    obtain ⟨hend, hno⟩ := endLine_full hh (by decide +kernel) h0 (by decide +kernel)
    have hmin : min (fullLine.length + 1) maxStrLeng.toNat = maxStrLeng.toNat := by decide +kernel
    rw [command, hmin, hend, Option.bind_some, trimSpaces_none hno, Option.bind_none]
  refine ⟨hl, h0, fun hd => ?_, hnone⟩
  obtain ⟨n, s, act, hr, hc, -⟩ := hd.named
  rw [hnone n s hr] at hc
  cases hc

/-- The line ` date ` runs the program with ASID 6. -/
theorem shell_dispatch_date : line [0x2005, 0x6405, 0x6105, 0x7405, 0x6505, 0x2005, 0x0A05] =
    chars " date " ++ [newline] ∧
    Dispatched 0xBFFFFF00 (fun _ => 0) [0x2005, 0x6405, 0x6105, 0x7405, 0x6505, 0x2005, 0x0A05]
      (chars " date ") ∧ trim (chars " date ") = chars "date" := by
  have hl : line [0x2005, 0x6405, 0x6105, 0x7405, 0x6505, 0x2005, 0x0A05] =
      chars " date " ++ [newline] := by decide
  refine ⟨hl, ?_, by decide⟩
  exact (shell_dispatch_iff 0xBFFFFF00 (fun _ => 0) hl (by decide)).mpr (by decide)

end Lines

end PandOSsh.Shell
