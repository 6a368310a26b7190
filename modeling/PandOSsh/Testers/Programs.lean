import PandOSsh.Testers.Shell

/-!
# Programs that read lines

A program is known by its system calls. The receiver answers READTERMINAL with a line, or
with an error after some characters; the characters end up in the buffer of the program as
far as `readTerminal` takes them.
-/

namespace PandOSsh.Testers
open Library SupportLevel Shell

/-- A system call of a program, with the string that it hands over. -/
inductive Call where
  | writeTerminal (str : List Byte) (len : ℤ)
  | readTerminal
  | terminate
  | execute (excAsid : ℤ)
deriving DecidableEq

/-- What the user types, up to a newline or up to an error of the receiver. -/
inductive Typed where
  | line (l : List Byte)
  | error (l : List Byte)
deriving DecidableEq

/-- The statuses that the receiver returns during one READTERMINAL. -/
inductive Answers : List Word → Typed → Prop
  | line {ws : List Word} {l : List Byte} (h : SupportLevel.line ws = l ++ [newline]) :
      Answers ws (.line l)
  | error {ws : List Word} {l : List Byte} (h : SupportLevel.line ws = l) (hn : newline ∉ l)
      (hw : ∃ w ∈ ws, w &&& 0xFF ≠ charRecv) : Answers ws (.error l)

/-- READTERMINAL into a buffer of any size. -/
def receive {n : ℕ} (buf : Word) (buff : Buffer n Byte) (ws : List Word) :
    Option (ℤ × Buffer n Byte) :=
  match readLoop buf 0 ws with
  | (stores, .verhogen r) =>
      (buff.writeAll (stores.map fun x => ((x.1 - buf).toNat, x.2))).map (r, ·)
  | _ => none

section Receive
variable {n m : ℕ} {buf : Word} {buff : Buffer n Byte} {ws : List Word} {l : List Byte}

theorem statusError_nonpos (w : Word) : statusError w ≤ 0 := by
  have hle : (w &&& 0xFF).toNat ≤ 255 := by
    rw [BitVec.toNat_and]
    exact Nat.and_le_right
  rw [statusError, BitVec.toInt_eq_toNat_of_lt (by omega)]
  omega

/-- The end of a call of `readTerminal` by an error, which counts no character. -/
theorem readLoop_error (hl : SupportLevel.line ws = l) (hn : newline ∉ l)
    (hw : ∃ w ∈ ws, w &&& 0xFF ≠ charRecv) (hm : m ≤ maxStrLeng.toNat) :
    ∃ r ≤ 0, readLoop buf m ws =
      (((l.take (maxStrLeng.toNat - m)).zipIdx m).map
        fun x : Byte × ℕ => (buf + BitVec.ofNat 32 x.2, x.1), .verhogen r) := by
  have hmax : maxStrLeng.toNat = 128 := rfl
  have hmax' : maxStrLeng = 128 := rfl
  induction ws generalizing l m with
  | nil =>
      obtain ⟨w, hw, -⟩ := hw
      exact absurd hw List.not_mem_nil
  | cons w ws ih =>
      unfold SupportLevel.line at hl
      unfold readLoop
      by_cases hgood : w &&& 0xFF = charRecv
      · have hrest : ∃ w' ∈ ws, w' &&& 0xFF ≠ charRecv := by
          obtain ⟨w', hw', hbad⟩ := hw
          rcases List.mem_cons.mp hw' with rfl | hw'
          · exact absurd hgood hbad
          · exact ⟨w', hw', hbad⟩
        rw [if_pos hgood] at hl ⊢
        dsimp only at hl ⊢
        have hc : w.extractLsb' 8 8 ≠ 10 := by
          intro hc
          rw [if_pos hc, hc] at hl
          exact hn (hl ▸ List.mem_singleton.mpr rfl)
        rw [if_neg hc] at hl
        subst hl
        rw [List.mem_cons, not_or] at hn
        by_cases hlt : m < 128
        · have hlt' : (m : ℤ) < maxStrLeng := by omega
          obtain ⟨r, hr, hloop⟩ := ih rfl hn.2 hrest (show m + 1 ≤ _ by omega)
          have hrange : maxStrLeng.toNat - m = (maxStrLeng.toNat - (m + 1)) + 1 := by omega
          refine ⟨r, hr, ?_⟩
          rw [if_pos hlt', if_pos hlt', afterChar, if_neg hc]
          simp only [hloop, hrange, List.take_succ_cons, List.zipIdx_cons, List.map_cons,
            List.singleton_append]
        · have hlt' : ¬ (m : ℤ) < maxStrLeng := by omega
          obtain ⟨r, hr, hloop⟩ := ih rfl hn.2 hrest hm
          have hrange : maxStrLeng.toNat - m = 0 := by omega
          refine ⟨r, hr, ?_⟩
          rw [if_neg hlt', if_neg hlt', afterChar, if_neg hc]
          simp only [hloop, hrange, List.take_zero, List.nil_append]
      · rw [if_neg hgood] at hl ⊢
        subst hl
        exact ⟨statusError w, statusError_nonpos w, by simp⟩

theorem receive_eq {t : List Byte} {r : ℤ} (ht : t.length ≤ maxStrLeng.toNat)
    (hloop : readLoop buf 0 ws = ((t.zipIdx 0).map
      fun x : Byte × ℕ => (buf + BitVec.ofNat 32 x.2, x.1), .verhogen r)) :
    receive buf buff ws =
      (buff.writeAll ((t.zipIdx 0).map fun x => (x.2, x.1))).map (r, ·) := by
  rw [receive, hloop]
  dsimp only
  rw [stores_index ht]

variable {typed : Typed}

/-- How many characters READTERMINAL stores. -/
def Typed.stored : Typed → List Byte
  | .line l => (l ++ [newline]).take maxStrLeng.toNat
  | .error l => l.take maxStrLeng.toNat

/-- A line is counted, with its newline; an error is not positive. -/
def Typed.Returns (typed : Typed) (r : ℤ) : Prop :=
  match typed with
  | .line _ => r = typed.stored.length
  | .error _ => r ≤ 0

theorem Typed.stored_length (typed : Typed) : typed.stored.length ≤ maxStrLeng.toNat := by
  cases typed <;> exact List.length_take_le _ _

theorem Answers.readLoop_eq (h : Answers ws typed) (buf : Word) :
    ∃ r, typed.Returns r ∧ readLoop buf 0 ws = ((typed.stored.zipIdx 0).map
      fun x : Byte × ℕ => (buf + BitVec.ofNat 32 x.2, x.1), .verhogen r) := by
  cases h with
  | line h =>
      refine ⟨_, ?_, readLoop_line (Nat.zero_le _) h⟩
      rw [Typed.Returns, Typed.stored, List.length_take, List.length_append,
        List.length_singleton, Nat.zero_add, Nat.sub_zero, Nat.min_comm]
  | error h hn hw => exact readLoop_error h hn hw (Nat.zero_le _)

/-- What is typed arrives in a buffer that has room for it. -/
theorem Answers.receive (h : Answers ws typed) (buf : Word) (buff : Buffer n Byte)
    (hfit : typed.stored.length ≤ n) : ∃ r s, typed.Returns r ∧
      receive buf buff ws = some (r, s) ∧ s.Holds 0 typed.stored := by
  obtain ⟨r, hr, hloop⟩ := h.readLoop_eq buf
  obtain ⟨s, hs, hh, -⟩ := Buffer.writeAll_range (b := buff) (l := typed.stored) (i := 0)
    (by rwa [Nat.zero_add])
  refine ⟨r, s, hr, ?_, hh⟩
  rw [receive_eq typed.stored_length hloop, hs]
  rfl

/-- Otherwise the call writes behind the buffer. -/
theorem Answers.overrun (h : Answers ws typed) (buf : Word) (buff : Buffer n Byte)
    (hfit : n < typed.stored.length) : Testers.receive buf buff ws = none := by
  obtain ⟨r, hr, hloop⟩ := h.readLoop_eq buf
  rw [receive_eq typed.stored_length hloop, Buffer.writeAll_overrun (Nat.zero_le n) (by omega)]
  rfl

end Receive
end PandOSsh.Testers
