import PandOSsh.Testers.Programs

/-!
# Sessions of the shell (testers/shell.c)

The loop of `main` from the start of the shell to the line `exit`, and the same
conversation without any buffer. The buffer is never cleared, but nothing of an
earlier line is left in what the next one says.
-/

namespace PandOSsh.Shell
open Library SupportLevel Testers

/-- The system calls of an action, up to the next prompt. -/
def Action.calls : Action → List Call
  | terminate => [.terminate]
  | reprompt => []
  | execute excAsid => [.execute excAsid]
  | unknownProg => [.writeTerminal (chars "command not found :<\n") 21]

/-- The prompt and the READTERMINAL after it. -/
def prompt : List Call := [.writeTerminal (chars "> ") 2, .readTerminal]

/-- `while (1)`. Each list has the statuses that the receiver returns during one READTERMINAL,
and without one more the shell waits. TERMINATE does not return. -/
def mainLoop (buf : Word) : Buff → List (List Word) → Option (List Call)
  | _, [] => some prompt
  | buff, ws :: rest =>
      (readTerminal buf buff ws).bind fun x =>
        (endLine x.1 x.2).bind fun buff => (trimSpaces buff).bind fun buff =>
          (dispatch buff).bind fun act =>
            if act = .terminate then some (prompt ++ act.calls)
            else (mainLoop buf buff rest).map fun calls => prompt ++ act.calls ++ calls

/-- What the shell does on a command. -/
def meaning (cmd : List Byte) : Action :=
  if cmd = chars "exit" then .terminate
  else if cmd = [] then .reprompt
  else ((arr.find? fun x => cmd = x.1).map Prod.snd).elim .unknownProg .execute

/-- What the buffer holds of a line once the newline is gone. -/
def held (l : List Byte) : List Byte := (l ++ [eos]).take maxStrLeng.toNat

/-- The command in a line: what is in front of the first NUL, without the spaces around. -/
def commandOf (l : List Byte) : List Byte := trim ((held l).takeWhile (· ≠ eos))

/-- The conversation: it breaks off at an error of the receiver, and at a line that leaves
no NUL in the buffer. -/
def session : List Typed → Option (List Call)
  | [] => some prompt
  | .error _ :: _ => none
  | .line l :: rest =>
      if (held l).all (· ≠ eos) then none
      else if meaning (commandOf l) = .terminate then some (prompt ++ [.terminate])
      else (session rest).map fun calls => prompt ++ (meaning (commandOf l)).calls ++ calls

section Round
variable {s s' : Buff} {buf : Word} {buff : Buff} {ws : List Word} {l : List Byte} {act : Action}

theorem Names.eq_meaning (h : Names l act) : act = meaning l := by
  unfold meaning
  by_cases hexit : l = chars "exit"
  · rw [if_pos hexit]
    exact h.terminate.mpr hexit
  rw [if_neg hexit]
  by_cases hnil : l = []
  · rw [if_pos hnil]
    exact h.reprompt.mpr hnil
  rw [if_neg hnil]
  cases hf : (arr.find? fun x => l = x.1).map Prod.snd with
  | none =>
      refine h.unknownProg.mpr ⟨hexit, hnil, fun a ha => ?_⟩
      rw [(find_arr l a).mpr ha] at hf
      cases hf
  | some a => exact (h.execute a).mpr ((find_arr l a).mp hf)

/-- The statement after READTERMINAL puts a terminator for the newline. -/
theorem endLine_held (hn : newline ∉ l) (hh : s.Holds 0 (Typed.line l).stored) :
    ∃ s', endLine (Typed.line l).stored.length s = some s' ∧ s'.Holds 0 (held l) := by
  have hm : maxStrLeng.toNat = 128 := rfl
  by_cases hlen : l.length < maxStrLeng.toNat
  · have hall : (Typed.line l).stored = l ++ [newline] := List.take_of_length_le (by simp; omega)
    have hheld : held l = l ++ [eos] := List.take_of_length_le (by simp; omega)
    rw [hall] at hh ⊢
    rw [hheld, List.length_append, List.length_singleton]
    exact endLine_newline hh
  · have htake : (Typed.line l).stored = l.take maxStrLeng.toNat :=
      List.take_append_of_le_length (by omega)
    have hheld : held l = l.take maxStrLeng.toNat := List.take_append_of_le_length (by omega)
    have hlen' : (l.take maxStrLeng.toNat).length = maxStrLeng.toNat := by
      rw [List.length_take]
      omega
    rw [htake] at hh ⊢
    rw [hheld]
    refine ⟨s, ?_, hh⟩
    rw [hlen']
    exact endLine_id hh hlen' fun hm => hn (List.mem_of_mem_take hm)

/-- With a terminator in the buffer the round ends with what the command means. -/
theorem dispatch_held (hh : s.Holds 0 (held l)) (he : eos ∈ held l) :
    ∃ s', trimSpaces s = some s' ∧ dispatch s' = some (meaning (commandOf l)) := by
  obtain ⟨s', hs', hstr⟩ := trimSpaces_spec (Buffer.IsString.takeWhile hh he)
  obtain ⟨act, hact, hnames⟩ := dispatch_spec hstr
  exact ⟨s', hs', by rw [hact, hnames.eq_meaning]; rfl⟩

/-- Without one the line fills the buffer, and `trimSpaces` runs out of it. -/
theorem trimSpaces_held (hh : s.Holds 0 (held l)) (he : eos ∉ held l) : trimSpaces s = none := by
  have hlen : (held l).length = maxStrLeng.toNat := by
    by_contra hne
    have hle := List.length_take_le maxStrLeng.toNat (l ++ [eos])
    have hall : held l = l ++ [eos] := List.take_of_length_le (by
      rw [held, List.length_take] at hne
      omega)
    exact he (hall ▸ List.mem_append_right l (List.mem_singleton.mpr rfl))
  apply trimSpaces_none
  intro i hr
  have hlt := Buffer.lt_of_read hr
  exact he (hh.mem_of_read hr (Nat.zero_le i) (by omega))

theorem all_ne_eos : (held l).all (· ≠ eos) = true ↔ eos ∉ held l := by
  simp only [List.all_eq_true, decide_eq_true_eq]
  exact ⟨fun h he => h eos he rfl, fun h c hc hce => h (hce ▸ hc)⟩

theorem endLine_error {r : ℤ} (hr : r ≤ 0) : endLine r s = none := by
  have hi : (r - 1).toNat? = none := by
    obtain ⟨n, hn⟩ := Int.eq_negSucc_of_lt_zero (show r - 1 < 0 by omega)
    rw [hn]
    rfl
  rw [endLine, hi, Option.bind_none]

end Round

/-- Whatever is typed, the shell makes the system calls of the conversation, and an access
outside of its buffer where that breaks off. -/
theorem shell_session {wss : List (List Word)} {typed : List Typed}
    (h : List.Forall₂ Answers wss typed) (buf : Word) (buff : Buff) :
    mainLoop buf buff wss = session typed := by
  induction h generalizing buff with
  | nil => rfl
  | cons ha _ ih =>
      obtain ⟨r, s, hr, hs, hh⟩ := ha.receive buf buff (Typed.stored_length _)
      rw [mainLoop, show readTerminal buf buff _ = some (r, s) from hs, Option.bind_some]
      cases ha with
      | error hl hn hw => rw [endLine_error hr, Option.bind_none, session]
      | @line l hl =>
          have hn := newline_not_mem hl (List.cons_ne_nil _ _)
          obtain ⟨s', hs', hh'⟩ := endLine_held hn hh
          rw [Typed.Returns] at hr
          dsimp only
          rw [hr, hs', Option.bind_some, session]
          by_cases he : eos ∈ held l
          · obtain ⟨t, ht, hd⟩ := dispatch_held hh' he
            have hend : ¬ (held l).all (· ≠ eos) = true := fun hall => all_ne_eos.mp hall he
            rw [ht, Option.bind_some, hd, Option.bind_some, if_neg hend, ih]
            split
            · next hterm => rw [hterm]; rfl
            · rfl
          · rw [trimSpaces_held hh' he, Option.bind_none, if_pos (all_ne_eos.mpr he)]

/-- The lines ` date ` and `exit`, on a buffer with other things in it. -/
theorem shell_session_date : mainLoop 0xBFFFFF00 (fun _ => 0x78)
    [[0x2005, 0x6405, 0x6105, 0x7405, 0x6505, 0x2005, 0x0A05],
      [0x6505, 0x7805, 0x6905, 0x7405, 0x0A05]] =
      some (prompt ++ [.execute 6] ++ (prompt ++ [.terminate])) := by
  have hdate : Answers [0x2005, 0x6405, 0x6105, 0x7405, 0x6505, 0x2005, 0x0A05]
      (.line (chars " date ")) := .line (by decide)
  have hexit : Answers [0x6505, 0x7805, 0x6905, 0x7405, 0x0A05] (.line (chars "exit")) :=
    .line (by decide)
  rw [shell_session (.cons hdate (.cons hexit .nil))]
  decide

end PandOSsh.Shell
