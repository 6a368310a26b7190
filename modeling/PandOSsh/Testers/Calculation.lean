import PandOSsh.Testers.Calc
import PandOSsh.Testers.Programs

/-!
# A run of the calculator (testers/calc.c)

`main` reads a line into a buffer of 10 bytes, has `asciiToInt` copy it to another one and
prints one string: the result in two characters, or what is wrong. The result that is
printed is the value of the expression that was typed.
-/

namespace PandOSsh.Calc
open Library SupportLevel Testers
open Shell (chars eos newline space)

/-- `calculate`: the result, or the last system calls of the process. -/
def calculate (num1 : ℤ) (opr : Byte) (num2 : ℤ) : Except (List Call) ℤ :=
  if opr = 0x2B then .ok (num1 + num2)
  else if opr = 0x2D then .ok (num1 - num2)
  else if opr = 0x2A then .ok (num1 * num2)
  else if opr = 0x2F then
    if num2 = 0 then
      .error [.writeTerminal (chars "division by 0 not allowed\n") 26, .terminate]
    else .ok (num1.tdiv num2)
  else .error [.terminate]

/-- `res_buffer` -/
def resBuffer (result : ℤ) : List Byte :=
  if result < 0 then [0x2D, BitVec.ofInt 8 (-result + 48), newline]
  else [BitVec.ofInt 8 (result.tdiv 10 + 48), BitVec.ofInt 8 (result.tmod 10 + 48), newline]

/-- The system calls from the return of `asciiToInt` on, those of `asciiToInt` before them. -/
def conclude (retval : ℤ) (out : Out) : List Call :=
  out.written.map (fun w => .writeTerminal w.1 w.2) ++
    if retval = -1 then [.terminate]
    else
      match calculate out.first out.opr out.second with
      | .error calls => calls
      | .ok result => [.writeTerminal (resBuffer result) 3, .terminate]

/-- `main`. All that the variables and the buffers hold before is arbitrary. -/
def main (buf : Word) (buffer : Buffer 10 Byte) (newExpr : NewExpr) (first : ℤ) (operand : Byte)
    (second : ℤ) (ws : List Word) : Option (List Call) :=
  (receive buf buffer ws).bind fun x =>
    (asciiToInt x.2 ⟨first, operand, second, []⟩ x.1 newExpr).map fun y =>
      [.writeTerminal (chars "insert expression\n") 18, .readTerminal] ++ conclude y.1 y.2

/-- The value of an expression; the quotient is rounded down. -/
inductive Evaluates (a b : Fin 10) : Byte → ℤ → Prop
  | sum : Evaluates a b 0x2B (a + b)
  | difference : Evaluates a b 0x2D (a - b)
  | product : Evaluates a b 0x2A (a * b)
  | quotient {q r : ℤ} (h : (a : ℤ) = q * b + r) (h0 : 0 ≤ r) (hr : r < b) :
      Evaluates a b 0x2F q

/-- The number in a line of two characters: two digits, or a sign and a digit. -/
inductive Reads : List Byte → ℤ → Prop
  | digits (d e : Fin 10) : Reads [digit d, digit e, newline] (10 * d + e)
  | negative (d : Fin 10) (h : d ≠ 0) : Reads [0x2D, digit d, newline] (-d)

/-- The answer to a text without spaces, with its length. -/
inductive Replies (text : List Byte) : List Byte × ℤ → Prop
  | first (h : ∀ a rest, text ≠ digit a :: rest) :
      Replies text (chars "first input not a number\n", 25)
  | opr {a : Fin 10} {rest : List Byte} (ht : text = digit a :: rest)
      (h : ∀ op rest', op ∈ operators → rest ≠ op :: rest') :
      Replies text (chars "not an allowed operation\n", 23)
  | second {a : Fin 10} {op : Byte} {rest : List Byte} (ht : text = digit a :: op :: rest)
      (hop : op ∈ operators) (h : ∀ b rest', rest ≠ digit b :: rest') :
      Replies text (chars "second input not a number\n", 26)
  | zero {a : Fin 10} {rest : List Byte} (h : Begins text a 0x2F 0 rest) :
      Replies text (chars "division by 0 not allowed\n", 26)
  | result {a b : Fin 10} {op : Byte} {rest str : List Byte} {r : ℤ} (h : Begins text a op b rest)
      (hv : Evaluates a b op r) (hs : Reads str r) : Replies text (str, 3)

/-- What `asciiToInt` looks at: nothing after an error. -/
def typedText : Typed → List Byte
  | .line l => withoutSpaces (l ++ [newline])
  | .error _ => []

section Printing

variable {a b : Fin 10} {op : Byte} {r r' : ℤ} {str str' : List Byte}

theorem ofInt_digit (d : Fin 10) : BitVec.ofInt 8 ((d : ℤ) + 48) = digit d := by
  decide +revert

theorem digits_of_small (h : 0 ≤ r) (h' : r < 10) : ∃ d : Fin 10, r = d :=
  ⟨⟨r.toNat, by omega⟩, by simp; omega⟩

/-- The two characters are those of the result, as long as it has only two. -/
theorem reads_resBuffer (hl : -10 < r) (hu : r < 100) : Reads (resBuffer r) r := by
  unfold resBuffer
  split
  · next hneg =>
    obtain ⟨d, hd⟩ := digits_of_small (r := -r) (by omega) (by omega)
    have hd0 : d ≠ 0 := by
      rintro rfl
      rw [Fin.val_zero, Nat.cast_zero] at hd
      omega
    rw [hd, ofInt_digit, show r = -(d : ℤ) by omega]
    exact .negative d hd0
  · next hpos =>
    rw [Int.tdiv_eq_ediv_of_nonneg (by omega), Int.tmod_eq_emod_of_nonneg (by omega)]
    obtain ⟨d, hd⟩ := digits_of_small (r := r / 10) (by omega) (by omega)
    obtain ⟨e, he⟩ := digits_of_small (r := r % 10) (by omega) (by omega)
    rw [hd, he, ofInt_digit, ofInt_digit, show r = 10 * (d : ℤ) + e by omega]
    exact .digits d e

/-- A number is written in one way only. -/
theorem Reads.unique (h : Reads str r) (h' : Reads str' r') (hr : r = r') : str = str' := by
  cases h with
  | digits d e =>
      cases h' with
      | digits d' e' =>
          have hd : d = d' := Fin.ext (by omega)
          have he : e = e' := Fin.ext (by omega)
          rw [hd, he]
      | negative d' hd' =>
          have h0 : d'.val ≠ 0 := fun hz => hd' (Fin.ext hz)
          omega
  | negative d hd =>
      have h0 : d.val ≠ 0 := fun hz => hd (Fin.ext hz)
      cases h' with
      | digits d' e' => omega
      | negative d' hd' =>
          have he : d = d' := Fin.ext (by omega)
          rw [he]

/-- The remainder makes the quotient that of the division of C. -/
theorem quotient_eq {q : ℤ} (h : (a : ℤ) = q * b + r) (h0 : 0 ≤ r) (hr : r < b) :
    (a : ℤ).tdiv b = q := by
  rw [Int.tdiv_eq_ediv_of_nonneg (by omega), h, Int.add_comm,
    Int.add_mul_ediv_right _ _ (by omega), Int.ediv_eq_zero_of_lt h0 hr, Int.zero_add]

/-- `calculate` evaluates the expression. -/
theorem calculate_eq_ok : calculate a op b = .ok r ↔ Evaluates a b op r := by
  constructor
  · intro h
    unfold calculate at h
    split_ifs at h with h₁ h₂ h₃ h₄ hb
    · obtain rfl := Except.ok.inj h
      exact h₁ ▸ .sum
    · obtain rfl := Except.ok.inj h
      exact h₂ ▸ .difference
    · obtain rfl := Except.ok.inj h
      exact h₃ ▸ .product
    · obtain rfl := Except.ok.inj h
      have hpos : (0 : ℤ) < b := by omega
      rw [Int.tdiv_eq_ediv_of_nonneg (by omega)]
      refine h₄ ▸ .quotient (r := (a : ℤ) % b) ?_ (Int.emod_nonneg _ hb)
        (Int.emod_lt_of_pos _ hpos)
      rw [Int.mul_comm, Int.mul_ediv_add_emod]
  · intro h
    cases h with
    | sum | difference | product => rfl
    | quotient h h0 hr =>
        have hb : (b : ℤ) ≠ 0 := by omega
        rw [← quotient_eq h h0 hr]
        exact if_neg hb

theorem Evaluates.bounds (h : Evaluates a b op r) : -10 < r ∧ r < 100 := by
  cases h with
  | sum => omega
  | difference => omega
  | product => decide +revert
  | quotient h h0 hr =>
      have ha : 0 ≤ (a : ℤ) ∧ (a : ℤ) < 10 := by omega
      constructor
      · by_contra hq
        nlinarith
      · by_contra hq
        nlinarith

/-- Among the expressions only a division by zero has no value. -/
theorem calculate_operators (hop : op ∈ operators) :
    (∃ r, Evaluates a b op r) ∨ op = 0x2F ∧ b = 0 := by
  by_cases hz : op = 0x2F ∧ b = 0
  · exact .inr hz
  · left
    cases hc : calculate a op b with
    | ok r => exact ⟨r, calculate_eq_ok.mp hc⟩
    | error calls =>
        unfold calculate at hc
        split_ifs at hc with h₁ h₂ h₃ h₄ hb
        · exact absurd ⟨h₄, Fin.ext (by omega)⟩ hz
        · have hall : op = 0x2B ∨ op = 0x2D ∨ op = 0x2A ∨ op = 0x2F := by
            revert hop
            decide +revert
          tauto

end Printing

section Overrun
variable {n : ℕ} {expr : Buffer n Byte} {newExpr : NewExpr} {l : List Byte} {i index : ℕ}

/-- With more than nine characters the copy does not fit. -/
theorem deleteLoop_overrun (hl : expr.Holds i l) (hlen : 9 < index + (withoutSpaces l).length) :
    deleteLoop expr l.length i newExpr index = none := by
  induction l generalizing i newExpr index with
  | nil =>
      rw [withoutSpaces, List.filter_nil, List.length_nil] at hlen
      rw [List.length_nil, deleteLoop, Buffer.write, dif_neg (by omega)]
  | cons c l ih =>
      rw [List.length_cons, deleteLoop, hl.1, Option.bind_some]
      by_cases hc : c = space
      · have hskip : withoutSpaces (c :: l) = withoutSpaces l := by
          rw [withoutSpaces, List.filter_cons_of_neg (by simp [hc]), withoutSpaces]
        rw [hskip] at hlen
        rw [if_pos hc]
        exact ih hl.2 hlen
      · have hkeep : withoutSpaces (c :: l) = c :: withoutSpaces l := by
          rw [withoutSpaces, List.filter_cons_of_pos (by simp [hc]), withoutSpaces]
        rw [hkeep, List.length_cons] at hlen
        rw [if_neg hc]
        cases hw : newExpr.write index c with
        | none => rfl
        | some newExpr' => exact ih hl.2 (by omega)

end Overrun

section Replies
variable {n : ℕ} {expr : Buffer n Byte} {newExpr newExpr' : NewExpr} {text rest : List Byte}
  {a b : Fin 10} {op : Byte} {x : List Byte × ℤ} {r : ℤ}

theorem replies_first (h : ∀ a rest, text ≠ digit a :: rest) :
    Replies text x ↔ x = (chars "first input not a number\n", 25) := by
  constructor
  · intro hx
    cases hx with
    | first => rfl
    | opr ht | second ht => exact absurd ht (h _ _)
    | zero hb | result hb => exact absurd hb.2 (h _ _)
  · rintro rfl
    exact .first h

theorem replies_opr (ht : text = digit a :: rest)
    (h : ∀ op rest', op ∈ operators → rest ≠ op :: rest') :
    Replies text x ↔ x = (chars "not an allowed operation\n", 23) := by
  subst ht
  constructor
  · intro hx
    cases hx with
    | first h₁ => exact absurd rfl (h₁ a rest)
    | opr => rfl
    | second ht hop => exact absurd (List.cons.inj ht).2 (h _ _ hop)
    | zero hb | result hb => exact absurd (List.cons.inj hb.2).2 (h _ _ hb.1)
  · rintro rfl
    exact .opr rfl h

theorem replies_second (ht : text = digit a :: op :: rest) (hop : op ∈ operators)
    (h : ∀ b rest', rest ≠ digit b :: rest') :
    Replies text x ↔ x = (chars "second input not a number\n", 26) := by
  subst ht
  constructor
  · intro hx
    cases hx with
    | first h₁ => exact absurd rfl (h₁ a _)
    | opr ht h₁ => exact absurd (List.cons.inj ht).2.symm (h₁ op rest hop)
    | second => rfl
    | zero hb | result hb =>
        exact absurd (List.cons.inj (List.cons.inj hb.2).2).2 (h _ _)
  · rintro rfl
    exact .second rfl hop h

theorem replies_begins (hb : Begins text a op b rest) : Replies text x ↔
    x = (chars "division by 0 not allowed\n", 26) ∧ op = 0x2F ∧ b = 0 ∨
      ∃ r, Evaluates a b op r ∧ x = (resBuffer r, 3) := by
  constructor
  · intro hx
    cases hx with
    | first h => exact absurd hb.2 (h _ _)
    | opr ht h => exact absurd (List.cons.inj (ht.symm.trans hb.2)).2 (h _ _ hb.1)
    | second ht hop h =>
        have hrest := (List.cons.inj (List.cons.inj (ht.symm.trans hb.2)).2).2
        exact absurd hrest (h _ _)
    | zero h =>
        obtain ⟨-, hop, hzero, -⟩ := hb.unique h
        exact .inl ⟨rfl, hop, hzero⟩
    | result h hv hs =>
        obtain ⟨rfl, rfl, rfl, -⟩ := hb.unique h
        have hstr := hs.unique (reads_resBuffer hv.bounds.1 hv.bounds.2) rfl
        exact .inr ⟨_, hv, by rw [hstr]⟩
  · rintro (⟨rfl, rfl, rfl⟩ | ⟨r, hv, rfl⟩)
    · exact .zero hb
    · exact .result hb hv (reads_resBuffer hv.bounds.1 hv.bounds.2)

/-- After an expression `calculate` decides what is printed. -/
theorem conclude_begins (hb : Begins text a op b rest) (hx : Replies text x) :
    conclude 1 ⟨a, op, b, []⟩ = [.writeTerminal x.1 x.2, .terminate] := by
  rw [conclude, if_neg (by decide)]
  rcases (replies_begins hb).mp hx with ⟨rfl, rfl, rfl⟩ | ⟨r, hv, rfl⟩
  · rfl
  · rw [calculate_eq_ok.mpr hv]
    rfl

/-- There is one answer to each text. -/
theorem replies_unique (hb : Begins text a op b rest) : ∃ x, ∀ y, Replies text y ↔ y = x := by
  rcases calculate_operators (a := a) (b := b) hb.1 with ⟨r, hv⟩ | ⟨rfl, rfl⟩
  · refine ⟨(resBuffer r, 3), fun y => ?_⟩
    rw [replies_begins hb]
    constructor
    · rintro (⟨-, rfl, rfl⟩ | ⟨r', hv', rfl⟩)
      · exact absurd (calculate_eq_ok.mpr hv) (by simp [calculate])
      · rw [Except.ok.inj ((calculate_eq_ok.mpr hv).symm.trans (calculate_eq_ok.mpr hv'))]
    · rintro rfl
      exact .inr ⟨r, hv, rfl⟩
  · refine ⟨(chars "division by 0 not allowed\n", 26), fun y => ?_⟩
    rw [replies_begins hb]
    constructor
    · rintro (⟨rfl, -⟩ | ⟨r', hv', -⟩)
      · rfl
      · exact absurd (calculate_eq_ok.mpr hv') (by simp [calculate])
    · rintro rfl
      exact .inl ⟨rfl, rfl, rfl⟩

/-- With the text in `newExpr` the process prints the answer to it and ends. -/
theorem asciiToInt_replies {len : ℤ} (hd : deleteSpaces expr len newExpr = some newExpr')
    (hh : newExpr'.Holds 0 (text ++ [eos])) (first : ℤ) (operand : Byte) (second : ℤ) :
    ∃ y x, asciiToInt expr ⟨first, operand, second, []⟩ len newExpr = some y ∧
      (∀ z, Replies text z ↔ z = x) ∧
      conclude y.1 y.2 = [.writeTerminal x.1 x.2, .terminate] := by
  have heos : value eos < 0 ∨ 9 < value eos := by decide
  have herr : ∀ (out : Out) (s : String) (len : ℤ), out.written = [] →
      conclude (-1) (out.write s len) = [.writeTerminal (chars s) len, .terminate] := by
    intro out s len hw
    rw [conclude, if_pos rfl, Out.write, hw]
    rfl
  rcases text with _ | ⟨c₀, t⟩
  · refine ⟨_, _, asciiToInt_first hd hh.1 heos, fun z => replies_first ?_, herr _ _ _ rfl⟩
    exact fun _ _ he => by cases he
  · by_cases hv₀ : value c₀ < 0 ∨ 9 < value c₀
    · refine ⟨_, _, asciiToInt_first hd hh.1 hv₀, fun z => replies_first ?_, herr _ _ _ rfl⟩
      intro a rest he
      obtain ⟨rfl, -⟩ := List.cons.inj he
      exact digit_inRange a hv₀
    · obtain ⟨a, rfl⟩ := exists_digit hv₀
      rcases t with _ | ⟨op, t⟩
      · refine ⟨_, _, asciiToInt_opr hd hh.1 hh.2.1 (by decide), fun z => replies_opr rfl ?_,
          herr _ _ _ rfl⟩
        exact fun _ _ _ he => by cases he
      by_cases hop : op ∈ operators
      · rcases t with _ | ⟨c₂, rest⟩
        · refine ⟨_, _, asciiToInt_second hd hh.1 hh.2.1 hop hh.2.2.1 heos,
            fun z => replies_second rfl hop ?_, herr _ _ _ rfl⟩
          exact fun _ _ he => by cases he
        by_cases hv₂ : value c₂ < 0 ∨ 9 < value c₂
        · refine ⟨_, _, asciiToInt_second hd hh.1 hh.2.1 hop hh.2.2.1 hv₂,
            fun z => replies_second rfl hop ?_, herr _ _ _ rfl⟩
          intro b rest' he
          obtain ⟨rfl, -⟩ := List.cons.inj he
          exact digit_inRange b hv₂
        · obtain ⟨b, rfl⟩ := exists_digit hv₂
          have hb : Begins (digit a :: op :: digit b :: rest) a op b rest := ⟨hop, rfl⟩
          obtain ⟨x, hx⟩ := replies_unique hb
          exact ⟨_, x, asciiToInt_success hd hh.1 hh.2.1 hop hh.2.2.1, hx,
            conclude_begins hb ((hx x).mpr rfl)⟩
      · refine ⟨_, _, asciiToInt_opr hd hh.1 hh.2.1 hop, fun z => replies_opr rfl ?_,
          herr _ _ _ rfl⟩
        rintro op' rest' hop' he
        exact hop ((List.cons.inj he).1 ▸ hop')

end Replies

section Main
variable {typed : Typed} {ws : List Word} {n : ℕ} {s : Buffer n Byte} {r : ℤ}

/-- What `deleteSpaces` goes over: the line, and nothing after an error. -/
theorem exists_copied (hr : typed.Returns r) (hh : s.Holds 0 typed.stored)
    (hroom : typed.stored.length ≤ 10) :
    ∃ l, r.toNat = l.length ∧ s.Holds 0 l ∧ typedText typed = withoutSpaces l := by
  cases typed with
  | line l =>
      have hall : (Typed.line l).stored = l ++ [newline] := by
        apply List.take_of_length_le
        have hm : maxStrLeng.toNat = 128 := rfl
        rw [Typed.stored, List.length_take] at hroom
        omega
      refine ⟨l ++ [newline], ?_, hall ▸ hh, rfl⟩
      rw [show r = _ from hr, hall, Int.toNat_natCast]
  | error l =>
      refine ⟨[], ?_, trivial, rfl⟩
      rw [List.length_nil, Int.toNat_of_nonpos hr]

/-- The two buffers have room for what is typed. -/
def Fits (typed : Typed) : Prop := typed.stored.length ≤ 10 ∧ (typedText typed).length ≤ 9

instance (typed : Typed) : Decidable (Fits typed) := inferInstanceAs (Decidable (_ ∧ _))

end Main
end PandOSsh.Calc
