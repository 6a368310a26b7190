import PandOSsh.Testers.Shell

/-!
# The calculator (testers/calc.c)

`asciiToInt` copies the expression without its spaces to a buffer of 10 bytes and
looks at the first three of them. An access outside of a buffer has no result.
-/

namespace PandOSsh.Calc
open Library SupportLevel
open Shell (chars eos newline space)

/-- `char newExpr[10]` -/
abbrev NewExpr := Buffer 10 Byte

section DeleteSpaces
variable {n : ℕ}

/-- The last rounds of the loop, from the index i on. -/
def deleteLoop (expr : Buffer n Byte) : ℕ → ℕ → NewExpr → ℕ → Option NewExpr
  | 0, _, newExpr, index => newExpr.write index eos
  | rounds + 1, i, newExpr, index => (expr.read i).bind fun c =>
      if c = space then deleteLoop expr rounds (i + 1) newExpr index
      else (newExpr.write index c).bind fun newExpr =>
        deleteLoop expr rounds (i + 1) newExpr (index + 1)

def deleteSpaces (expr : Buffer n Byte) (len : ℤ) (newExpr : NewExpr) : Option NewExpr :=
  deleteLoop expr len.toNat 0 newExpr 0

end DeleteSpaces

/-- What the pointers of `asciiToInt` point to, and the WRITETERMINAL requests: the
string and the length. -/
structure Out where
  first : ℤ
  opr : Byte
  second : ℤ
  written : List (List Byte × ℤ)
deriving DecidableEq

def Out.write (out : Out) (s : String) (len : ℤ) : Out :=
  { out with written := out.written ++ [(chars s, len)] }

/-- `newExpr[i] - 48` -/
def value (c : Byte) : ℤ := c.toNat - 48

/-- The operators `+`, `-`, `*` and `/`. -/
def operators : List Byte := chars "+-*/"

/-- `newExpr` holds anything before the call, as `out` does. -/
def asciiToInt {n : ℕ} (expr : Buffer n Byte) (out : Out) (len : ℤ) (newExpr : NewExpr) :
    Option (ℤ × Out) :=
  (deleteSpaces expr len newExpr).bind fun newExpr => (newExpr.read 0).bind fun c₀ =>
    let out := { out with first := value c₀ }
    if out.first < 0 ∨ 9 < out.first then some (-1, out.write "first input not a number\n" 25)
    else (newExpr.read 1).bind fun c₁ =>
      if c₁ ∈ operators then
        let out := { out with opr := c₁ }
        (newExpr.read 2).bind fun c₂ =>
          let out := { out with second := value c₂ }
          if out.second < 0 ∨ 9 < out.second then
            some (-1, out.write "second input not a number\n" 26)
          else some (1, out)
      else some (-1, out.write "not an allowed operation\n" 23)

/-- The characters that are left. -/
def withoutSpaces (l : List Byte) : List Byte := l.filter (· ≠ space)

def digit (d : Fin 10) : Byte := BitVec.ofNat 8 (48 + d)

/-- The documented format: digit, operator, digit, and perhaps the end of the line. -/
inductive Expression : List Byte → Fin 10 → Byte → Fin 10 → Prop
  | plain {a b : Fin 10} {op : Byte} (h : op ∈ operators) :
      Expression [digit a, op, digit b] a op b
  | line {a b : Fin 10} {op : Byte} (h : op ∈ operators) :
      Expression [digit a, op, digit b, newline] a op b

/-- The result is the one that the format asks for. -/
structure Accepts (text : List Byte) (r : ℤ × Out) : Prop where
  one : r.1 = 1 ↔ ∃ a op b, Expression text a op b
  values : ∀ a op b, Expression text a op b → r.2.first = a ∧ r.2.opr = op ∧ r.2.second = b
  invalid : (¬ ∃ a op b, Expression text a op b) → r.1 = -1

/-- The text begins with an expression. -/
def Begins (text : List Byte) (a : Fin 10) (op : Byte) (b : Fin 10) (rest : List Byte) : Prop :=
  op ∈ operators ∧ text = digit a :: op :: digit b :: rest

/-- An expression goes on with something else than the end of the line. -/
def Trailing (text : List Byte) : Prop :=
  ∃ a op b rest, Begins text a op b rest ∧ rest ≠ [] ∧ rest ≠ [newline]

section Spaces
variable {n : ℕ} {expr : Buffer n Byte} {newExpr : NewExpr} {l done : List Byte} {i : ℕ}

/-- The loop appends what is left of the rest of the expression. -/
theorem deleteLoop_holds (hl : expr.Holds i l) (hd : newExpr.Holds 0 done)
    (hlen : done.length + (withoutSpaces l).length ≤ 9) :
    ∃ newExpr', deleteLoop expr l.length i newExpr done.length = some newExpr' ∧
      newExpr'.Holds 0 (done ++ withoutSpaces l ++ [eos]) := by
  induction l generalizing i newExpr done with
  | nil =>
      rw [withoutSpaces, List.filter_nil, List.length_nil] at hlen
      obtain ⟨newExpr', hw⟩ := Buffer.exists_write newExpr (show done.length < 10 by omega) eos
      refine ⟨newExpr', hw, ?_⟩
      rw [withoutSpaces, List.filter_nil, List.append_nil, Buffer.Holds.append]
      refine ⟨hd.write hw (.inr (by omega)), ?_, trivial⟩
      rw [Buffer.read_write hw, if_pos (Nat.zero_add _)]
  | cons c l ih =>
      rw [List.length_cons, deleteLoop, hl.1, Option.bind_some]
      by_cases hc : c = space
      · have hskip : withoutSpaces (c :: l) = withoutSpaces l := by
          rw [withoutSpaces, List.filter_cons_of_neg (by simp [hc]), withoutSpaces]
        rw [if_pos hc, hskip]
        rw [hskip] at hlen
        exact ih hl.2 hd hlen
      · have hkeep : withoutSpaces (c :: l) = c :: withoutSpaces l := by
          rw [withoutSpaces, List.filter_cons_of_pos (by simp [hc]), withoutSpaces]
        rw [hkeep, List.length_cons] at hlen
        obtain ⟨newExpr₁, hw⟩ := Buffer.exists_write newExpr (show done.length < 10 by omega) c
        have hd₁ : newExpr₁.Holds 0 (done ++ [c]) := by
          rw [Buffer.Holds.append]
          refine ⟨hd.write hw (.inr (by omega)), ?_, trivial⟩
          rw [Buffer.read_write hw, if_pos (Nat.zero_add _)]
        have hlen₁ : (done ++ [c]).length = done.length + 1 := by simp
        obtain ⟨newExpr', hloop, hholds⟩ := ih hl.2 hd₁ (by omega)
        rw [hlen₁] at hloop
        refine ⟨newExpr', ?_, ?_⟩
        · rw [if_neg hc, hw]
          exact hloop
        · rw [hkeep]
          rw [List.append_assoc done, List.singleton_append] at hholds
          exact hholds

theorem deleteSpaces_holds (hl : expr.Holds 0 l) (hlen : (withoutSpaces l).length ≤ 9)
    (newExpr : NewExpr) :
    ∃ newExpr', deleteSpaces expr l.length newExpr = some newExpr' ∧
      newExpr'.Holds 0 (withoutSpaces l ++ [eos]) := by
  have hd : newExpr.Holds 0 [] := trivial
  rw [deleteSpaces, Int.toNat_natCast]
  exact deleteLoop_holds hl hd (by simpa using hlen)

end Spaces

section Parse
variable {n : ℕ} {expr : Buffer n Byte} {newExpr : NewExpr} {l text rest : List Byte}
  {a b : Fin 10} {c op : Byte} {out : Out}

@[simp] theorem value_digit : ∀ a : Fin 10, value (digit a) = a := by decide

theorem digit_injective : ∀ a b : Fin 10, digit a = digit b → a = b := by decide

theorem inRange (a : Fin 10) : ¬ ((a : ℤ) < 0 ∨ 9 < (a : ℤ)) := by omega

theorem digit_inRange (a : Fin 10) : ¬ (value (digit a) < 0 ∨ 9 < value (digit a)) := by
  rw [value_digit]
  exact inRange a

theorem exists_digit (h : ¬ (value c < 0 ∨ 9 < value c)) : ∃ a, c = digit a := by
  rw [value] at h
  have hlt : c.toNat - 48 < 10 := by omega
  refine ⟨⟨c.toNat - 48, hlt⟩, BitVec.eq_of_toNat_eq ?_⟩
  rw [digit, BitVec.toNat_ofNat]
  change c.toNat = (48 + (c.toNat - 48)) % 2 ^ 8
  omega

section Results
variable {len : ℤ} {newExpr' : NewExpr} {c₀ c₁ c₂ : Byte}

theorem asciiToInt_first (hd : deleteSpaces expr len newExpr = some newExpr')
    (h0 : newExpr'.read 0 = some c₀) (hv : value c₀ < 0 ∨ 9 < value c₀) :
    asciiToInt expr out len newExpr =
      some (-1, { out with first := value c₀ }.write "first input not a number\n" 25) := by
  simp only [asciiToInt, hd, h0, Option.bind_some, if_pos hv]

theorem asciiToInt_opr (hd : deleteSpaces expr len newExpr = some newExpr')
    (h0 : newExpr'.read 0 = some (digit a)) (h1 : newExpr'.read 1 = some c₁)
    (hop : c₁ ∉ operators) :
    asciiToInt expr out len newExpr =
      some (-1, { out with first := a }.write "not an allowed operation\n" 23) := by
  have hv := inRange a
  simp only [asciiToInt, hd, h0, h1, Option.bind_some, if_neg hv, if_neg hop, value_digit]

theorem asciiToInt_second (hd : deleteSpaces expr len newExpr = some newExpr')
    (h0 : newExpr'.read 0 = some (digit a)) (h1 : newExpr'.read 1 = some op)
    (hop : op ∈ operators) (h2 : newExpr'.read 2 = some c₂) (hv : value c₂ < 0 ∨ 9 < value c₂) :
    asciiToInt expr out len newExpr = some (-1,
      { out with first := a, opr := op, second := value c₂ }.write
        "second input not a number\n" 26) := by
  have hv₀ := inRange a
  simp only [asciiToInt, hd, h0, h1, h2, Option.bind_some, if_neg hv₀, if_pos hop, if_pos hv,
    value_digit]

theorem asciiToInt_success (hd : deleteSpaces expr len newExpr = some newExpr')
    (h0 : newExpr'.read 0 = some (digit a)) (h1 : newExpr'.read 1 = some op)
    (hop : op ∈ operators) (h2 : newExpr'.read 2 = some (digit b)) :
    asciiToInt expr out len newExpr =
      some (1, { out with first := a, opr := op, second := b }) := by
  have hv₀ := inRange a
  have hv₂ := inRange b
  simp only [asciiToInt, hd, h0, h1, h2, Option.bind_some, if_neg hv₀, if_pos hop, if_neg hv₂,
    value_digit]

end Results

/-- What the text begins with is all that counts. -/
theorem asciiToInt_begins (hl : expr.Holds 0 l) (hlen : (withoutSpaces l).length ≤ 9)
    (out : Out) (newExpr : NewExpr) : ∃ r, asciiToInt expr out l.length newExpr = some r ∧
      ((∃ a op b rest, Begins (withoutSpaces l) a op b rest ∧ r.1 = 1 ∧ r.2.first = a ∧
          r.2.opr = op ∧ r.2.second = b) ∨
        (∀ a op b rest, ¬ Begins (withoutSpaces l) a op b rest) ∧ r.1 = -1) := by
  obtain ⟨newExpr', hd, hh⟩ := deleteSpaces_holds hl hlen newExpr
  generalize withoutSpaces l = text at hh
  have heos : value eos < 0 ∨ 9 < value eos := by decide
  rcases text with _ | ⟨c₀, t⟩
  · refine ⟨_, asciiToInt_first hd hh.1 heos, .inr ⟨?_, rfl⟩⟩
    rintro a op b rest ⟨_, he⟩
    cases he
  · by_cases hv₀ : value c₀ < 0 ∨ 9 < value c₀
    · refine ⟨_, asciiToInt_first hd hh.1 hv₀, .inr ⟨?_, rfl⟩⟩
      rintro a op b rest ⟨_, he⟩
      obtain ⟨rfl, _⟩ := List.cons.inj he
      exact digit_inRange a hv₀
    · obtain ⟨a, rfl⟩ := exists_digit hv₀
      rcases t with _ | ⟨op, t⟩
      · refine ⟨_, asciiToInt_opr hd hh.1 hh.2.1 (by decide), .inr ⟨?_, rfl⟩⟩
        rintro a op b rest ⟨_, he⟩
        exact absurd he (by simp)
      · by_cases hop : op ∈ operators
        · rcases t with _ | ⟨c₂, rest⟩
          · refine ⟨_, asciiToInt_second hd hh.1 hh.2.1 hop hh.2.2.1 heos, .inr ⟨?_, rfl⟩⟩
            rintro a op b rest ⟨_, he⟩
            exact absurd he (by simp)
          · by_cases hv₂ : value c₂ < 0 ∨ 9 < value c₂
            · refine ⟨_, asciiToInt_second hd hh.1 hh.2.1 hop hh.2.2.1 hv₂, .inr ⟨?_, rfl⟩⟩
              rintro a op b rest ⟨_, he⟩
              simp only [List.cons.injEq] at he
              exact digit_inRange b (he.2.2.1 ▸ hv₂)
            · obtain ⟨b, rfl⟩ := exists_digit hv₂
              exact ⟨_, asciiToInt_success hd hh.1 hh.2.1 hop hh.2.2.1,
                .inl ⟨a, op, b, rest, ⟨hop, rfl⟩, rfl, rfl, rfl, rfl⟩⟩
        · refine ⟨_, asciiToInt_opr hd hh.1 hh.2.1 hop, .inr ⟨?_, rfl⟩⟩
          rintro a op' b rest ⟨hop', he⟩
          simp only [List.cons.injEq] at he
          exact hop (he.2.1 ▸ hop')

/-- An expression is what begins with one and goes on with nothing, or with the end of
the line. -/
theorem exists_expression : (∃ a op b, Expression text a op b) ↔
    ∃ a op b rest, Begins text a op b rest ∧ (rest = [] ∨ rest = [newline]) := by
  constructor
  · rintro ⟨a, op, b, h⟩
    cases h with
    | plain h => exact ⟨a, op, b, [], ⟨h, rfl⟩, .inl rfl⟩
    | line h => exact ⟨a, op, b, [newline], ⟨h, rfl⟩, .inr rfl⟩
  · rintro ⟨a, op, b, rest, ⟨h, rfl⟩, rfl | rfl⟩
    · exact ⟨a, op, b, .plain h⟩
    · exact ⟨a, op, b, .line h⟩

theorem Expression.begins (h : Expression text a op b) : ∃ rest, Begins text a op b rest := by
  cases h with
  | plain h => exact ⟨[], h, rfl⟩
  | line h => exact ⟨[newline], h, rfl⟩

theorem Begins.unique {a' b' : Fin 10} {op' : Byte} {rest' : List Byte}
    (h : Begins text a op b rest) (h' : Begins text a' op' b' rest') :
    a = a' ∧ op = op' ∧ b = b' ∧ rest = rest' := by
  have he := h.2.symm.trans h'.2
  simp only [List.cons.injEq] at he
  exact ⟨digit_injective _ _ he.1, he.2.1, digit_injective _ _ he.2.2.1, he.2.2.2⟩

/-- `asciiToInt` accepts the documented expressions, except that it also accepts those
that go on behind the second digit. -/
theorem asciiToInt_accepts_iff (hl : expr.Holds 0 l) (hlen : (withoutSpaces l).length ≤ 9)
    (out : Out) (newExpr : NewExpr) :
    (∃ r, asciiToInt expr out l.length newExpr = some r ∧ Accepts (withoutSpaces l) r) ↔
      ¬ Trailing (withoutSpaces l) := by
  obtain ⟨r, hr, hcases⟩ := asciiToInt_begins hl hlen out newExpr
  constructor
  · rintro ⟨r', hr', hacc⟩ ⟨a, op, b, rest, hb, hne, hne'⟩
    rw [hr, Option.some.injEq] at hr'
    subst hr'
    rcases hcases with ⟨_, _, _, _, _, h1, _⟩ | ⟨hnone, _⟩
    · obtain ⟨a₁, op₁, b₁, rest₁, hb₁, hrest⟩ := exists_expression.mp (hacc.one.mp h1)
      have hsame := (hb₁.unique hb).2.2.2
      rcases hrest with hrest | hrest
      · exact hne (hsame ▸ hrest)
      · exact hne' (hsame ▸ hrest)
    · exact hnone a op b rest hb
  · intro hnot
    refine ⟨r, hr, ?_⟩
    rcases hcases with ⟨a, op, b, rest, hb, h1, hfirst, hopr, hsecond⟩ | ⟨hnone, hinv⟩
    · have hex : ∃ a op b, Expression (withoutSpaces l) a op b := by
        apply exists_expression.mpr
        refine ⟨a, op, b, rest, hb, ?_⟩
        by_contra hrest
        rw [not_or] at hrest
        exact hnot ⟨a, op, b, rest, hb, hrest⟩
      constructor
      · exact ⟨fun _ => hex, fun _ => h1⟩
      · intro a' op' b' h
        obtain ⟨rest', hb'⟩ := h.begins
        obtain ⟨rfl, rfl, rfl, _⟩ := hb.unique hb'
        exact ⟨hfirst, hopr, hsecond⟩
      · exact fun hno => absurd hex hno
    · have hno : ¬ ∃ a op b, Expression (withoutSpaces l) a op b := by
        rintro ⟨a, op, b, h⟩
        obtain ⟨rest, hb⟩ := h.begins
        exact hnone a op b rest hb
      constructor
      · constructor
        · intro h1
          rw [hinv] at h1
          exact absurd h1 (by decide)
        · exact fun hex => absurd hex hno
      · exact fun a op b h => absurd ⟨a, op, b, h⟩ hno
      · exact fun _ => hinv

end Parse

section Lines

/-- The line ` 3 + 4`. -/
def spaced : Buffer 7 Byte := ![0x20, 0x33, 0x20, 0x2B, 0x20, 0x34, 0x0A]

theorem asciiToInt_accepts_spaced :
    withoutSpaces [0x20, 0x33, 0x20, 0x2B, 0x20, 0x34, 0x0A] = [digit 3, 0x2B, digit 4, newline] ∧
      ((∃ r, asciiToInt spaced ⟨0, 0, 0, []⟩ 7 (fun _ => 0) = some r ∧
        Accepts (withoutSpaces [0x20, 0x33, 0x20, 0x2B, 0x20, 0x34, 0x0A]) r) ↔
          ¬ Trailing (withoutSpaces [0x20, 0x33, 0x20, 0x2B, 0x20, 0x34, 0x0A])) := by
  have hl : spaced.Holds 0 [0x20, 0x33, 0x20, 0x2B, 0x20, 0x34, 0x0A] :=
    ⟨rfl, rfl, rfl, rfl, rfl, rfl, rfl, trivial⟩
  exact ⟨by decide, asciiToInt_accepts_iff hl (by decide) _ _⟩

/-- The line `3+4x`. -/
def trailing : Buffer 5 Byte := ![0x33, 0x2B, 0x34, 0x78, 0x0A]

theorem Expression.length {text : List Byte} {a b : Fin 10} {op : Byte}
    (h : Expression text a op b) : text.length ≤ 4 := by
  cases h with
  | plain | line => simp

/-- The calculator takes `3+4x` for an expression. -/
theorem asciiToInt_accepts_trailing :
    (asciiToInt trailing ⟨0, 0, 0, []⟩ 5 fun _ => 0) = some (1, ⟨3, 0x2B, 4, []⟩) ∧
      ¬ ∃ r, asciiToInt trailing ⟨0, 0, 0, []⟩ 5 (fun _ => 0) = some r ∧
        Accepts (withoutSpaces [0x33, 0x2B, 0x34, 0x78, 0x0A]) r := by
  have hone : (asciiToInt trailing ⟨0, 0, 0, []⟩ 5 fun _ => 0) = some (1, ⟨3, 0x2B, 4, []⟩) := by
    decide
  refine ⟨hone, ?_⟩
  rintro ⟨r, hr, hacc⟩
  rw [hone, Option.some.injEq] at hr
  subst hr
  obtain ⟨a, op, b, h⟩ := hacc.one.mp rfl
  exact absurd h.length (by decide)

end Lines
end PandOSsh.Calc
