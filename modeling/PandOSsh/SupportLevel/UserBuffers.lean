import PandOSsh.SupportLevel.Handlers

/-!
# User buffers of the terminal syscalls

`sys4` tests the end of the string with an addition that can wrap around, and
`sys5` tests the start of the buffer only. The exact arguments for which each
stays inside user memory, on the addresses that the handlers use.
-/

namespace PandOSsh.SupportLevel

section Steps
variable (a : Asid)

/-- A U-proc that takes these steps, as far as control and memory go. -/
def steps : List Input → Control × Vm → Option (Control × Vm)
  | [], x => some x
  | i :: is, x => (next a x.2 x.1 i).bind fun r => steps is (r.1, r.2.1)

/-- `sys2` never leaves for other code. -/
theorem next_sys2 {vm : Vm} {pt : Sys2Point} {i : Input} {r : Control × Vm × Service}
    (h : next a vm (.sys2 pt) i = some r) : ∃ pt', r.1 = .sys2 pt' := by
  cases pt <;> simp only [next, sys2Step, Input.onGo_eq_some] at h <;> obtain ⟨_, rfl⟩ := h
  case checkFlag => split <;> exact ⟨_, rfl⟩
  all_goals exact ⟨_, rfl⟩

theorem steps_sys2 {is : List Input} {pt : Sys2Point} {vm : Vm} {x : Control × Vm}
    (h : steps a is (.sys2 pt, vm) = some x) : ∃ pt', x.1 = .sys2 pt' := by
  induction is generalizing pt vm with
  | nil =>
      simp only [steps, Option.some.injEq] at h
      exact ⟨pt, by rw [← h]⟩
  | cons i is ih =>
      simp only [steps, Option.bind_eq_some_iff] at h
      obtain ⟨r, hr, hx⟩ := h
      obtain ⟨pt', hpt⟩ := next_sys2 a hr
      rw [hpt] at hx
      exact ih hx

end Steps

section WriteTerminal
variable {a1 a2 : Word}

/-- The string is at most `MAXSTRLENG` long and inside user memory, without
wrap-around. -/
structure InUserMemory (a1 a2 : Word) : Prop where
  nonneg : 0 ≤ a2.toInt
  short : a2.toInt ≤ maxStrLeng
  inside : ∀ i : ℕ, (i : ℤ) < a2.toInt →
    kuseg.toNat ≤ a1.toNat + i ∧ a1.toNat + i < userStackTop.toNat
  empty : a2 = 0 → kuseg.toNat ≤ a1.toNat ∧ a1.toNat ≤ userStackTop.toNat

/-- The U-proc ends up in `sys2` and stays there, whatever happens. -/
def Terminated (c : Control) : Prop :=
  ∀ a is vm x, steps a is (c, vm) = some x → ∃ pt, x.1 = .sys2 pt

theorem terminated_sys2 (pt : Sys2Point) : Terminated (.sys2 pt) := by
  intro a is vm x h
  exact steps_sys2 a h

theorem not_terminated_run (code : Code) : ¬ Terminated (.run code) := by
  intro h
  obtain ⟨pt, hpt⟩ := h ⟨0, by decide⟩ [] ⟨fun _ _ => ⟨0, 0⟩, fun _ => Vm.freeEntry, 0, fun _ => false,
    fun _ => none, fun _ _ => 0, fun _ _ _ => 0⟩ _ rfl
  cases hpt

/-- What `sys4` is to do with its arguments. -/
structure Guards (a1 a2 : Word) : Prop where
  writes : InUserMemory a1 a2 →
    sys4 a1 a2 = .run (.writeTerminal a1 a2.toInt.toNat .passeren)
  terminates : ¬ InUserMemory a1 a2 → Terminated (sys4 a1 a2)

theorem sys4_writes_iff : sys4 a1 a2 = .run (.writeTerminal a1 a2.toInt.toNat .passeren) ↔
    kuseg ≤ a1 ∧ a1 + a2 ≤ userStackTop ∧ 0 ≤ a2.toInt ∧ a2.toInt ≤ maxStrLeng := by
  unfold sys4
  split
  · next h =>
    simp only [reduceCtorEq, false_iff]
    intro ⟨h1, h2, _⟩
    cases h with
    | inl h => exact absurd h1 (BitVec.not_le.mpr h)
    | inr h => exact absurd h2 (BitVec.not_le.mpr h)
  · next h =>
    rw [not_or, BitVec.not_lt, BitVec.not_lt] at h
    split
    · next hl =>
      simp only [reduceCtorEq, false_iff]
      intro ⟨_, _, h1, h2⟩
      cases hl with
      | inl hl => exact absurd h1 (not_le.mpr hl)
      | inr hl => exact absurd h2 (not_le.mpr hl)
    · next hl =>
      rw [not_or, not_lt, not_lt] at hl
      simp only [true_iff]
      exact ⟨h.1, h.2, hl.1, hl.2⟩

theorem sys4_cases (a1 a2 : Word) :
    sys4 a1 a2 = .run (.writeTerminal a1 a2.toInt.toNat .passeren) ∨
      sys4 a1 a2 = .sys2 .checkFlag := by
  unfold sys4
  split
  · exact .inr rfl
  · split
    · exact .inr rfl
    · exact .inl rfl

/-- A length that is not negative is the same number with and without sign. -/
theorem toInt_eq_toNat {w : Word} (h : 0 ≤ w.toInt) : w.toInt = w.toNat := by
  have hlt := w.isLt
  rw [BitVec.toInt_eq_toNat_cond] at h ⊢
  split <;> omega

theorem toNat_pos {w : Word} (h : w ≠ 0) : 0 < w.toNat := by
  rw [Nat.pos_iff_ne_zero]
  intro hz
  exact h (BitVec.eq_of_toNat_eq hz)

theorem toNat_kuseg : kuseg.toNat = 2 ^ 31 := by decide

theorem toNat_userStackTop : userStackTop.toNat = 3 * 2 ^ 30 := by decide

/-- Without wrap-around the two tests say what they are meant to say. -/
theorem inUserMemory_iff (h : a1.toNat + a2.toNat < 2 ^ 32) : InUserMemory a1 a2 ↔
    kuseg ≤ a1 ∧ a1 + a2 ≤ userStackTop ∧ 0 ≤ a2.toInt ∧ a2.toInt ≤ maxStrLeng := by
  have hk := toNat_kuseg
  have ht := toNat_userStackTop
  rw [BitVec.le_def, BitVec.le_def, BitVec.toNat_add, Nat.mod_eq_of_lt h]
  constructor
  · intro hi
    have hn := toInt_eq_toNat hi.nonneg
    refine ⟨?_, ?_, hi.nonneg, hi.short⟩
    · by_cases hz : a2 = 0
      · exact (hi.empty hz).1
      · have hpos : 0 < a2.toNat := toNat_pos hz
        have := hi.inside 0 (by omega)
        omega
    · by_cases hz : a2 = 0
      · have := hi.empty hz
        rw [hz]
        simpa using this.2
      · have hpos : 0 < a2.toNat := toNat_pos hz
        have := hi.inside (a2.toNat - 1) (by omega)
        omega
  · intro ⟨h1, h2, h3, h4⟩
    have hn := toInt_eq_toNat h3
    constructor
    · exact h3
    · exact h4
    · intro i hi
      omega
    · intro hz
      rw [hz] at h2
      exact ⟨h1, by simpa using h2⟩

/-- `sys4` lets exactly the strings through that are inside user memory, unless the
sum of address and length wraps around. -/
theorem sys4_guards_iff (a1 a2 : Word) : Guards a1 a2 ↔
    ¬ (0 ≤ a2.toInt ∧ a2.toInt ≤ maxStrLeng ∧ 2 ^ 32 ≤ a1.toNat + a2.toNat) := by
  have hk := toNat_kuseg
  have ht := toNat_userStackTop
  constructor
  · intro hg ⟨h0, h1, hw⟩
    have hn := toInt_eq_toNat h0
    have hm : maxStrLeng = 128 := rfl
    have hlt := a1.isLt
    have hout : ¬ InUserMemory a1 a2 := by
      intro hi
      have := hi.inside (a2.toNat - 1) (by omega)
      omega
    have hsum : (a1 + a2).toNat = a1.toNat + a2.toNat - 2 ^ 32 := by
      rw [BitVec.toNat_add, Nat.mod_eq_sub_mod hw, Nat.mod_eq_of_lt (by omega)]
    have hreach : sys4 a1 a2 = .run (.writeTerminal a1 a2.toInt.toNat .passeren) := by
      rw [sys4_writes_iff, BitVec.le_def, BitVec.le_def, hsum]
      omega
    have hterm := hg.terminates hout
    rw [hreach] at hterm
    exact not_terminated_run _ hterm
  · intro hn
    by_cases hlen : 0 ≤ a2.toInt ∧ a2.toInt ≤ maxStrLeng
    · have hw : a1.toNat + a2.toNat < 2 ^ 32 := by
        by_contra hw
        exact hn ⟨hlen.1, hlen.2, by omega⟩
      have hiff := (inUserMemory_iff hw).trans sys4_writes_iff.symm
      constructor
      · exact hiff.mp
      · intro hi
        rcases sys4_cases a1 a2 with hc | hc
        · exact absurd (hiff.mpr hc) hi
        · rw [hc]
          exact terminated_sys2 _
    · constructor
      · intro hi
        exact absurd ⟨hi.nonneg, hi.short⟩ hlen
      · intro _
        rcases sys4_cases a1 a2 with hc | hc
        · exact absurd (sys4_writes_iff.mp hc).2.2 hlen
        · rw [hc]
          exact terminated_sys2 _

/-- The string of 32 characters at 0xFFFFFFF0 is outside user memory, and its first
byte is what `writeTerminal` reads next. -/
theorem sys4_wraps : ¬ Guards 0xFFFFFFF0 0x20 ∧
    sys4 0xFFFFFFF0 0x20 = .run (.writeTerminal 0xFFFFFFF0 32 .passeren) ∧
    Code.touches 0xFFFFFFF0 (.writeTerminal 0xFFFFFFF0 32 (nextChar 32 0)) = true := by
  have hs : sys4 0xFFFFFFF0 0x20 = .run (.writeTerminal 0xFFFFFFF0 32 .passeren) := by decide
  refine ⟨fun hg => ?_, hs, by decide⟩
  have hout : ¬ InUserMemory 0xFFFFFFF0 0x20 := by
    intro hi
    have hlast := (hi.inside 0 (by decide)).2
    exact absurd hlast (by decide)
  have hterm := hg.terminates hout
  rw [hs] at hterm
  exact not_terminated_run _ hterm

end WriteTerminal

section ReadTerminal
variable {a1 buf : Word} {n : ℕ} {w : Word} {ws : List Word}

/-- What the loop of `readTerminal` stores, from its head with n characters
received, when the receiver returns these statuses, and where it then stands. -/
def readLoop (buf : Word) : ℕ → List Word → List (Word × Byte) × ReadPoint
  | n, [] => ([], .receive n)
  | n, w :: ws =>
      if w &&& 0xFF = charRecv then
        let c := w.extractLsb' 8 8
        let stored := if (n : ℤ) < maxStrLeng then [(buf + BitVec.ofNat 32 n, c)] else []
        match afterChar (if (n : ℤ) < maxStrLeng then n + 1 else n) c with
        | .receive n' => (stored ++ (readLoop buf n' ws).1, (readLoop buf n' ws).2)
        | pt => (stored, pt)
      else ([], .verhogen (statusError w))

/-- The line that the receiver delivers: the characters up to the first newline, or
up to a bad status. -/
def line : List Word → List Byte
  | [] => []
  | w :: ws =>
      if w &&& 0xFF = charRecv then
        let c := w.extractLsb' 8 8
        if c = 10 then [c] else c :: line ws
      else []

/-- What one call of `sys5` stores. -/
def sys5Stores (a1 : Word) (ws : List Word) : List (Word × Byte) :=
  match sys5 a1 with
  | .run (.readTerminal buf _) => (readLoop buf 0 ws).1
  | _ => []

/-- The U-proc stores these bytes one after the other. -/
def storeAll (a : Asid) (vm : Vm) : List (Word × Byte) → Option Vm
  | [] => some vm
  | (va, b) :: xs => (vm.store a va b).bind fun vm' => storeAll a vm' xs

theorem storeAll_append (a : Asid) (vm : Vm) (xs ys : List (Word × Byte)) :
    storeAll a vm (xs ++ ys) = (storeAll a vm xs).bind fun vm' => storeAll a vm' ys := by
  induction xs generalizing vm with
  | nil => rfl
  | cons x xs ih =>
      simp only [List.cons_append, storeAll, Option.bind_assoc]
      congr 1
      funext vm'
      exact ih vm'

theorem steps_append (a : Asid) (is js : List Input) (x : Control × Vm) :
    steps a (is ++ js) x = (steps a is x).bind (steps a js) := by
  induction is generalizing x with
  | nil => rfl
  | cons i is ih =>
      simp only [List.cons_append, steps, Option.bind_assoc]
      congr 1
      funext r
      exact ih _

/-- One round of the loop that receives a character. -/
theorem steps_round (a : Asid) (vm vm' : Vm) (hw : w &&& 0xFF = charRecv)
    (hs : storeAll a vm (if (n : ℤ) < maxStrLeng then
      [(buf + BitVec.ofNat 32 n, w.extractLsb' 8 8)] else []) = some vm') :
    steps a [.status w, .go] (.run (.readTerminal buf (.receive n)), vm) =
      some (.run (.readTerminal buf
        (afterChar (if (n : ℤ) < maxStrLeng then n + 1 else n) (w.extractLsb' 8 8))), vm') := by
  simp only [steps, next, runStep, codeStep, readTerminalStep, Input.status?, Input.onGo,
    Option.map_some, Option.bind_some, if_pos hw, if_true]
  split at hs
  · next hn =>
    simp only [storeAll, Option.bind_eq_some_iff, Option.some.injEq] at hs
    obtain ⟨vm₁, h1, rfl⟩ := hs
    simp [h1, hn]
  · next hn =>
    simp only [storeAll, Option.some.injEq] at hs
    simp [hs, hn]

/-- `readLoop` is what the statements of `readTerminal` do with the first of these statuses. -/
theorem readLoop_run (a : Asid) (vm vm' : Vm)
    (h : storeAll a vm (readLoop buf n ws).1 = some vm') :
    ∃ is, is.filterMap Input.status? <+: ws ∧
      steps a is (.run (.readTerminal buf (.receive n)), vm) =
        some (.run (.readTerminal buf (readLoop buf n ws).2), vm') := by
  induction ws generalizing n vm with
  | nil =>
      simp only [readLoop, storeAll, Option.some.injEq] at h
      exact ⟨[], List.nil_prefix, by rw [h]; rfl⟩
  | cons w ws ih =>
      have hone : [w] <+: w :: ws := List.prefix_append [w] ws
      unfold readLoop at h ⊢
      split at h
      · next hw =>
        simp only [hw, if_true]
        cases hpt : afterChar (if (n : ℤ) < maxStrLeng then n + 1 else n) (w.extractLsb' 8 8) with
        | receive n' =>
            simp only [hpt, storeAll_append, Option.bind_eq_some_iff] at h ⊢
            obtain ⟨vm₁, h1, h2⟩ := h
            obtain ⟨is, hpre, his⟩ := ih _ h2
            refine ⟨.status w :: .go :: is, (List.prefix_cons_inj w).mpr hpre, ?_⟩
            change steps a ([.status w, .go] ++ is) _ = _
            rw [steps_append, steps_round a vm vm₁ hw h1, hpt, Option.bind_some, his]
        | passeren | store | verhogen =>
            simp only [hpt] at h ⊢
            exact ⟨[.status w, .go], hone, by rw [steps_round a vm vm' hw h, hpt]⟩
      · next hw =>
        simp only [storeAll, Option.some.injEq] at h
        refine ⟨[.status w], hone, ?_⟩
        simp only [steps, next, runStep, codeStep, readTerminalStep, Input.status?,
          Option.map_some, Option.bind_some, if_neg hw, h]

/-- The stores are the characters of the line, as long as they fit. -/
theorem readLoop_stores (hn : (n : ℤ) ≤ maxStrLeng) :
    (readLoop buf n ws).1.map Prod.fst =
      (List.range' n (min (line ws).length (maxStrLeng.toNat - n))).map
        fun i => buf + BitVec.ofNat 32 i := by
  have hm : maxStrLeng = 128 := rfl
  induction ws generalizing n with
  | nil => simp [readLoop, line]
  | cons w ws ih =>
      unfold readLoop line
      split
      · next hw =>
        by_cases hlt : (n : ℤ) < maxStrLeng
        · have hrange : maxStrLeng.toNat - n = (maxStrLeng.toNat - (n + 1)) + 1 := by omega
          by_cases hc : w.extractLsb' 8 8 = 10
          · simp only [hlt, if_true, hc, afterChar, List.map_cons, List.map_nil, List.length_singleton]
            rw [hrange, Nat.min_eq_left (by omega)]
            rfl
          · simp only [hlt, if_true, hc, if_false, afterChar, List.map_cons, List.singleton_append,
              List.length_cons]
            rw [ih (by omega), hrange, Nat.succ_min_succ]
            rfl
        · have hz : maxStrLeng.toNat - n = 0 := by omega
          by_cases hc : w.extractLsb' 8 8 = 10
          · simp [hlt, hc, afterChar, hz]
          · simp only [hlt, if_false, hc, afterChar, List.nil_append, ih hn, hz, Nat.min_zero]
      · next hw => simp

/-- A line that ends with a newline ends at its first one. -/
theorem newline_not_mem {l r : List Byte} (h : line ws = l ++ r) (hr : r ≠ []) : (10 : Byte) ∉ l := by
  induction ws generalizing l with
  | nil =>
      rw [line, List.nil_eq_append_iff] at h
      exact absurd h.2 hr
  | cons w ws ih =>
      cases l with
      | nil => exact List.not_mem_nil
      | cons c l =>
          unfold line at h
          split at h
          · dsimp only at h
            split at h
            · rw [List.cons_append, List.cons.injEq, List.nil_eq_append_iff] at h
              exact absurd h.2.2 hr
            · next hc =>
              rw [List.cons_append, List.cons.injEq] at h
              rw [List.mem_cons, not_or]
              exact ⟨fun he => hc (h.1.trans he.symm), ih h.2⟩
          · cases h

/-- The whole of a line that ends with a newline: what is stored and what is returned. -/
theorem readLoop_line {l : List Byte} (hn : n ≤ maxStrLeng.toNat) (hl : line ws = l ++ [10]) :
    readLoop buf n ws =
      ((((l ++ [10]).take (maxStrLeng.toNat - n)).zipIdx n).map
          fun x : Byte × ℕ => (buf + BitVec.ofNat 32 x.2, x.1),
        .verhogen ((n + min (l.length + 1) (maxStrLeng.toNat - n) : ℕ) : ℤ)) := by
  have hm : maxStrLeng.toNat = 128 := rfl
  have hm' : maxStrLeng = 128 := rfl
  rw [hm] at hn ⊢
  induction ws generalizing n l with
  | nil => simp [line] at hl
  | cons w ws ih =>
      unfold line at hl
      unfold readLoop
      split at hl
      · next hw =>
        rw [if_pos hw]
        dsimp only at hl ⊢
        by_cases hc : w.extractLsb' 8 8 = 10
        · rw [if_pos hc] at hl
          obtain rfl : l = [] := by
            cases l with
            | nil => rfl
            | cons c l => simp at hl
          by_cases hlt : n < 128
          · have hrange : 128 - n = (127 - n) + 1 := by omega
            have hlt' : (n : ℤ) < maxStrLeng := by omega
            simp [hc, hlt', afterChar, hrange]
          · have hrange : 128 - n = 0 := by omega
            have hlt' : ¬ (n : ℤ) < maxStrLeng := by omega
            simp [hc, hlt', afterChar, hrange]
        · rw [if_neg hc] at hl
          obtain ⟨l', rfl, hl'⟩ : ∃ l', l = w.extractLsb' 8 8 :: l' ∧ line ws = l' ++ [10] := by
            cases l with
            | nil =>
                rw [List.nil_append, List.cons.injEq] at hl
                exact absurd hl.1 hc
            | cons c l =>
                rw [List.cons_append, List.cons.injEq] at hl
                exact ⟨l, by rw [hl.1], hl.2⟩
          by_cases hlt : n < 128
          · have hrange : 128 - n = (128 - (n + 1)) + 1 := by omega
            have hlt' : (n : ℤ) < maxStrLeng := by omega
            rw [if_pos hlt', if_pos hlt', afterChar, if_neg hc]
            simp only [ih (show n + 1 ≤ 128 by omega) hl', List.cons_append, hrange,
              List.take_succ_cons, List.zipIdx_cons, List.map_cons, List.nil_append,
              List.length_cons, Nat.succ_min_succ]
            rw [Nat.succ_eq_add_one, Nat.add_right_comm, Nat.add_assoc]
          · have hlt' : ¬ (n : ℤ) < maxStrLeng := by omega
            have hrange : 128 - n = 0 := by omega
            rw [if_neg hlt', if_neg hlt', afterChar, if_neg hc]
            simp only [ih hn hl', hrange, List.take_zero, List.nil_append, Nat.min_zero]
      · simp at hl

theorem sys5_cases (a1 : Word) :
    sys5 a1 = .sys2 .checkFlag ∧ (a1 < kuseg ∨ userStackTop ≤ a1) ∨
      sys5 a1 = .run (.readTerminal a1 .passeren) ∧ kuseg ≤ a1 ∧ a1 < userStackTop := by
  unfold sys5
  split
  · next h => exact .inl ⟨rfl, h⟩
  · next h =>
    rw [not_or, BitVec.not_lt, BitVec.not_le] at h
    exact .inr ⟨rfl, h⟩

theorem sys5Stores_eq (h : sys5 a1 = .run (.readTerminal a1 .passeren)) :
    sys5Stores a1 ws = (readLoop a1 0 ws).1 := by
  rw [sys5Stores, h]

/-- `sys5` makes its stores in this order. -/
theorem sys5_run {a : Asid} {vm vm' : Vm} (h : storeAll a vm (sys5Stores a1 ws) = some vm') :
    ∃ is c, is.filterMap Input.status? <+: ws ∧ steps a is (sys5 a1, vm) = some (c, vm') := by
  rcases sys5_cases a1 with ⟨hs, -⟩ | ⟨hs, -⟩
  · rw [sys5Stores, hs, storeAll, Option.some.injEq] at h
    exact ⟨[], sys5 a1, List.nil_prefix, by rw [h]; rfl⟩
  · rw [sys5Stores_eq hs] at h
    obtain ⟨is, hpre, his⟩ := readLoop_run a vm vm' h
    refine ⟨.go :: is, .run (.readTerminal a1 (readLoop a1 0 ws).2), hpre, ?_⟩
    rw [hs]
    exact his

/-- Inside user memory nothing wraps around within the length of a line. -/
theorem toNat_add_ofNat (h : a1 < userStackTop) (hn : n ≤ maxStrLeng.toNat) :
    (a1 + BitVec.ofNat 32 n).toNat = a1.toNat + n := by
  have ht := toNat_userStackTop
  have hm : maxStrLeng.toNat = 128 := rfl
  rw [BitVec.lt_def] at h
  rw [BitVec.toNat_add, BitVec.toNat_ofNat, Nat.mod_eq_of_lt (show n < 2 ^ 32 by omega),
    Nat.mod_eq_of_lt (by omega)]

theorem sys5Stores_within_iff (a1 : Word) (ws : List Word) :
    (∀ x ∈ sys5Stores a1 ws, kuseg ≤ x.1 ∧ x.1 < userStackTop) ↔
      a1 < kuseg ∨ userStackTop ≤ a1 ∨
        a1.toNat + min (line ws).length maxStrLeng.toNat ≤ userStackTop.toNat := by
  rcases sys5_cases a1 with ⟨hs, ha⟩ | ⟨hs, hk, ht⟩
  · simp only [sys5Stores, hs, List.not_mem_nil, false_implies, implies_true, true_iff]
    rw [← or_assoc]
    exact .inl ha
  · have ht0 := toNat_userStackTop
    have hlt : a1.toNat < userStackTop.toNat := ht
    have h1 : ¬ a1 < kuseg := BitVec.not_lt.mpr hk
    have h2 : ¬ userStackTop ≤ a1 := BitVec.not_le.mpr ht
    have hstores : (sys5Stores a1 ws).map Prod.fst =
        (List.range' 0 (min (line ws).length maxStrLeng.toNat)).map fun i => a1 + BitVec.ofNat 32 i := by
      rw [sys5Stores_eq hs]
      exact readLoop_stores (by decide)
    have hall : (∀ x ∈ sys5Stores a1 ws, kuseg ≤ x.1 ∧ x.1 < userStackTop) ↔
        ∀ va ∈ (sys5Stores a1 ws).map Prod.fst, kuseg ≤ va ∧ va < userStackTop := by
      simp
    rw [hall, hstores]
    simp only [h1, h2, false_or, List.forall_mem_map, List.mem_range'_1, Nat.zero_add, Nat.zero_le,
      true_and]
    constructor
    · intro h
      by_contra hc
      have hlast := (h (userStackTop.toNat - a1.toNat) (by omega)).2
      rw [BitVec.lt_def, toNat_add_ofNat ht (by omega)] at hlast
      omega
    · intro h i hi
      rw [BitVec.le_def, BitVec.lt_def, toNat_add_ofNat ht (by omega)]
      rw [BitVec.le_def] at hk
      omega

/-- `sys5` stores these bytes, and they stay inside user memory exactly when the part of the
line that `readTerminal` keeps ends there. -/
theorem sys5_within_iff (a1 : Word) (ws : List Word) :
    (∀ a vm vm', storeAll a vm (sys5Stores a1 ws) = some vm' →
      ∃ is c, is.filterMap Input.status? <+: ws ∧ steps a is (sys5 a1, vm) = some (c, vm')) ∧
    ((∀ x ∈ sys5Stores a1 ws, kuseg ≤ x.1 ∧ x.1 < userStackTop) ↔
      a1 < kuseg ∨ userStackTop ≤ a1 ∨
        a1.toNat + min (line ws).length maxStrLeng.toNat ≤ userStackTop.toNat) :=
  ⟨fun _ _ _ h => sys5_run h, sys5Stores_within_iff a1 ws⟩

/-- A line of two characters at the last address of user memory. -/
theorem sys5_overruns :
    ¬ ∀ x ∈ sys5Stores 0xBFFFFFFF [0x6105, 0x0A05], kuseg ≤ x.1 ∧ x.1 < userStackTop := by
  have hs : sys5Stores 0xBFFFFFFF [0x6105, 0x0A05] = [(0xBFFFFFFF, 0x61), (0xC0000000, 0x0A)] := by
    decide
  intro h
  rw [hs] at h
  have hlast := (h (0xC0000000, 0x0A) (by simp)).2
  exact absurd hlast (by decide)

end ReadTerminal
end PandOSsh.SupportLevel
