import Mathlib

/-!
# First in, first out

A store of n slots with a hand. What arrives takes the first free slot, and when
none is free the slot at the hand, which moves on to the next. As long as nothing
leaves a slot otherwise, the slots hold the last n arrivals, and what is replaced
is the oldest of these.
-/

namespace PandOSsh.Library

@[ext] structure Slots (n : ℕ) (α : Type*) where
  slot : Fin n → Option α
  hand : Fin n

/-- The last n of what has arrived. -/
def lastOf {α : Type*} (n : ℕ) (log : List α) : List α := log.drop (log.length - n)

namespace Slots
variable {n : ℕ} [NeZero n] {α : Type*} {s : Slots n α} {log : List α} {i : Fin n}

/-- The first free slot, else the one at the hand. -/
def choose (s : Slots n α) : Fin n × Slots n α :=
  match (List.finRange n).find? fun i => (s.slot i).isNone with
  | some i => (i, s)
  | none => (s.hand, { s with hand := s.hand + 1 })

def fill (s : Slots n α) (i : Fin n) (x : α) : Slots n α :=
  { s with slot := Function.update s.slot i (some x) }

/-- The slots hold the last arrivals, in order from the hand on. -/
structure InOrder (s : Slots n α) (log : List α) : Prop where
  hand : log.length < n → s.hand = 0
  slot : ∀ i, s.slot i = (lastOf n log)[(i - s.hand).val]?

/-- Slot i is the next one to be filled: it is free, or holds the oldest of the last n
arrivals. -/
structure Chosen (s : Slots n α) (i : Fin n) (log : List α) : Prop where
  oldest : s.slot i ≠ none → n ≤ log.length ∧ s.slot i = (lastOf n log).head?
  fill : ∀ x, (s.fill i x).InOrder (log ++ [x])
  free : s.slot i = none → s.InOrder log

omit [NeZero n] in
@[simp] theorem fill_self (x : α) : (s.fill i x).slot i = some x := Function.update_self ..

omit [NeZero n] in
theorem fill_of_ne {j : Fin n} (h : j ≠ i) (x : α) : (s.fill i x).slot j = s.slot j :=
  Function.update_of_ne h ..

theorem choose_free (h : (List.finRange n).find? (fun i => (s.slot i).isNone) = some i) :
    s.choose = (i, s) := by
  rw [choose, h]

theorem choose_full (h : (List.finRange n).find? (fun i => (s.slot i).isNone) = none) :
    s.choose = (s.hand, { s with hand := s.hand + 1 }) := by
  rw [choose, h]

omit [NeZero n] in
theorem find_free (h : (List.finRange n).find? (fun i => (s.slot i).isNone) = some i) :
    s.slot i = none ∧ ∀ j < i, s.slot j ≠ none := by
  obtain ⟨hi, k, hk, he, hall⟩ := List.find?_eq_some_iff_getElem.mp h
  rw [List.getElem_finRange] at he
  refine ⟨Option.isNone_iff_eq_none.mp hi, fun j hj hn => ?_⟩
  have hjk : j.val < k := by
    have hv : i.val = k := by rw [← he]; rfl
    exact hv ▸ hj
  have hnot := hall j.val hjk
  rw [List.getElem_finRange] at hnot
  simp [hn] at hnot

omit [NeZero n] in
theorem find_full (h : (List.finRange n).find? (fun i => (s.slot i).isNone) = none) (j : Fin n) :
    s.slot j ≠ none := by
  intro hn
  have hnot := List.find?_eq_none.mp h j (List.mem_finRange j)
  simp [hn] at hnot

/-- A slot is given up only when all are taken. -/
theorem choose_cases (s : Slots n α) : (s.slot s.choose.1 = none ∧ s.choose.2 = s) ∨
    (∀ j, s.slot j ≠ none) ∧ s.choose = (s.hand, { s with hand := s.hand + 1 }) := by
  cases hf : (List.finRange n).find? fun i => (s.slot i).isNone with
  | some i =>
      rw [choose_free hf]
      exact .inl ⟨(find_free hf).1, rfl⟩
  | none => exact .inr ⟨find_full hf, choose_full hf⟩

section LastOf
variable {α : Type*} {log : List α} {n : ℕ} {x : α}

theorem length_lastOf : (lastOf n log).length = min n log.length := by
  rw [lastOf, List.length_drop]
  omega

theorem lastOf_of_le (h : log.length ≤ n) : lastOf n log = log := by
  rw [lastOf, Nat.sub_eq_zero_of_le h, List.drop_zero]

theorem lastOf_append (h : n ≤ log.length) (hn : 0 < n) :
    lastOf n (log ++ [x]) = (lastOf n log).tail ++ [x] := by
  have hlen : (log ++ [x]).length - n = log.length - n + 1 := by
    rw [List.length_append, List.length_singleton]
    omega
  rw [lastOf, hlen, List.drop_append_of_le_length (by omega), lastOf, List.tail_drop]

end LastOf

theorem InOrder.slot_of_lt (h : s.InOrder log) (hlt : log.length < n) (i : Fin n) :
    s.slot i = log[i.val]? := by
  rw [h.slot, h.hand hlt, sub_zero, lastOf_of_le hlt.le]

/-- Nothing is free once n have arrived. -/
theorem InOrder.slot_of_le (h : s.InOrder log) (hle : n ≤ log.length) (i : Fin n) :
    s.slot i ≠ none := by
  have hlt : (i - s.hand).val < (lastOf n log).length := by
    rw [length_lastOf, min_eq_left hle]
    exact (i - s.hand).isLt
  rw [h.slot, List.getElem?_eq_getElem hlt]
  exact Option.some_ne_none _

/-- While slots are free, they are taken from the first on. -/
theorem InOrder.chosen_free (h : s.InOrder log) (hi : s.slot i = none)
    (hfirst : ∀ j < i, s.slot j ≠ none) : s.Chosen i log := by
  have hlt : log.length < n := by
    by_contra hge
    exact h.slot_of_le (not_lt.mp hge) i hi
  have hval : i.val = log.length := by
    rw [h.slot_of_lt hlt, List.getElem?_eq_none_iff] at hi
    refine le_antisymm (not_lt.mp fun hgt => ?_) hi
    have hnone := hfirst ⟨log.length, hlt⟩ hgt
    rw [h.slot_of_lt hlt] at hnone
    exact hnone (List.getElem?_eq_none_iff.mpr le_rfl)
  refine ⟨fun hne => absurd hi hne, fun x => ?_, fun _ => h⟩
  have hlen : (log ++ [x]).length ≤ n := by
    rw [List.length_append, List.length_singleton]
    exact hlt
  refine ⟨fun _ => h.hand hlt, fun j => ?_⟩
  rw [lastOf_of_le hlen, show (s.fill i x).hand = 0 from h.hand hlt, sub_zero]
  by_cases hj : j = i
  · subst hj
    rw [fill_self, hval, List.getElem?_concat_length]
  · rw [fill_of_ne hj, h.slot_of_lt hlt]
    have hne : j.val ≠ log.length := fun he => hj (Fin.ext (he.trans hval.symm))
    by_cases hjl : j.val < log.length
    · rw [List.getElem?_append_left hjl]
    · rw [List.getElem?_eq_none (by omega), List.getElem?_eq_none]
      rw [List.length_append, List.length_singleton]
      omega

theorem val_neg_one : (-1 : Fin n).val = n - 1 := by
  obtain ⟨m, rfl⟩ := Nat.exists_eq_succ_of_ne_zero (NeZero.ne n)
  exact Fin.coe_neg_one

/-- A full store gives up the oldest of what it holds. -/
theorem InOrder.chosen_full (h : s.InOrder log) (hle : n ≤ log.length) :
    ({ s with hand := s.hand + 1 } : Slots n α).Chosen s.hand log := by
  have hpos : 0 < n := Nat.pos_of_ne_zero (NeZero.ne n)
  refine ⟨fun _ => ⟨hle, ?_⟩, fun x => ⟨fun hlt => ?_, fun j => ?_⟩, fun hn =>
    absurd hn (h.slot_of_le hle _)⟩
  · rw [h.slot, sub_self, Fin.val_zero, List.head?_eq_getElem?]
  · rw [List.length_append, List.length_singleton] at hlt
    omega
  · have htail : ((lastOf n log).tail).length = n - 1 := by
      rw [List.length_tail, length_lastOf, min_eq_left hle]
    have hback : j - (s.hand + 1) = j - s.hand - 1 := sub_add_eq_sub_sub _ _ _
    rw [lastOf_append hle hpos, show (fill { s with hand := s.hand + 1 } s.hand x).hand =
      s.hand + 1 from rfl, hback]
    by_cases hj : j = s.hand
    · -- the newest is one step before the hand
      rw [hj, fill_self, sub_self, zero_sub, val_neg_one, ← htail, List.getElem?_concat_length]
    · have hne : j - s.hand ≠ 0 := sub_ne_zero.mpr hj
      have hlt := (j - s.hand).isLt
      have hnz : (j - s.hand).val ≠ 0 := fun he => hne (Fin.ext he)
      rw [fill_of_ne hj, h.slot, Fin.val_sub_one_of_ne_zero hne,
        List.getElem?_append_left (by omega), List.getElem?_tail, Nat.sub_add_cancel (by omega)]

theorem InOrder.chosen (h : s.InOrder log) : s.choose.2.Chosen s.choose.1 log := by
  cases hf : (List.finRange n).find? fun i => (s.slot i).isNone with
  | some i =>
      rw [choose_free hf]
      exact h.chosen_free (find_free hf).1 (find_free hf).2
  | none =>
      rw [choose_full hf]
      refine h.chosen_full (not_lt.mp fun hlt => ?_)
      refine find_full hf ⟨log.length, hlt⟩ ?_
      rw [h.slot_of_lt hlt]
      exact List.getElem?_eq_none_iff.mpr le_rfl

end Slots
end PandOSsh.Library
