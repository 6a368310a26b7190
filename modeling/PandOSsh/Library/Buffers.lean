import Mathlib

/-!
# Arrays with checked bounds

Cells that are read and written by index; an access outside has no result. A
string is a list that some cells hold, followed by a terminator.
-/

namespace PandOSsh.Library

abbrev Buffer (n : ℕ) (β : Type*) := Fin n → β

namespace Buffer
variable {n : ℕ} {β : Type*}

def read (b : Buffer n β) (i : ℕ) : Option β := if h : i < n then some (b ⟨i, h⟩) else none

def write (b : Buffer n β) (i : ℕ) (c : β) : Option (Buffer n β) :=
  if h : i < n then some (Function.update b ⟨i, h⟩ c) else none

/-- Some writes, one after the other. -/
def writeAll (b : Buffer n β) : List (ℕ × β) → Option (Buffer n β)
  | [] => some b
  | (i, c) :: xs => (b.write i c).bind fun b' => b'.writeAll xs

/-- The cells from `i` on hold the list. -/
def Holds (b : Buffer n β) : ℕ → List β → Prop
  | _, [] => True
  | i, c :: l => b.read i = some c ∧ b.Holds (i + 1) l

variable {b b' : Buffer n β} {i j : ℕ} {c : β} {l l' : List β}

theorem lt_of_read (h : b.read i = some c) : i < n := by
  by_contra hi
  rw [read, dif_neg hi] at h
  cases h

theorem exists_read (hi : i < n) : ∃ c, b.read i = some c := ⟨b ⟨i, hi⟩, dif_pos hi⟩

theorem exists_write (b : Buffer n β) (hi : i < n) (c : β) : ∃ b', b.write i c = some b' :=
  ⟨_, dif_pos hi⟩

theorem read_write (h : b.write i c = some b') :
    b'.read j = if j = i then some c else b.read j := by
  by_cases hi : i < n
  · rw [write, dif_pos hi, Option.some.injEq] at h
    rw [← h]
    by_cases hj : j = i
    · rw [hj, if_pos rfl, read, dif_pos hi, Function.update_self]
    · rw [if_neg hj, read, read]
      by_cases hjn : j < n
      · rw [dif_pos hjn, dif_pos hjn, Function.update_of_ne]
        intro he
        exact hj (congrArg Fin.val he)
      · rw [dif_neg hjn, dif_neg hjn]
  · rw [write, dif_neg hi] at h
    cases h

namespace Holds

theorem append : b.Holds i (l ++ l') ↔ b.Holds i l ∧ b.Holds (i + l.length) l' := by
  induction l generalizing i with
  | nil => simp [Holds]
  | cons c l ih =>
      rw [List.cons_append, Holds, Holds, ih, and_assoc, List.length_cons, Nat.add_comm l.length 1,
        Nat.add_assoc]

theorem congr (h : b.Holds i l) (hb : ∀ j, i ≤ j → j < i + l.length → b'.read j = b.read j) :
    b'.Holds i l := by
  induction l generalizing i with
  | nil => trivial
  | cons c l ih =>
      rw [List.length_cons] at hb
      constructor
      · rw [hb i le_rfl (by omega)]
        exact h.1
      · apply ih h.2
        intro j hj hlt
        exact hb j (by omega) (by omega)

/-- A write outside of the cells of the list. -/
theorem write (h : b.Holds i l) (hw : b.write j c = some b') (hj : j < i ∨ i + l.length ≤ j) :
    b'.Holds i l := by
  apply h.congr
  intro k hk hlt
  rw [read_write hw, if_neg (by omega)]

theorem fits (h : b.Holds i l) (hl : l ≠ []) : i + l.length ≤ n := by
  rcases l.eq_nil_or_concat with he | ⟨l', c, rfl⟩
  · exact absurd he hl
  · rw [List.concat_eq_append, append] at h
    have hlt := lt_of_read h.2.1
    rw [List.concat_eq_append, List.length_append, List.length_singleton]
    omega

/-- What is read from the cells is in the list. -/
theorem mem_of_read (h : b.Holds i l) (hr : b.read j = some c) (hj : i ≤ j)
    (hlt : j < i + l.length) : c ∈ l := by
  induction l generalizing i with
  | nil =>
      rw [List.length_nil] at hlt
      omega
  | cons d l ih =>
      rw [List.length_cons] at hlt
      by_cases hji : j = i
      · rw [hji, h.1, Option.some.injEq] at hr
        rw [hr]
        exact List.mem_cons_self
      · exact List.mem_cons_of_mem d (ih h.2 (by omega) (by omega))

end Holds

/-- Consecutive cells take a list, and the cells before them are as they were. -/
theorem writeAll_range (hl : i + l.length ≤ n) :
    ∃ b', b.writeAll (l.zipIdx i |>.map fun x => (x.2, x.1)) = some b' ∧ b'.Holds i l ∧
      ∀ j, j < i ∨ i + l.length ≤ j → b'.read j = b.read j := by
  induction l generalizing i b with
  | nil => exact ⟨b, rfl, trivial, fun _ _ => rfl⟩
  | cons c l ih =>
      rw [List.length_cons] at hl
      obtain ⟨b₁, h₁⟩ := exists_write b (show i < n by omega) c
      obtain ⟨b', hw, hh, hframe⟩ := ih (b := b₁) (i := i + 1) (by omega)
      refine ⟨b', ?_, ⟨?_, hh⟩, ?_⟩
      · rw [List.zipIdx_cons, List.map_cons, writeAll, h₁]
        exact hw
      · rw [hframe i (by omega), read_write h₁, if_pos rfl]
      · intro j hj
        rw [List.length_cons] at hj
        rw [hframe j (by omega), read_write h₁, if_neg (by omega)]

/-- A list that is too long does not fit. -/
theorem writeAll_overrun (hi : i ≤ n) (hl : n < i + l.length) :
    b.writeAll (l.zipIdx i |>.map fun x => (x.2, x.1)) = none := by
  induction l generalizing i b with
  | nil =>
      rw [List.length_nil] at hl
      omega
  | cons c l ih =>
      rw [List.length_cons] at hl
      rw [List.zipIdx_cons, List.map_cons, writeAll]
      by_cases hin : i < n
      · obtain ⟨b₁, h₁⟩ := exists_write b hin c
        rw [h₁]
        exact ih (i := i + 1) (by omega) (by omega)
      · rw [write, dif_neg hin]
        rfl

/-- A string from cell `i` on, with its terminator. -/
structure IsString (z : β) (b : Buffer n β) (i : ℕ) (l : List β) : Prop where
  holds : b.Holds i (l ++ [z])
  free : z ∉ l

namespace IsString
variable {z : β}

theorem read_end (h : IsString z b i l) : b.read (i + l.length) = some z :=
  (Holds.append.mp h.holds).2.1

theorem tail (h : IsString z b i (c :: l)) : IsString z b (i + 1) l :=
  ⟨h.holds.2, fun hz => h.free (List.mem_cons_of_mem c hz)⟩

theorem ne (h : IsString z b i (c :: l)) : c ≠ z := fun he => h.free (he ▸ List.mem_cons_self)

theorem fits (h : IsString z b i l) : i + l.length < n := by
  have hf := h.holds.fits (by simp)
  rw [List.length_append, List.length_singleton] at hf
  exact hf

/-- A write in front of the string. -/
theorem write (h : IsString z b i l) (hw : b.write j c = some b') (hj : j < i) :
    IsString z b' i l :=
  ⟨h.holds.write hw (.inl hj), h.free⟩

/-- A terminator behind a list. -/
theorem terminate (h : b.Holds i l) (hz : z ∉ l) (hw : b.write (i + l.length) z = some b') :
    IsString z b' i l := by
  refine ⟨Holds.append.mpr ⟨?_, ?_, trivial⟩, hz⟩
  · exact h.write hw (.inr le_rfl)
  · rw [read_write hw, if_pos rfl]

/-- What is in front of the first terminator is a string. -/
theorem takeWhile [DecidableEq β] (h : b.Holds i l) (hz : z ∈ l) :
    IsString z b i (l.takeWhile (· ≠ z)) := by
  constructor
  · induction l generalizing i with
    | nil => exact absurd hz List.not_mem_nil
    | cons c l ih =>
        by_cases hc : c = z
        · rw [List.takeWhile_cons_of_neg (by simpa using hc)]
          exact ⟨hc ▸ h.1, trivial⟩
        · rw [List.takeWhile_cons_of_pos (by simpa using hc)]
          exact ⟨h.1, ih h.2 ((List.mem_cons.mp hz).resolve_left (Ne.symm hc))⟩
  · intro hm
    have hne := List.mem_takeWhile_imp hm
    simp at hne

end IsString
end Buffer
end PandOSsh.Library
