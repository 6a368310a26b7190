import Mathlib

/-!
# Stable priority queues on lists

A queue in non-increasing order of a key, in which equal keys keep the order of
arrival. `Stable f log l` says that `l` is this order of the elements of `log`,
which is in order of arrival; it is kept by insertions and by removals, and the
head of `l` is the first of the highest key in `log`.
-/

namespace PandOSsh.Library
variable {α β : Type*} [LinearOrder β] {f g : α → β} {x y : α} {l log xs : List α}

/-- `x` goes after every element of at least the same key. -/
def insertBy (f : α → β) (x : α) (l : List α) : List α :=
  l.orderedInsert (fun a b => f b < f a) x

/-- Insert the elements of `xs` one after the other. -/
def insertAllBy (f : α → β) (xs l : List α) : List α := xs.foldl (fun l x => insertBy f x l) l

theorem insertBy_perm : (insertBy f x l).Perm (x :: l) := List.perm_orderedInsert _ x l

theorem mem_insertBy : y ∈ insertBy f x l ↔ y = x ∨ y ∈ l := List.mem_orderedInsert _

theorem sublist_insertBy : l.Sublist (insertBy f x l) := List.sublist_orderedInsert x l

theorem sublist_insertAllBy : l.Sublist (insertAllBy f xs l) := by
  induction xs generalizing l with
  | nil => exact List.Sublist.refl l
  | cons x xs ih =>
      have hx : l.Sublist (insertBy f x l) := sublist_insertBy
      exact hx.trans ih

theorem mem_insertAllBy : y ∈ insertAllBy f xs l ↔ y ∈ xs ∨ y ∈ l := by
  induction xs generalizing l with
  | nil => simp [insertAllBy]
  | cons x xs ih =>
      have hx : y ∈ insertAllBy f xs (insertBy f x l) ↔ y ∈ xs ∨ y ∈ insertBy f x l := ih
      rw [mem_insertBy] at hx
      rw [List.mem_cons, or_assoc, or_left_comm]
      exact hx

theorem insertBy_congr (hx : f x = g x) (h : ∀ y ∈ l, f y = g y) :
    insertBy f x l = insertBy g x l := by
  induction l with
  | nil => rfl
  | cons y l ih =>
      unfold insertBy at *
      rw [List.orderedInsert_cons, List.orderedInsert_cons, hx, h y (by simp),
        ih fun z hz => h z (List.mem_cons_of_mem y hz)]

theorem insertBy_sorted (h : l.Pairwise fun a b => f b ≤ f a) :
    (insertBy f x l).Pairwise fun a b => f b ≤ f a := by
  induction l with
  | nil => simp [insertBy]
  | cons y l ih =>
      obtain ⟨hy, hl⟩ := List.pairwise_cons.mp h
      unfold insertBy at *
      rw [List.orderedInsert_cons]
      by_cases hlt : f y < f x
      · rw [if_pos hlt]
        apply List.pairwise_cons.mpr
        constructor
        · intro z hz
          rcases List.mem_cons.mp hz with rfl | hz
          · exact hlt.le
          · exact (hy z hz).trans hlt.le
        · exact h
      · rw [if_neg hlt]
        apply List.pairwise_cons.mpr
        constructor
        · intro z hz
          rcases mem_insertBy.mp hz with rfl | hz
          · exact not_lt.mp hlt
          · exact hy z hz
        · exact ih hl

/-- Among the elements of its key, the new one is the last. -/
theorem filter_insertBy (h : l.Pairwise fun a b => f b ≤ f a) (v : β) :
    (insertBy f x l).filter (fun a => f a = v) = (l ++ [x]).filter fun a => f a = v := by
  induction l with
  | nil => rfl
  | cons y l ih =>
      obtain ⟨hy, hl⟩ := List.pairwise_cons.mp h
      unfold insertBy at *
      rw [List.orderedInsert_cons]
      by_cases hlt : f y < f x
      · -- no element from `y` on has the key of `x`
        have hnone : f x = v → (y :: l).filter (fun a => f a = v) = [] := by
          rintro rfl
          apply List.filter_eq_nil_iff.mpr
          intro z hz
          have hz' : f z ≤ f y := by
            rcases List.mem_cons.mp hz with rfl | hz
            · exact le_rfl
            · exact hy z hz
          simpa using (hz'.trans_lt hlt).ne
        rw [if_pos hlt, List.filter_append]
        by_cases hv : f x = v
        · simp [hnone hv, hv]
        · simp [hv]
      · rw [if_neg hlt, List.cons_append, List.filter_cons, List.filter_cons, ih hl]

/-- `l` holds the elements of `log` in non-increasing order of their keys, and
those of equal key in the order of `log`. -/
structure Stable (f : α → β) (log l : List α) : Prop where
  sorted : l.Pairwise fun a b => f b ≤ f a
  stable : ∀ v, l.filter (fun a => f a = v) = log.filter fun a => f a = v

/-- `x` is the first element of `log` that has the highest key. -/
def IsFirst (f : α → β) (x : α) (log : List α) : Prop :=
  ∃ before after, log = before ++ x :: after ∧ (∀ y ∈ before, f y < f x) ∧
    ∀ y ∈ after, f y ≤ f x

namespace Stable

theorem nil : Stable f [] [] := ⟨List.Pairwise.nil, fun _ => rfl⟩

theorem mem_iff (h : Stable f log l) : y ∈ l ↔ y ∈ log := by
  have hy : y ∈ l.filter (fun a => f a = f y) ↔ y ∈ log.filter fun a => f a = f y := by
    rw [h.stable]
  simpa [List.mem_filter] using hy

theorem congr (h : Stable f log l) (hf : ∀ y ∈ log, f y = g y) : Stable g log l := by
  have hl : ∀ y ∈ l, f y = g y := fun y hy => hf y (h.mem_iff.mp hy)
  constructor
  · apply h.sorted.imp_of_mem
    intro a b ha hb hab
    rwa [← hl a ha, ← hl b hb]
  · intro v
    have hlv : l.filter (fun a => g a = v) = l.filter fun a => f a = v :=
      List.filter_congr fun y hy => by rw [hl y hy]
    have hlogv : log.filter (fun a => g a = v) = log.filter fun a => f a = v :=
      List.filter_congr fun y hy => by rw [hf y hy]
    rw [hlv, hlogv, h.stable]

theorem insertBy (h : Stable f log l) (x : α) : Stable f (log ++ [x]) (insertBy f x l) := by
  constructor
  · exact insertBy_sorted h.sorted
  · intro v
    rw [filter_insertBy h.sorted, List.filter_append, List.filter_append, h.stable]

theorem insertAllBy (h : Stable f log l) (xs : List α) :
    Stable f (log ++ xs) (insertAllBy f xs l) := by
  induction xs generalizing log l with
  | nil => rwa [List.append_nil]
  | cons x xs ih =>
      have hx := ih (h.insertBy x)
      rwa [List.append_assoc] at hx

theorem filter (h : Stable f log l) (p : α → Bool) : Stable f (log.filter p) (l.filter p) := by
  constructor
  · exact h.sorted.filter p
  · intro v
    rw [List.filter_comm, h.stable, List.filter_comm]

/-- What is left when the head has been taken. -/
theorem tail [DecidableEq α] (h : Stable f log (x :: l)) (hx : x ∉ l) :
    Stable f (log.filter fun y => y ∈ l) l := by
  have hl := h.filter fun y => y ∈ l
  have hself : l.filter (fun y => y ∈ l) = l := List.filter_eq_self.mpr (by simp)
  rwa [List.filter_cons_of_neg (by simpa using hx), hself] at hl

/-- The head of the queue is the first of the highest key. -/
theorem isFirst (h : Stable f log (x :: l)) : IsFirst f x log := by
  have hs := h.stable (f x)
  rw [List.filter_cons_of_pos (by simp)] at hs
  obtain ⟨before, after, hlog, hb, -, -⟩ := List.filter_eq_cons_iff.mp hs.symm
  -- nobody in the log has a higher key than the head of the queue
  have hle : ∀ y ∈ log, f y ≤ f x := by
    intro y hy
    rcases List.mem_cons.mp (h.mem_iff.mpr hy) with rfl | hy
    · exact le_rfl
    · exact (List.pairwise_cons.mp h.sorted).1 y hy
  refine ⟨before, after, hlog, fun y hy => ?_, fun y hy => ?_⟩
  · have hne : f y ≠ f x := by simpa using hb y hy
    exact lt_of_le_of_ne (hle y (by simp [hlog, hy])) hne
  · exact hle y (by simp [hlog, hy])

end Stable

/-- There is only one first element. -/
theorem IsFirst.unique (hx : IsFirst f x log) (hy : IsFirst f y log) : x = y := by
  obtain ⟨b₁, a₁, rfl, hb₁, ha₁⟩ := hx
  obtain ⟨b₂, a₂, he, hb₂, ha₂⟩ := hy
  rcases List.append_eq_append_iff.mp he with ⟨m, rfl, hm⟩ | ⟨m, rfl, hm⟩
  · cases m with
    | nil => exact (List.cons.inj hm).1
    | cons z m =>
        obtain ⟨rfl, rfl⟩ := List.cons.inj hm
        exact absurd (hb₂ x (by simp)) (not_lt.mpr (ha₁ y (by simp)))
  · cases m with
    | nil => exact (List.cons.inj hm).1.symm
    | cons z m =>
        obtain ⟨rfl, rfl⟩ := List.cons.inj hm
        exact absurd (hb₁ y (by simp)) (not_lt.mpr (ha₂ x (by simp)))

section Bypass
variable [DecidableEq α] {p q : α} {xs passed : List α} {P : α → Bool}

/-- Those before `p` in `log`. -/
def ahead (p : α) (log : List α) : List α := log.takeWhile fun q => q ≠ p

theorem ahead_append (before after : List α) (hp : p ∉ before) :
    ahead p (before ++ p :: after) = before := by
  have hne : ∀ q ∈ before, decide (q ≠ p) = true := by
    intro q hq
    exact decide_eq_true (ne_of_mem_of_not_mem hq hp)
  rw [ahead, List.takeWhile_append_of_pos hne, List.takeWhile_cons_of_neg (by simp),
    List.append_nil]

theorem ahead_filter (hp : p ∈ log) (hP : P p = true) :
    ahead p ((log ++ xs).filter P) = (ahead p log).filter P := by
  obtain ⟨before, after, rfl, hb⟩ := List.eq_append_cons_of_mem hp
  have hf : p ∉ before.filter P := fun hm => hb (List.mem_filter.mp hm).1
  rw [ahead_append before after hb, List.append_assoc, List.filter_append, List.cons_append,
    List.filter_cons_of_pos hP, ahead_append _ _ hf]

/-- Only who stands before `p` is first without a higher key than `p`. -/
theorem IsFirst.mem_ahead (h : IsFirst f x (log ++ xs)) (hp : p ∈ log) (hne : x ≠ p)
    (hle : f x ≤ f p) : x ∈ ahead p log := by
  obtain ⟨first, after, rfl, hf⟩ := List.eq_append_cons_of_mem hp
  obtain ⟨before, rest, he, hb, -⟩ := h
  rw [ahead_append first after hf]
  rw [List.append_assoc, List.cons_append] at he
  rcases List.append_eq_append_iff.mp he with ⟨m, rfl, hm⟩ | ⟨m, rfl, hm⟩
  · cases m with
    | nil => exact absurd (List.cons.inj hm).1.symm hne
    | cons y m =>
        obtain ⟨rfl, -⟩ := List.cons.inj hm
        exact absurd (hb p (by simp)) (not_lt.mpr hle)
  · cases m with
    | nil => exact absurd (List.cons.inj hm).1 hne
    | cons y m =>
        obtain ⟨rfl, -⟩ := List.cons.inj hm
        simp

/-- Those that have `passed` the element `p` of `log` were before it and are no more. -/
structure Bypassed (p : α) (log passed : List α) : Prop where
  nodup : passed.Nodup
  self : p ∉ passed
  behind : ∀ q ∈ passed, q ∉ ahead p log

theorem Bypassed.start : Bypassed p log [] := ⟨List.nodup_nil, by simp, by simp⟩

/-- One more may pass `p` that was before it, if it leaves the log. -/
theorem Bypassed.next (h : Bypassed p log passed) (hp : p ∈ log) (hP : P p = true)
    {new : List α} (hn : new.Nodup) (hnew : ∀ q ∈ new, q ∈ ahead p log ∧ P q = false) :
    Bypassed p ((log ++ xs).filter P) (passed ++ new) where
  nodup := h.nodup.append hn fun q hq hq' => h.behind q hq (hnew q hq').1
  self hm := by
    rcases List.mem_append.mp hm with hm | hm
    · exact h.self hm
    · exact absurd ((hnew p hm).2.symm.trans hP) nofun
  behind q hq hm := by
    rw [ahead_filter hp hP, List.mem_filter] at hm
    rcases List.mem_append.mp hq with hq | hq
    · exact h.behind q hq hm.1
    · exact absurd ((hnew q hq).2.symm.trans hm.2) nofun

end Bypass

end PandOSsh.Library
