import Mathlib

/-!
# Circular doubly linked lists

A heap of `next` and `prev` fields over an arbitrary type of addresses. A ring
is a head together with the members met by following `next` from it; following
`prev` meets the same members backwards. The lemmas say what linking a node
between two neighbours, unlinking a member and self-linking a node do to one
ring, and to a whole family of disjoint rings that share the heap.
-/

namespace PandOSsh.Library

/-- The two pointer fields of every list node. -/
structure Links (α : Type*) where
  next : α → α
  prev : α → α

namespace Links
variable {α : Type*}

def setNext [DecidableEq α] (h : Links α) (a b : α) : Links α :=
  { h with next := Function.update h.next a b }

def setPrev [DecidableEq α] (h : Links α) (a b : α) : Links α :=
  { h with prev := Function.update h.prev a b }

section Writes
variable [DecidableEq α] (h : Links α) (a b x : α)

@[simp] theorem next_setNext :
    (h.setNext a b).next x = if x = a then b else h.next x := by
  simp only [setNext, Function.update_apply]

@[simp] theorem prev_setNext : (h.setNext a b).prev = h.prev := rfl
@[simp] theorem next_setPrev : (h.setPrev a b).next = h.next := rfl

@[simp] theorem prev_setPrev :
    (h.setPrev a b).prev x = if x = a then b else h.prev x := by
  simp only [setPrev, Function.update_apply]

end Writes

/-- Two addresses are neighbours when each points to the other. -/
def Adj (h : Links α) (a b : α) : Prop := h.next a = b ∧ h.prev b = a

/-- The head `a` owns exactly the members `xs`, in this order. -/
structure Ring (h : Links α) (a : α) (xs : List α) : Prop where
  chain : (a :: (xs ++ [a])).IsChain h.Adj
  nodup : (a :: xs).Nodup

/-- Only `next` of the non-last and `prev` of the non-first addresses of a
chain are read. -/
theorem chain_congr {h h' : Links α} {l : List α}
    (hn : ∀ x ∈ l.dropLast, h'.next x = h.next x)
    (hp : ∀ x ∈ l.tail, h'.prev x = h.prev x) (hl : l.IsChain h.Adj) :
    l.IsChain h'.Adj := by
  induction l with
  | nil => exact .nil
  | cons x l ih =>
      cases l with
      | nil => exact .singleton _
      | cons y l =>
          rw [List.isChain_cons_cons] at hl ⊢
          refine ⟨⟨?_, ?_⟩, ih ?_ ?_ hl.2⟩
          · rw [hn x (by simp)]
            exact hl.1.1
          · rw [hp y (by simp)]
            exact hl.1.2
          · intro z hz
            exact hn z (by simp only [List.dropLast_cons_cons, List.mem_cons]; exact .inr hz)
          · intro z hz
            exact hp z (by simp only [List.tail_cons] at hz ⊢; exact List.mem_cons_of_mem _ hz)

namespace Ring
variable {h h' : Links α} {a : α} {xs ys : List α}

theorem congr (hr : h.Ring a xs) (hn : ∀ x ∈ a :: xs, h'.next x = h.next x)
    (hp : ∀ x ∈ a :: xs, h'.prev x = h.prev x) : h'.Ring a xs := by
  refine ⟨chain_congr ?_ ?_ hr.chain, hr.nodup⟩
  · intro x hx
    apply hn
    rwa [← List.cons_append, List.dropLast_concat] at hx
  · intro x hx
    apply hp
    simpa [or_comm] using hx

end Ring

theorem cons_eq_concat (a : α) (xs : List α) :
    a :: xs = (a :: xs).dropLast ++ [xs.getLastD a] := by
  rcases List.eq_nil_or_concat xs with rfl | ⟨us, p, rfl⟩
  · rfl
  · rw [List.concat_eq_append, ← List.cons_append, List.dropLast_concat]
    simp

theorem concat_eq_cons (a : α) (ys : List α) :
    ys ++ [a] = ys.headD a :: (ys ++ [a]).tail := by
  cases ys <;> rfl

/-- The cycle cut at any position of the members. -/
theorem cycle_split (a : α) (xs ys : List α) :
    a :: (xs ++ ys ++ [a]) =
      (a :: xs).dropLast ++ xs.getLastD a :: ys.headD a :: (ys ++ [a]).tail := by
  rw [List.append_assoc, ← List.cons_append, ← concat_eq_cons]
  conv_lhs => rw [cons_eq_concat a xs]
  simp

theorem getLastD_mem (a : α) (xs : List α) : xs.getLastD a ∈ a :: xs := by
  rw [cons_eq_concat a xs]
  simp

theorem headD_mem (a : α) (ys : List α) : ys.headD a ∈ a :: ys := by
  cases ys <;> simp

namespace Ring
variable {h h' : Links α} {a n : α} {xs ys : List α}

/-- The neighbours on both sides of any position in the ring. -/
theorem adj (hr : h.Ring a (xs ++ ys)) : h.Adj (xs.getLastD a) (ys.headD a) := by
  have hc := hr.chain
  rw [cycle_split, List.isChain_append_cons_cons] at hc
  exact hc.2.1

theorem next_head (hr : h.Ring a xs) : h.next a = xs.headD a := by
  have hr' : h.Ring a ([] ++ xs) := hr
  exact (adj hr').1

theorem prev_head (hr : h.Ring a xs) : h.prev a = xs.getLastD a := by
  have hr' : h.Ring a (xs ++ []) := by rwa [List.append_nil]
  exact (adj hr').2

theorem next_member (hr : h.Ring a (xs ++ n :: ys)) : h.next n = ys.headD a := by
  have hr' : h.Ring a ((xs ++ [n]) ++ ys) := by simpa using hr
  simpa using (adj hr').1

theorem prev_member (hr : h.Ring a (xs ++ n :: ys)) : h.prev n = xs.getLastD a := by
  simpa using (adj hr).2

theorem ne_head {x : α} (hr : h.Ring a xs) (hx : x ∈ xs) : x ≠ a := fun he =>
  (List.nodup_cons.mp hr.nodup).1 (he ▸ hx)

theorem next_ne_head (hr : h.Ring a xs) : h.next a = a ↔ xs = [] := by
  rw [hr.next_head]
  cases xs with
  | nil => simp
  | cons x xs =>
      have hx := hr.nodup
      simp only [List.nodup_cons, List.mem_cons, not_or] at hx
      simpa using Ne.symm hx.1.1

/-- The part of a cycle before a cut survives when only the `next` of its last
address may change. -/
theorem left_congr (hd : (a :: (xs ++ ys)).Nodup)
    (hn : ∀ x ∈ a :: xs, x ≠ xs.getLastD a → h'.next x = h.next x)
    (hp : ∀ x ∈ xs, h'.prev x = h.prev x)
    (hc : ((a :: xs).dropLast ++ [xs.getLastD a]).IsChain h.Adj) :
    ((a :: xs).dropLast ++ [xs.getLastD a]).IsChain h'.Adj := by
  have hl : xs.getLastD a ∉ (a :: xs).dropLast := by
    rw [← List.cons_append, cons_eq_concat a xs] at hd
    intro hm
    exact (List.nodup_append.mp (List.nodup_append.mp hd).1).2.2 _ hm _ (by simp) rfl
  refine chain_congr ?_ ?_ hc
  · intro x hx
    rw [List.dropLast_concat] at hx
    exact hn x (List.dropLast_subset _ hx) (fun he => hl (he ▸ hx))
  · intro x hx
    rw [← cons_eq_concat, List.tail_cons] at hx
    exact hp x hx

/-- The part of a cycle after a cut survives when only the `prev` of its first
address may change. -/
theorem right_congr (hd : (a :: (xs ++ ys)).Nodup)
    (hn : ∀ x ∈ ys, h'.next x = h.next x)
    (hp : ∀ x ∈ a :: ys, x ≠ ys.headD a → h'.prev x = h.prev x)
    (hc : (ys.headD a :: (ys ++ [a]).tail).IsChain h.Adj) :
    (ys.headD a :: (ys ++ [a]).tail).IsChain h'.Adj := by
  have ht : ys.headD a ∉ (ys ++ [a]).tail := by
    cases ys with
    | nil => simp
    | cons y ys =>
        rw [List.nodup_cons, List.nodup_append] at hd
        have hy := (List.nodup_cons.mp hd.2.2.1).1
        have ha : y ≠ a := fun he => hd.1 (by simp [he])
        simp [hy, ha]
  refine chain_congr ?_ ?_ hc
  · intro x hx
    rw [← concat_eq_cons, List.dropLast_concat] at hx
    exact hn x hx
  · intro x hx
    rw [List.tail_cons] at hx
    have hm := List.mem_of_mem_tail hx
    exact hp x (by simpa [or_comm] using hm) (fun he => ht (he ▸ hx))

private theorem disjoint_sides (hd : (a :: (xs ++ ys)).Nodup) {x y : α}
    (hx : x ∈ a :: xs) (hy : y ∈ ys) : x ≠ y := by
  rw [← List.cons_append, List.nodup_append] at hd
  exact hd.2.2 _ hx _ hy

private theorem ne_headD (hd : (a :: (xs ++ ys)).Nodup) {x : α} (hx : x ∈ xs) :
    x ≠ ys.headD a := by
  cases ys with
  | nil =>
      rintro rfl
      exact (List.nodup_cons.mp hd).1 (by simpa using hx)
  | cons y ys => exact disjoint_sides hd (List.mem_cons_of_mem _ hx) (by simp)

private theorem ne_getLastD (hd : (a :: (xs ++ ys)).Nodup) {x : α} (hx : x ∈ ys) :
    x ≠ xs.getLastD a :=
  (disjoint_sides hd (getLastD_mem a xs) hx).symm

section Edit
variable [DecidableEq α]

/-- Linking a fresh node between two neighbours of a ring inserts it there. -/
theorem insert (hr : h.Ring a (xs ++ ys)) (hn : n ∉ a :: (xs ++ ys))
    (hnext : ∀ x, h'.next x = if x = xs.getLastD a then n
      else if x = n then ys.headD a else h.next x)
    (hprev : ∀ x, h'.prev x = if x = n then xs.getLastD a
      else if x = ys.headD a then n else h.prev x) :
    h'.Ring a (xs ++ n :: ys) := by
  have hna : n ≠ a ∧ n ∉ xs ∧ n ∉ ys := by simpa using hn
  have hnx : ∀ x ∈ a :: (xs ++ ys), x ≠ n := fun x hx he => hn (he ▸ hx)
  have hp : xs.getLastD a ≠ n := by
    apply hnx
    have := getLastD_mem a xs
    simp only [List.mem_cons, List.mem_append] at this ⊢
    tauto
  have hq : ys.headD a ≠ n := by
    apply hnx
    have := headD_mem a ys
    simp only [List.mem_cons, List.mem_append] at this ⊢
    tauto
  have hc := hr.chain
  rw [cycle_split, List.isChain_append_cons_cons] at hc
  have hleft : ((a :: xs).dropLast ++ [xs.getLastD a]).IsChain h'.Adj := left_congr hr.nodup
    (fun x hx hxp => by
      have hxn := hnx x (by simp only [List.mem_cons, List.mem_append] at hx ⊢; tauto)
      rw [hnext, if_neg hxp, if_neg hxn])
    (fun x hx => by
      rw [hprev, if_neg (hnx x (by simp [hx])), if_neg (ne_headD hr.nodup hx)]) hc.1
  have hright : (ys.headD a :: (ys ++ [a]).tail).IsChain h'.Adj := right_congr hr.nodup
    (fun x hx => by
      rw [hnext, if_neg (ne_getLastD hr.nodup hx), if_neg (hnx x (by simp [hx]))])
    (fun x hx hxq => by
      have hxn := hnx x (by simp only [List.mem_cons, List.mem_append] at hx ⊢; tauto)
      rw [hprev, if_neg hxn, if_neg hxq]) hc.2.2
  constructor
  · rw [cycle_split, List.headD_cons, List.isChain_append_cons_cons, List.cons_append,
      List.tail_cons, concat_eq_cons a ys, List.isChain_cons_cons]
    refine ⟨hleft, ⟨by simp [hnext], by simp [hprev]⟩, ⟨?_, ?_⟩, hright⟩
    · rw [hnext, if_neg hp.symm, if_pos rfl]
    · rw [hprev, if_neg hq, if_pos rfl]
  · rw [← List.cons_append, List.nodup_middle, List.nodup_cons]
    exact ⟨by simpa using hn, by simpa using hr.nodup⟩

/-- Joining the two neighbours of a member removes it from the ring. -/
theorem remove (hr : h.Ring a (xs ++ n :: ys))
    (hnext : ∀ x, x ≠ n → h'.next x = if x = xs.getLastD a then ys.headD a else h.next x)
    (hprev : ∀ x, x ≠ n → h'.prev x = if x = ys.headD a then xs.getLastD a else h.prev x) :
    h'.Ring a (xs ++ ys) := by
  have hd : (n :: (a :: xs) ++ ys).Nodup := by
    have := hr.nodup
    rw [← List.cons_append, List.nodup_middle] at this
    simpa using this
  have hd' : (a :: (xs ++ ys)).Nodup := (List.nodup_cons.mp hd).2
  have hnx : ∀ x ∈ a :: (xs ++ ys), x ≠ n := fun x hx he =>
    (List.nodup_cons.mp hd).1 (he ▸ hx)
  have hp : xs.getLastD a ≠ n := by
    apply hnx
    have := getLastD_mem a xs
    simp only [List.mem_cons, List.mem_append] at this ⊢
    tauto
  have hq : ys.headD a ≠ n := by
    apply hnx
    have := headD_mem a ys
    simp only [List.mem_cons, List.mem_append] at this ⊢
    tauto
  have hc := hr.chain
  rw [cycle_split, List.headD_cons, List.isChain_append_cons_cons, List.cons_append,
    List.tail_cons, concat_eq_cons a ys, List.isChain_cons_cons] at hc
  have hleft : ((a :: xs).dropLast ++ [xs.getLastD a]).IsChain h'.Adj := left_congr hd'
    (fun x hx hxp => by
      have hxn := hnx x (by simp only [List.mem_cons, List.mem_append] at hx ⊢; tauto)
      rw [hnext x hxn, if_neg hxp])
    (fun x hx => by
      rw [hprev x (hnx x (by simp [hx])), if_neg (ne_headD hd' hx)]) hc.1
  have hright : (ys.headD a :: (ys ++ [a]).tail).IsChain h'.Adj := right_congr hd'
    (fun x hx => by
      rw [hnext x (hnx x (by simp [hx])), if_neg (ne_getLastD hd' hx)])
    (fun x hx hxq => by
      have hxn := hnx x (by simp only [List.mem_cons, List.mem_append] at hx ⊢; tauto)
      rw [hprev x hxn, if_neg hxq]) hc.2.2.2
  refine ⟨?_, hd'⟩
  rw [cycle_split, List.isChain_append_cons_cons]
  refine ⟨hleft, ⟨?_, ?_⟩, hright⟩
  · rw [hnext _ hp, if_pos rfl]
  · rw [hprev _ hq, if_pos rfl]

end Edit

end Ring

/-- The same heap with the two directions exchanged. -/
def flip (h : Links α) : Links α := ⟨h.prev, h.next⟩

/-- Backwards the members come in reverse order. -/
theorem Ring.flip {h : Links α} {a : α} {xs : List α} (hr : h.Ring a xs) : h.flip.Ring a xs.reverse := by
  have hadj : ∀ x y, h.flip.Adj x y ↔ h.Adj y x := fun x y => And.comm
  constructor
  · have hc := List.isChain_reverse.mpr hr.chain
    simp only [List.reverse_cons, List.reverse_append, List.reverse_nil, List.nil_append,
      List.cons_append] at hc
    exact hc.imp fun x y hxy => (hadj x y).mpr hxy
  · have hn := hr.nodup
    rw [List.nodup_cons] at hn ⊢
    exact ⟨by simpa using hn.1, List.nodup_reverse.mpr hn.2⟩

section Traversal
variable [DecidableEq α]

/-- Follow `next` from `x` until the head `a` is back or `stop` holds. The
result is `none` when the budget runs out, or where `stop` is undefined. -/
def seek (h : Links α) (a : α) (stop : α → Option Bool) : ℕ → α → Option α
  | 0, _ => none
  | n + 1, x =>
      if x = a then some a else
        match stop x with
        | none => none
        | some true => some x
        | some false => h.seek a stop n (h.next x)

/-- The members met from `x` until the head `a` is back. -/
def collect (h : Links α) (a : α) : ℕ → α → Option (List α)
  | 0, _ => none
  | n + 1, x => if x = a then some [] else (h.collect a n (h.next x)).map (x :: ·)

namespace Ring
variable {h : Links α} {a : α} {xs ys : List α}

/-- A search that starts at the rest of a ring finds the first of its members
that satisfies the test, and the head when there is none. The members are read
through `g`, so that the test may speak of what they are the addresses of. -/
theorem seek_rest {ι : Type*} {g : ι → α} {stop : α → Option Bool} {f : ι → Bool} {n : ℕ}
    {l : List ι} (hr : h.Ring a (xs ++ l.map g)) (hs : ∀ i ∈ l, stop (g i) = some (f i))
    (hn : l.length < n) :
    h.seek a stop n ((l.map g).headD a) = some (((l.find? f).map g).getD a) := by
  induction l generalizing xs n with
  | nil =>
      obtain ⟨m, rfl⟩ := Nat.exists_eq_succ_of_ne_zero (Nat.ne_of_gt hn)
      simp [seek]
  | cons i l ih =>
      obtain ⟨m, rfl⟩ := Nat.exists_eq_succ_of_ne_zero (Nat.ne_zero_of_lt hn)
      have hi : g i ≠ a := hr.ne_head (by simp)
      have hr' : h.Ring a ((xs ++ [g i]) ++ l.map g) := by simpa using hr
      have hrec := ih hr' (fun j hj => hs j (List.mem_cons_of_mem _ hj))
        (Nat.lt_of_succ_lt_succ hn)
      rw [List.map_cons] at hr
      rw [List.map_cons, List.headD_cons, seek, if_neg hi, hs i (by simp)]
      cases hf : f i with
      | true => simp [hf]
      | false => simpa [hf, hr.next_member] using hrec

theorem seek_eq {ι : Type*} {g : ι → α} {stop : α → Option Bool} {f : ι → Bool} {n : ℕ}
    {l : List ι} (hr : h.Ring a (l.map g)) (hs : ∀ i ∈ l, stop (g i) = some (f i))
    (hn : l.length < n) :
    h.seek a stop n (h.next a) = some (((l.find? f).map g).getD a) := by
  rw [hr.next_head]
  have hr' : h.Ring a ([] ++ l.map g) := hr
  exact seek_rest hr' hs hn

theorem collect_rest {n : ℕ} (hr : h.Ring a (xs ++ ys)) (hn : ys.length < n) :
    h.collect a n (ys.headD a) = some ys := by
  induction ys generalizing xs n with
  | nil =>
      obtain ⟨m, rfl⟩ := Nat.exists_eq_succ_of_ne_zero (Nat.ne_of_gt hn)
      simp [collect]
  | cons y ys ih =>
      obtain ⟨m, rfl⟩ := Nat.exists_eq_succ_of_ne_zero (Nat.ne_zero_of_lt hn)
      have hy : y ≠ a := hr.ne_head (by simp)
      have hr' : h.Ring a ((xs ++ [y]) ++ ys) := by simpa using hr
      rw [List.headD_cons, collect, if_neg hy, hr.next_member,
        ih hr' (Nat.lt_of_succ_lt_succ hn)]
      rfl

theorem collect_eq {n : ℕ} (hr : h.Ring a xs) (hn : xs.length < n) :
    h.collect a n (h.next a) = some xs := by
  rw [hr.next_head]
  have hr' : h.Ring a ([] ++ xs) := hr
  exact collect_rest hr' hn

end Ring
end Traversal

/-- A family of disjoint rings: `c a = some xs` says that `a` is the head of a
ring with members `xs`. -/
structure Rings (h : Links α) (c : α → Option (List α)) : Prop where
  ring : ∀ {a xs}, c a = some xs → h.Ring a xs
  disjoint : ∀ {a b xs ys}, c a = some xs → c b = some ys → a ≠ b →
    (a :: xs).Disjoint (b :: ys)

/-- The address takes part in no ring, as head or as member. -/
def Fresh (c : α → Option (List α)) (n : α) : Prop :=
  ∀ a xs, c a = some xs → n ∉ a :: xs

theorem Fresh.update [DecidableEq α] {c : α → Option (List α)} {n a : α} {xs : List α}
    (hn : Fresh c n) (ha : n ∉ a :: xs) : Fresh (Function.update c a (some xs)) n := by
  intro b ys hb
  by_cases hba : b = a
  · subst hba
    rw [Function.update_self, Option.some.injEq] at hb
    exact hb ▸ ha
  · rw [Function.update_of_ne hba] at hb
    exact hn b ys hb

namespace Rings
variable {h h' : Links α} {c c' : α → Option (List α)} {a n : α} {xs ys : List α}

theorem mono (hr : h.Rings c) (hc : ∀ a xs, c' a = some xs → c a = some xs) :
    h.Rings c' where
  ring ha := hr.ring (hc _ _ ha)
  disjoint ha hb := hr.disjoint (hc _ _ ha) (hc _ _ hb)

/-- Self-linking an address of no ring leaves every ring as it is. -/
theorem init_fresh (hr : h.Rings c) (hn : Fresh c n)
    (hagree : ∀ x, x ≠ n → h'.next x = h.next x ∧ h'.prev x = h.prev x) : h'.Rings c where
  ring ha := (hr.ring ha).congr
    (fun x hx => (hagree x (fun he => hn _ _ ha (he ▸ hx))).1)
    (fun x hx => (hagree x (fun he => hn _ _ ha (he ▸ hx))).2)
  disjoint := hr.disjoint

variable [DecidableEq α]

/-- An edit of one ring that touches no address of the others. -/
theorem update_ring (hr : h.Rings c) (ha : h'.Ring a ys) (hc : c a = some xs)
    (hsub : ∀ x ∈ ys, x ∈ xs ∨ Fresh c x)
    (hagree : ∀ x, x ∉ a :: xs → ¬ Fresh c x → h'.next x = h.next x ∧ h'.prev x = h.prev x) :
    h'.Rings (Function.update c a (some ys)) := by
  have hother : ∀ {b zs}, b ≠ a → c b = some zs → ∀ x ∈ b :: zs,
      x ∉ a :: xs ∧ ¬ Fresh c x := fun hne hb x hx =>
    ⟨fun hx' => hr.disjoint hc hb hne.symm hx' hx, fun hf => hf _ _ hb hx⟩
  have hside : ∀ {b zs}, b ≠ a → c b = some zs → (a :: ys).Disjoint (b :: zs) := by
    intro b zs hne hb x hx hx'
    have ho := hother hne hb x hx'
    rcases List.mem_cons.mp hx with rfl | hx
    · exact ho.1 (by simp)
    · rcases hsub x hx with hx | hx
      · exact ho.1 (List.mem_cons_of_mem _ hx)
      · exact ho.2 hx
  constructor
  · intro b zs hb
    by_cases hba : b = a
    · subst hba
      rw [Function.update_self, Option.some.injEq] at hb
      exact hb ▸ ha
    · rw [Function.update_of_ne hba] at hb
      exact (hr.ring hb).congr (fun x hx => (hagree x (hother hba hb x hx).1 (hother hba hb x hx).2).1)
        (fun x hx => (hagree x (hother hba hb x hx).1 (hother hba hb x hx).2).2)
  · intro b d zs ws hb hd hne
    by_cases hba : b = a
    · subst hba
      rw [Function.update_self, Option.some.injEq] at hb
      rw [Function.update_of_ne (Ne.symm hne)] at hd
      exact hb ▸ hside (Ne.symm hne) hd
    · rw [Function.update_of_ne hba] at hb
      by_cases hda : d = a
      · subst hda
        rw [Function.update_self, Option.some.injEq] at hd
        exact hd ▸ fun x hx hx' => hside hba hb hx' hx
      · rw [Function.update_of_ne hda] at hd
        exact hr.disjoint hb hd hne

theorem insert (hr : h.Rings c) (hc : c a = some (xs ++ ys)) (hn : Fresh c n)
    (hnext : ∀ x, h'.next x = if x = xs.getLastD a then n
      else if x = n then ys.headD a else h.next x)
    (hprev : ∀ x, h'.prev x = if x = n then xs.getLastD a
      else if x = ys.headD a then n else h.prev x) :
    h'.Rings (Function.update c a (some (xs ++ n :: ys))) := by
  refine hr.update_ring ((hr.ring hc).insert (hn _ _ hc) hnext hprev) hc ?_ ?_
  · intro x hx
    simp only [List.mem_append, List.mem_cons] at hx ⊢
    rcases hx with hx | rfl | hx
    · exact .inl (.inl hx)
    · exact .inr hn
    · exact .inl (.inr hx)
  · intro x hx hf
    have hxn : x ≠ n := fun he => hf (he ▸ hn)
    have hxp : x ≠ xs.getLastD a := by
      rintro rfl
      have := getLastD_mem a xs
      simp only [List.mem_cons, List.mem_append] at this hx
      tauto
    have hxq : x ≠ ys.headD a := by
      rintro rfl
      have := headD_mem a ys
      simp only [List.mem_cons, List.mem_append] at this hx
      tauto
    rw [hnext, if_neg hxp, if_neg hxn, hprev, if_neg hxn, if_neg hxq]
    exact ⟨rfl, rfl⟩

theorem remove (hr : h.Rings c) (hc : c a = some (xs ++ n :: ys))
    (hnext : ∀ x, x ≠ n → h'.next x = if x = xs.getLastD a then ys.headD a else h.next x)
    (hprev : ∀ x, x ≠ n → h'.prev x = if x = ys.headD a then xs.getLastD a else h.prev x) :
    h'.Rings (Function.update c a (some (xs ++ ys))) := by
  refine hr.update_ring ((hr.ring hc).remove hnext hprev) hc ?_ ?_
  · intro x hx
    simp only [List.mem_append, List.mem_cons] at hx ⊢
    tauto
  · intro x hx _
    have hxn : x ≠ n := by
      rintro rfl
      exact hx (by simp)
    have hxp : x ≠ xs.getLastD a := by
      rintro rfl
      have := getLastD_mem a xs
      simp only [List.mem_cons, List.mem_append] at this hx
      tauto
    have hxq : x ≠ ys.headD a := by
      rintro rfl
      have := headD_mem a ys
      simp only [List.mem_cons, List.mem_append] at this hx
      tauto
    rw [hnext x hxn, if_neg hxp, hprev x hxn, if_neg hxq]
    exact ⟨rfl, rfl⟩

/-- A removed member belongs to no ring. -/
theorem fresh_removed (hr : h.Rings c) (hc : c a = some (xs ++ n :: ys)) :
    Fresh (Function.update c a (some (xs ++ ys))) n := by
  have hd := (hr.ring hc).nodup
  rw [← List.cons_append, List.nodup_middle] at hd
  intro b zs hb
  by_cases hba : b = a
  · subst hba
    rw [Function.update_self, Option.some.injEq] at hb
    exact hb ▸ (List.nodup_cons.mp hd).1
  · rw [Function.update_of_ne hba] at hb
    exact hr.disjoint hc hb (Ne.symm hba) (by simp)

/-- A self-linked address of no ring becomes the head of an empty ring. -/
theorem new_head (hr : h.Rings c) (hn : Fresh c n) (hnext : h.next n = n)
    (hprev : h.prev n = n) : h.Rings (Function.update c n (some [])) := by
  have hring : h.Ring n [] := ⟨by simp [Adj, hnext, hprev], by simp⟩
  constructor
  · intro b zs hb
    by_cases hbn : b = n
    · subst hbn
      rw [Function.update_self, Option.some.injEq] at hb
      exact hb ▸ hring
    · rw [Function.update_of_ne hbn] at hb
      exact hr.ring hb
  · intro b d zs ws hb hd hne
    by_cases hbn : b = n
    · subst hbn
      rw [Function.update_self, Option.some.injEq] at hb
      rw [Function.update_of_ne (Ne.symm hne)] at hd
      rw [← hb, List.singleton_disjoint]
      exact hn _ _ hd
    · rw [Function.update_of_ne hbn] at hb
      by_cases hdn : d = n
      · subst hdn
        rw [Function.update_self, Option.some.injEq] at hd
        rw [← hd, List.disjoint_singleton]
        exact hn _ _ hb
      · rw [Function.update_of_ne hdn] at hd
        exact hr.disjoint hb hd hne

end Rings
end Links
end PandOSsh.Library
