import PandOSsh.Library.Rings

/-!
# Intrusive lists (headers/listx.h)

The inline functions of `listx.h` over an arbitrary type of `list_head`
addresses. The writes stand in the order of the source. `list_for_each` is a
search for the position at which the body leaves the loop; its budget bounds
the number of positions and only matters on a list that does not close.
-/

namespace PandOSsh.ListX
open Library

variable {α : Type*} [DecidableEq α]

def initListHead (list : α) (h : Links α) : Links α :=
  (h.setNext list list).setPrev list list

/-- `__list_add`: link `new` between `prev` and `next`. -/
def listAddBetween (new prev next : α) (h : Links α) : Links α :=
  (((h.setPrev next new).setNext new next).setPrev new prev).setNext prev new

def listAdd (new head : α) (h : Links α) : Links α :=
  listAddBetween new head (h.next head) h

def listAddTail (new head : α) (h : Links α) : Links α :=
  listAddBetween new (h.prev head) head h

/-- `__list_del`: link `prev` and `next` to each other. -/
def listDelBetween (prev next : α) (h : Links α) : Links α :=
  (h.setPrev next prev).setNext prev next

def listDel (entry : α) (h : Links α) : Links α :=
  let h := listDelBetween (h.prev entry) (h.next entry) h
  (h.setNext entry entry).setPrev entry entry

def listEmpty (head : α) (h : Links α) : Bool := h.next head = head

/-- `list_next`: `none` is NULL. -/
def listNext (current : α) (h : Links α) : Option α :=
  if listEmpty current h then none else some (h.next current)

/-- `list_for_each` with a body that leaves the loop where `stop` holds; the
result is the position reached, the head when the loop ran through. -/
def listForEach (budget : ℕ) (head : α) (stop : α → Option Bool) (h : Links α) : Option α :=
  h.seek head stop budget (h.next head)

section Fields
variable (h : Links α) (x e n p q : α)

theorem next_initListHead :
    (initListHead e h).next x = if x = e then e else h.next x := by
  simp [initListHead]

theorem prev_initListHead :
    (initListHead e h).prev x = if x = e then e else h.prev x := by
  simp [initListHead]

theorem next_listAddBetween :
    (listAddBetween n p q h).next x = if x = p then n else if x = n then q else h.next x := by
  simp [listAddBetween]

theorem prev_listAddBetween :
    (listAddBetween n p q h).prev x = if x = n then p else if x = q then n else h.prev x := by
  simp [listAddBetween]

theorem next_listDel :
    (listDel e h).next x =
      if x = e then e else if x = h.prev e then h.next e else h.next x := by
  simp [listDel, listDelBetween]

theorem prev_listDel :
    (listDel e h).prev x =
      if x = e then e else if x = h.next e then h.prev e else h.prev x := by
  simp [listDel, listDelBetween]

end Fields

section Rings
variable {h : Links α} {c : α → Option (List α)} {a n : α} {xs ys : List α}

/-- Linking a fresh node between two neighbours of a family of rings. -/
theorem rings_listAddBetween (hr : h.Rings c) (hc : c a = some (xs ++ ys))
    (hn : Links.Fresh c n) :
    (listAddBetween n (xs.getLastD a) (ys.headD a) h).Rings
      (Function.update c a (some (xs ++ n :: ys))) :=
  hr.insert hc hn (fun x => next_listAddBetween h x n _ _)
    (fun x => prev_listAddBetween h x n _ _)

theorem rings_listAdd (hr : h.Rings c) (hc : c a = some xs) (hn : Links.Fresh c n) :
    (listAdd n a h).Rings (Function.update c a (some (n :: xs))) := by
  rw [listAdd, (hr.ring hc).next_head]
  have hc' : c a = some ([] ++ xs) := hc
  exact rings_listAddBetween hr hc' hn

theorem rings_listAddTail (hr : h.Rings c) (hc : c a = some xs) (hn : Links.Fresh c n) :
    (listAddTail n a h).Rings (Function.update c a (some (xs ++ [n]))) := by
  rw [listAddTail, (hr.ring hc).prev_head]
  have hc' : c a = some (xs ++ []) := by rw [hc, List.append_nil]
  exact rings_listAddBetween hr hc' hn

/-- Deleting a member of a family of rings. -/
theorem rings_listDel (hr : h.Rings c) (hc : c a = some (xs ++ n :: ys)) :
    (listDel n h).Rings (Function.update c a (some (xs ++ ys))) := by
  have hring := hr.ring hc
  refine hr.remove hc ?_ ?_
  · intro x hx
    rw [next_listDel, if_neg hx, hring.prev_member, hring.next_member]
  · intro x hx
    rw [prev_listDel, if_neg hx, hring.prev_member, hring.next_member]

theorem rings_initListHead (hr : h.Rings c) (hn : Links.Fresh c n) :
    (initListHead n h).Rings c :=
  hr.init_fresh hn (fun x hx =>
    ⟨by rw [next_initListHead, if_neg hx], by rw [prev_initListHead, if_neg hx]⟩)

theorem rings_initListHead_new (hr : h.Rings c) (hn : Links.Fresh c n) :
    (initListHead n h).Rings (Function.update c n (some [])) :=
  (rings_initListHead hr hn).new_head hn (by simp [next_initListHead])
    (by simp [prev_initListHead])

/-- A static table added to a list, entry by entry. -/
theorem rings_foldl_listAdd {ι : Type*} {f : ι → α} {l : List ι} (hr : h.Rings c)
    (hc : c a = some xs) (hn : ∀ i ∈ l, Links.Fresh c (f i)) (hd : (l.map f).Nodup) :
    (l.foldl (fun h i => listAdd (f i) a h) h).Rings
      (Function.update c a (some (l.reverse.map f ++ xs))) := by
  induction l generalizing h c xs with
  | nil =>
      have he : Function.update c a (some xs) = c := by rw [← hc, Function.update_eq_self]
      simpa [he] using hr
  | cons i l ih =>
      rw [List.map_cons, List.nodup_cons] at hd
      have hfree : ∀ j ∈ l, Links.Fresh (Function.update c a (some (f i :: xs))) (f j) := by
        intro j hj
        refine (hn j (by simp [hj])).update ?_
        have hx := hn j (by simp [hj]) _ _ hc
        have hji : f j ≠ f i := fun he => hd.1 (he ▸ List.mem_map_of_mem hj)
        simp only [List.mem_cons, not_or] at hx ⊢
        exact ⟨hx.1, hji, hx.2⟩
      have hrec := ih (rings_listAdd hr hc (hn i (by simp))) (Function.update_self ..) hfree
        hd.2
      simpa using hrec

theorem listNext_of_ring (hr : h.Ring a xs) : listNext a h = xs.head? := by
  have he : listEmpty a h = true ↔ xs = [] := by
    rw [listEmpty, decide_eq_true_iff]
    exact hr.next_ne_head
  have hn := hr.next_head
  unfold listNext
  cases xs with
  | nil => simp [he]
  | cons x xs => simp_all

theorem ring_listAdd (hr : h.Ring a xs) (hn : n ∉ a :: xs) : (listAdd n a h).Ring a (n :: xs) := by
  rw [listAdd, hr.next_head]
  have hr' : h.Ring a ([] ++ xs) := hr
  exact hr'.insert hn (fun x => next_listAddBetween h x n _ _)
    fun x => prev_listAddBetween h x n _ _

theorem ring_initListHead (hr : h.Ring a xs) (hn : n ∉ a :: xs) :
    (initListHead n h).Ring a xs := by
  apply hr.congr
  · intro x hx
    exact (next_initListHead h x n).trans (if_neg fun he : x = n => hn (he ▸ hx))
  · intro x hx
    exact (prev_initListHead h x n).trans (if_neg fun he : x = n => hn (he ▸ hx))

theorem ring_listDel (hr : h.Ring a (xs ++ n :: ys)) : (listDel n h).Ring a (xs ++ ys) := by
  refine hr.remove ?_ ?_
  · intro x hx
    rw [next_listDel, if_neg hx, hr.prev_member, hr.next_member]
  · intro x hx
    rw [prev_listDel, if_neg hx, hr.prev_member, hr.next_member]

theorem listEmpty_iff (hr : h.Rings c) (hc : c a = some xs) :
    listEmpty a h = true ↔ xs = [] := by
  rw [listEmpty, decide_eq_true_iff]
  exact (hr.ring hc).next_ne_head

theorem listNext_eq (hr : h.Rings c) (hc : c a = some xs) : listNext a h = xs.head? :=
  listNext_of_ring (hr.ring hc)

end Rings
end PandOSsh.ListX
