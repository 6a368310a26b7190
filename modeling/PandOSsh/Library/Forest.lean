import Mathlib

/-!
# Ordered forests

Every node has a list of children, and is a child of at most one node. The chain of parents
above a node ends, so that no node is above itself. A root may be given to any node that is
not below it, and a node may be taken from its parent.
-/

namespace PandOSsh.Library

@[ext]
structure Forest (α : Type*) where
  parent : α → Option α
  children : α → List α
  mem_children : ∀ p c, c ∈ children p ↔ parent c = some p
  nodup : ∀ p, (children p).Nodup
  wf : WellFounded fun p c => parent c = some p

namespace Forest
variable {α : Type*} {f : Forest α} {a b c p q : α}

/-- The second node is the first one, or descends from it. -/
def Below (f : Forest α) : α → α → Prop := Relation.ReflTransGen fun p c => f.parent c = some p

/-- A root without children. -/
structure Alone (f : Forest α) (p : α) : Prop where
  parent : f.parent p = none
  children : f.children p = []

/-- The n-th node above. -/
def ancestor (f : Forest α) : ℕ → α → Option α
  | 0, a => some a
  | n + 1, a => (f.parent a).bind (f.ancestor n)

instance : EmptyCollection (Forest α) where
  emptyCollection := {
    parent := fun _ => none
    children := fun _ => []
    mem_children := fun _ _ => by simp
    nodup := fun _ => List.nodup_nil
    wf := ⟨fun a => ⟨a, fun _ h => absurd h (by simp)⟩⟩ }

theorem alone_empty (p : α) : (∅ : Forest α).Alone p := ⟨rfl, rfl⟩

section Chains

theorem below_of_parent (h : f.parent c = some p) (hp : f.Below a p) : f.Below a c := hp.tail h

theorem below_iff : f.Below a c ↔ a = c ∨ ∃ p, f.parent c = some p ∧ f.Below a p := by
  constructor
  · intro h
    rcases h.cases_tail with rfl | ⟨p, hp, hc⟩
    · exact .inl rfl
    · exact .inr ⟨p, hc, hp⟩
  · rintro (rfl | ⟨p, hc, hp⟩)
    · exact .refl
    · exact below_of_parent hc hp

/-- Nothing is below its own child. -/
theorem not_below_parent (h : f.parent c = some p) : ¬ f.Below c p := fun hb =>
  f.wf.transGen.irrefl.irrefl c (Relation.TransGen.tail' hb h)

/-- The nodes above a node, itself included, are the list of a chain that ends. -/
theorem exists_chain (f : Forest α) (a : α) : ∃ l : List α, l.Nodup ∧
    (∀ b, b ∈ l ↔ f.Below b a) ∧ f.ancestor l.length a = none := by
  induction a using f.wf.induction with
  | _ a ih =>
    cases hp : f.parent a with
    | none =>
        refine ⟨[a], List.nodup_singleton a, fun b => ?_, ?_⟩
        · rw [List.mem_singleton, below_iff, hp]
          simp
        · rw [List.length_singleton, ancestor, hp, Option.bind_none]
    | some p =>
        obtain ⟨l, hl, hmem, hend⟩ := ih p hp
        refine ⟨a :: l, List.nodup_cons.mpr ⟨fun ha => ?_, hl⟩, fun b => ?_, ?_⟩
        · exact not_below_parent hp ((hmem a).mp ha)
        · rw [List.mem_cons, hmem, below_iff (c := a), hp]
          simp
        · rw [List.length_cons, ancestor, hp, Option.bind_some, hend]

theorem ancestor_mono {n m : ℕ} (h : f.ancestor n a = none) (hm : n ≤ m) :
    f.ancestor m a = none := by
  induction n generalizing a m with
  | zero => cases h
  | succ n ih =>
      obtain ⟨k, rfl⟩ : ∃ k, m = k + 1 := ⟨m - 1, by omega⟩
      rw [ancestor] at h ⊢
      cases hp : f.parent a with
      | none => rfl
      | some p =>
          rw [hp, Option.bind_some] at h
          exact ih h (by omega)

/-- The chain of parents has ended after as many steps as there are nodes. -/
theorem ancestor_card [Fintype α] (f : Forest α) (a : α) :
    f.ancestor (Fintype.card α) a = none := by
  obtain ⟨l, hl, -, hend⟩ := f.exists_chain a
  exact ancestor_mono hend hl.length_le_card

end Chains

section Edits
variable [DecidableEq α]

/-- The chains stay finite when `c` gets the parent `p`. -/
private theorem wf_insert (hp : ¬ f.Below c p) :
    WellFounded fun q d => Function.update f.parent c (some p) d = some q := by
  have hout : ∀ d, ¬ f.Below c d →
      Acc (fun q d => Function.update f.parent c (some p) d = some q) d := by
    intro d
    induction d using f.wf.induction with
    | _ d ih =>
      intro hd
      refine ⟨d, fun q hq => ?_⟩
      have hne : d ≠ c := fun he => hd (he ▸ .refl)
      rw [Function.update_of_ne hne] at hq
      exact ih q hq fun hb => hd (below_of_parent hq hb)
  refine ⟨fun d => ?_⟩
  induction d using f.wf.induction with
  | _ d ih =>
    refine ⟨d, fun q hq => ?_⟩
    by_cases hd : d = c
    · rw [hd, Function.update_self, Option.some.injEq] at hq
      exact hq ▸ hout p hp
    · rw [Function.update_of_ne hd] at hq
      exact ih q hq

open Classical in
/-- A root becomes the first child of a node that is not below it. -/
noncomputable def insert (p c : α) (f : Forest α) : Forest α :=
  if h : f.parent c = none ∧ ¬ f.Below c p then
    { parent := Function.update f.parent c (some p)
      children := Function.update f.children p (c :: f.children p)
      mem_children := fun q d => by
        have hc : ∀ q, c ∉ f.children q := fun q hq => by
          rw [f.mem_children, h.1] at hq
          cases hq
        by_cases hd : d = c
        · subst hd
          rw [Function.update_self, Option.some.injEq]
          by_cases hq : q = p
          · subst hq
            simp
          · rw [Function.update_of_ne hq]
            exact iff_of_false (hc q) (Ne.symm hq)
        · rw [Function.update_of_ne hd, ← f.mem_children]
          by_cases hq : q = p
          · subst hq
            simp [hd]
          · rw [Function.update_of_ne hq]
      nodup := fun q => by
        by_cases hq : q = p
        · subst hq
          rw [Function.update_self, List.nodup_cons, f.mem_children, h.1]
          exact ⟨Option.some_ne_none q ∘ Eq.symm, f.nodup q⟩
        · rw [Function.update_of_ne hq]
          exact f.nodup q
      wf := wf_insert h.2 }
  else f

theorem parent_insert (hc : f.parent c = none) (hp : ¬ f.Below c p) :
    (f.insert p c).parent = Function.update f.parent c (some p) := by
  rw [insert, dif_pos ⟨hc, hp⟩]

theorem children_insert (hc : f.parent c = none) (hp : ¬ f.Below c p) :
    (f.insert p c).children = Function.update f.children p (c :: f.children p) := by
  rw [insert, dif_pos ⟨hc, hp⟩]

/-- A node is taken from its parent, with all that is below it. -/
def remove (c : α) (f : Forest α) : Forest α where
  parent := Function.update f.parent c none
  children q := (f.children q).erase c
  mem_children q d := by
    rw [(f.nodup q).mem_erase_iff, f.mem_children]
    by_cases hd : d = c
    · subst hd
      simp
    · simp [hd]
  nodup q := (f.nodup q).erase c
  wf := by
    refine Subrelation.wf (fun {q d} h => ?_) f.wf
    by_cases hd : d = c
    · rw [hd, Function.update_self] at h
      cases h
    · rwa [Function.update_of_ne hd] at h

@[simp] theorem parent_remove (f : Forest α) (c d : α) :
    (f.remove c).parent d = if d = c then none else f.parent d := Function.update_apply ..

@[simp] theorem children_remove (f : Forest α) (c q : α) :
    (f.remove c).children q = (f.children q).erase c := rfl

/-- Only one list of children changes. -/
theorem children_remove_of_parent (h : f.parent c = some p) :
    (f.remove c).children = Function.update f.children p ((f.children p).erase c) := by
  funext q
  by_cases hq : q = p
  · rw [hq, Function.update_self, children_remove]
  · rw [Function.update_of_ne hq, children_remove, List.erase_of_not_mem]
    rw [f.mem_children, h, Option.some.injEq]
    exact Ne.symm hq

theorem remove_root (h : f.parent c = none) : f.remove c = f := by
  ext1
  · change Function.update f.parent c none = f.parent
    rw [← h, Function.update_eq_self]
  · funext q
    rw [children_remove, List.erase_of_not_mem]
    rw [f.mem_children, h]
    exact Option.some_ne_none q ∘ Eq.symm

end Edits
end Forest
end PandOSsh.Library
