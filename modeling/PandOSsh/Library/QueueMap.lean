import Mathlib

/-!
# Finite maps to non-empty queues

A queue for every key, all but finitely many of them empty. A key is active
while its queue is not empty, so that no active key can have an empty queue.
-/

namespace PandOSsh.Library

structure QueueMap (κ α : Type*) where
  queue : κ → List α
  active : Finset κ
  mem_active : ∀ k, k ∈ active ↔ queue k ≠ []

namespace QueueMap
variable {κ α : Type*}

instance : EmptyCollection (QueueMap κ α) := ⟨⟨fun _ => [], ∅, by simp⟩⟩

@[simp] theorem active_empty : (∅ : QueueMap κ α).active = ∅ := rfl

/-- The queues determine the map. -/
@[ext] theorem ext {m m' : QueueMap κ α} (h : ∀ k, m.queue k = m'.queue k) : m = m' := by
  obtain ⟨q, s, hs⟩ := m
  obtain ⟨q', s', hs'⟩ := m'
  have hq : q = q' := funext h
  subst hq
  have hss : s = s' := by
    ext k
    rw [hs, hs']
  subst hss
  rfl

/-- Take an element out of the queues that contain it. -/
def erase [DecidableEq α] (a : α) (m : QueueMap κ α) : QueueMap κ α where
  queue k := (m.queue k).erase a
  active := m.active.filter fun k => (m.queue k).erase a ≠ []
  mem_active k := by
    rw [Finset.mem_filter, m.mem_active, and_iff_right_iff_imp]
    intro h hn
    exact h (by rw [hn]; rfl)

@[simp] theorem queue_erase [DecidableEq α] (m : QueueMap κ α) (k : κ) (a : α) :
    (m.erase a).queue k = (m.queue k).erase a := rfl

variable [DecidableEq κ]

/-- Give a key another queue. -/
def set (k : κ) (q : List α) (m : QueueMap κ α) : QueueMap κ α where
  queue := Function.update m.queue k q
  active := match q with
    | [] => m.active.erase k
    | _ :: _ => insert k m.active
  mem_active a := by
    by_cases ha : a = k
    · subst ha
      cases q <;> simp
    · cases q <;> simp [ha, m.mem_active]

def enqueue (k : κ) (a : α) (m : QueueMap κ α) : QueueMap κ α := m.set k (m.queue k ++ [a])

def dequeue (k : κ) (m : QueueMap κ α) : QueueMap κ α := m.set k (m.queue k).tail

@[simp] theorem queue_enqueue (m : QueueMap κ α) (k b : κ) (a : α) : (m.enqueue k a).queue b =
    if b = k then m.queue k ++ [a] else m.queue b := Function.update_apply ..

@[simp] theorem queue_dequeue (m : QueueMap κ α) (k b : κ) : (m.dequeue k).queue b =
    if b = k then (m.queue k).tail else m.queue b := Function.update_apply ..

end QueueMap
end PandOSsh.Library
