import Mathlib

/-!
# Counting semaphores with a queue

P takes a unit or queues the caller; V hands a unit to the first of the queue,
or keeps it when nobody waits.
-/

namespace PandOSsh.Library

structure Semaphore (α : Type*) where
  value : ℤ
  queue : List α

namespace Semaphore
variable {α : Type*} {s : Semaphore α}

def passeren (p : α) (s : Semaphore α) : Semaphore α :=
  if 0 < s.value then { s with value := s.value - 1 } else { s with queue := s.queue ++ [p] }

def verhogen (s : Semaphore α) : Semaphore α :=
  match s.queue with
  | [] => { s with value := s.value + 1 }
  | _ :: ps => { s with queue := ps }

/-- The units that are free, less those that are waited for. -/
def balance (s : Semaphore α) : ℤ := s.value - s.queue.length

/-- No unit is owed, and none is free while somebody waits. -/
structure Sane (s : Semaphore α) : Prop where
  nonneg : 0 ≤ s.value
  zero : s.queue ≠ [] → s.value = 0

theorem balance_passeren (p : α) (s : Semaphore α) :
    (s.passeren p).balance = s.balance - 1 := by
  rw [passeren]
  split
  · simp only [balance]
    omega
  · simp only [balance, List.length_append, List.length_singleton]
    omega

theorem balance_verhogen (s : Semaphore α) : s.verhogen.balance = s.balance + 1 := by
  obtain ⟨v, q⟩ := s
  cases q with
  | nil => simp [verhogen, balance]
  | cons p ps =>
      simp only [verhogen, balance, List.length_cons]
      omega

theorem queue_verhogen (s : Semaphore α) : s.verhogen.queue = s.queue.tail := by
  obtain ⟨v, q⟩ := s
  cases q with
  | nil => rfl
  | cons p ps => rfl

theorem length_passeren (p : α) (s : Semaphore α) :
    (s.passeren p).queue.length ≤ s.queue.length + 1 := by
  rw [passeren]
  split <;> simp

theorem length_verhogen (s : Semaphore α) : s.verhogen.queue.length ≤ s.queue.length := by
  obtain ⟨v, q⟩ := s
  cases q <;> simp [verhogen]

theorem Sane.passeren (h : s.Sane) (p : α) : (s.passeren p).Sane := by
  rw [Semaphore.passeren]
  split
  · next hv =>
    refine ⟨?_, fun hq => ?_⟩
    · simp only
      omega
    · have hz := h.zero hq
      omega
  · next hv => exact ⟨h.nonneg, fun _ => le_antisymm (not_lt.mp hv) h.nonneg⟩

theorem Sane.verhogen (h : s.Sane) : s.verhogen.Sane := by
  obtain ⟨v, q⟩ := s
  cases q with
  | nil =>
      refine ⟨?_, fun hq => absurd rfl hq⟩
      have hv := h.nonneg
      simp only [Semaphore.verhogen] at hv ⊢
      omega
  | cons p ps => exact ⟨h.nonneg, fun _ => h.zero (List.cons_ne_nil p ps)⟩

end Semaphore
end PandOSsh.Library
