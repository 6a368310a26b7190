import PandOSsh.Library.Semaphore

/-!
# Mutual exclusion with a semaphore

A process is past its P from the moment it requests it until its V. It holds the
semaphore when, in addition, it does not wait in the queue. Two invariants: the
one that survives when processes disappear, and the one that says in addition
that a semaphore that is not free has a holder. Where processes wait for several
semaphores, an order of these excludes that they wait for each other.
-/

namespace PandOSsh.Library.Semaphore
variable {α : Type*} {s : Semaphore α} {past past' : α → Prop} {p q : α}

def Holds (s : Semaphore α) (past : α → Prop) (p : α) : Prop := past p ∧ p ∉ s.queue

/-- At most one holder, and none while the semaphore is free. -/
structure Mutex (s : Semaphore α) (past : α → Prop) : Prop where
  queued : ∀ p ∈ s.queue, past p
  nodup : s.queue.Nodup
  unique : ∀ p q, s.Holds past p → s.Holds past q → p = q
  value : s.value = 0 ∨ s.value = 1 ∧ ∀ p, ¬ past p

/-- Every unit that is taken is taken by somebody. -/
structure Owned (s : Semaphore α) (past : α → Prop) : Prop extends Mutex s past where
  owned : s.value = 0 → ∃ p, s.Holds past p

theorem Mutex.congr (h : s.Mutex past) (hp : ∀ q, past' q ↔ past q) : s.Mutex past' := by
  have heq : past' = past := funext fun q => propext (hp q)
  rw [heq]
  exact h

theorem Owned.congr (h : s.Owned past) (hp : ∀ q, past' q ↔ past q) : s.Owned past' := by
  have heq : past' = past := funext fun q => propext (hp q)
  rw [heq]
  exact h

theorem Mutex.value_eq_zero (h : s.Mutex past) (hp : past p) : s.value = 0 := by
  rcases h.value with h0 | ⟨_, hn⟩
  · exact h0
  · exact absurd hp (hn p)

theorem Mutex.le_one (h : s.Mutex past) : s.value ≤ 1 := by
  rcases h.value with h0 | ⟨h1, _⟩ <;> omega

/-- A process that is not past its P requests it. -/
theorem Mutex.passeren (h : s.Mutex past) (hn : ¬ past p) (hp : past' p)
    (hq : ∀ q, q ≠ p → (past' q ↔ past q)) : (s.passeren p).Mutex past' := by
  have hpq : p ∉ s.queue := fun hm => hn (h.queued p hm)
  rw [Semaphore.passeren]
  split
  · next hv =>
    rcases h.value with h0 | ⟨h1, hnone⟩
    · omega
    · have heq : ∀ q, past' q → q = p := by
        intro q hp'
        by_contra hne
        exact hnone q ((hq q hne).mp hp')
      constructor
      · intro q hm
        exact absurd (h.queued q hm) (hnone q)
      · exact h.nodup
      · intro q r hq' hr
        rw [heq q hq'.1, heq r hr.1]
      · left
        simp only
        omega
  · next hv =>
    have hback : ∀ q, (Semaphore.mk s.value (s.queue ++ [p])).Holds past' q → s.Holds past q := by
      intro q hh
      have hne : q ≠ p := fun he => hh.2 (by simp [he])
      exact ⟨(hq q hne).mp hh.1, fun hm => hh.2 (List.mem_append_left _ hm)⟩
    constructor
    · intro q hm
      rcases List.mem_append.mp hm with hm | hm
      · have hne : q ≠ p := fun he => hpq (he ▸ hm)
        exact (hq q hne).mpr (h.queued q hm)
      · rw [List.mem_singleton.mp hm]
        exact hp
    · rw [List.nodup_append]
      refine ⟨h.nodup, List.nodup_singleton p, ?_⟩
      intro q hm r hr he
      rw [List.mem_singleton] at hr
      exact hpq (hr ▸ he ▸ hm)
    · intro q r hq' hr
      exact h.unique q r (hback q hq') (hback r hr)
    · left
      rcases h.value with h0 | ⟨h1, _⟩
      · exact h0
      · omega

/-- The holder gives the semaphore back. -/
theorem Mutex.verhogen (h : s.Mutex past) (hp : s.Holds past p) (hn : ¬ past' p)
    (hq : ∀ q, q ≠ p → (past' q ↔ past q)) : s.verhogen.Mutex past' := by
  have hz := h.value_eq_zero hp.1
  obtain ⟨v, queue⟩ := s
  cases queue with
  | nil =>
      have hnone : ∀ q, ¬ past' q := by
        intro q hq'
        by_cases hne : q = p
        · exact hn (hne ▸ hq')
        · exact hne (h.unique q p ⟨(hq q hne).mp hq', List.not_mem_nil⟩ hp)
      constructor
      · intro q hm
        exact absurd hm List.not_mem_nil
      · exact List.nodup_nil
      · intro q r hq' hr
        exact absurd hq'.1 (hnone q)
      · right
        exact ⟨by simp only [Semaphore.verhogen] at hz ⊢; omega, hnone⟩
  | cons w ws =>
      have hnodup := List.nodup_cons.mp h.nodup
      have hfirst : ∀ q, (Semaphore.mk v ws).Holds past' q → q = w := by
        intro q hh
        by_contra hne
        have hqp : q ≠ p := fun he => hn (he ▸ hh.1)
        have hold : (Semaphore.mk v (w :: ws)).Holds past q :=
          ⟨(hq q hqp).mp hh.1, by simp only [List.mem_cons, not_or]; exact ⟨hne, hh.2⟩⟩
        exact hqp (h.unique q p hold hp)
      constructor
      · intro q hm
        have hne : q ≠ p := fun he => hp.2 (List.mem_cons_of_mem w (he ▸ hm))
        exact (hq q hne).mpr (h.queued q (List.mem_cons_of_mem w hm))
      · exact hnodup.2
      · intro q r hq' hr
        rw [hfirst q hq', hfirst r hr]
      · exact .inl hz

/-- The processes that remain are those of `keep`. -/
theorem Mutex.filter (h : s.Mutex past) (keep : α → Bool)
    (hq : ∀ q, past' q ↔ past q ∧ keep q = true) :
    (Semaphore.mk s.value (s.queue.filter keep)).Mutex past' := by
  have hback : ∀ q, (Semaphore.mk s.value (s.queue.filter keep)).Holds past' q → s.Holds past q := by
    intro q hh
    have hk := (hq q).mp hh.1
    exact ⟨hk.1, fun hm => hh.2 (List.mem_filter.mpr ⟨hm, hk.2⟩)⟩
  constructor
  · intro q hm
    obtain ⟨hm, hk⟩ := List.mem_filter.mp hm
    exact (hq q).mpr ⟨h.queued q hm, hk⟩
  · exact h.nodup.filter _
  · intro q r hq' hr
    exact h.unique q r (hback q hq') (hback r hr)
  · rcases h.value with h0 | ⟨h1, hn⟩
    · exact .inl h0
    · exact .inr ⟨h1, fun q hq' => hn q ((hq q).mp hq').1⟩

theorem Owned.passeren (h : s.Owned past) (hn : ¬ past p) (hp : past' p)
    (hq : ∀ q, q ≠ p → (past' q ↔ past q)) : (s.passeren p).Owned past' := by
  refine { toMutex := h.toMutex.passeren hn hp hq, owned := fun _ => ?_ }
  have hpq : p ∉ s.queue := fun hm => hn (h.queued p hm)
  rw [Semaphore.passeren]
  split
  · exact ⟨p, hp, hpq⟩
  · next hv =>
    have hz : s.value = 0 := by
      rcases h.value with h0 | ⟨h1, _⟩ <;> omega
    obtain ⟨q, hq', hmem⟩ := h.owned hz
    have hne : q ≠ p := fun he => hn (he ▸ hq')
    refine ⟨q, (hq q hne).mpr hq', ?_⟩
    simp only [List.mem_append, List.mem_singleton, not_or]
    exact ⟨hmem, hne⟩

theorem Owned.verhogen (h : s.Owned past) (hp : s.Holds past p) (hn : ¬ past' p)
    (hq : ∀ q, q ≠ p → (past' q ↔ past q)) : s.verhogen.Owned past' := by
  refine { toMutex := h.toMutex.verhogen hp hn hq, owned := ?_ }
  have hz := h.value_eq_zero hp.1
  obtain ⟨v, queue⟩ := s
  cases queue with
  | nil =>
      intro hv
      simp only [Semaphore.verhogen] at hv hz
      omega
  | cons w ws =>
      intro _
      have hne : w ≠ p := fun he => hp.2 (he ▸ List.mem_cons_self)
      exact ⟨w, (hq w hne).mpr (h.queued w List.mem_cons_self), (List.nodup_cons.mp h.nodup).1⟩

/-- A process that is not past its P disappears from the system. -/
theorem Owned.filter (h : s.Owned past) (keep : α → Bool) (hk : ∀ q, past q → keep q = true)
    (hq : ∀ q, past' q ↔ past q) :
    (Semaphore.mk s.value (s.queue.filter keep)).Owned past' := by
  have hall : ∀ q, past' q ↔ past q ∧ keep q = true := fun q =>
    (hq q).trans ⟨fun h => ⟨h, hk q h⟩, And.left⟩
  refine { toMutex := h.toMutex.filter keep hall, owned := fun hz => ?_ }
  obtain ⟨q, hq', hmem⟩ := h.owned hz
  exact ⟨q, (hq q).mpr hq', fun hm => hmem (List.mem_filter.mp hm).1⟩

/-- What a step of the process p does to the semaphore: P, V, or nothing. -/
inductive Step (s : Semaphore α) (past : α → Prop) (p : α) (past' : α → Prop) : Semaphore α → Prop
  | passeren (hn : ¬ past p) (hp : past' p) (hq : ∀ q, q ≠ p → (past' q ↔ past q)) :
      Step s past p past' (s.passeren p)
  | verhogen (hp : s.Holds past p) (hn : ¬ past' p) (hq : ∀ q, q ≠ p → (past' q ↔ past q)) :
      Step s past p past' s.verhogen
  | none (hq : ∀ q, past' q ↔ past q) : Step s past p past' s

theorem Mutex.step {s' : Semaphore α} (h : s.Mutex past) (hs : s.Step past p past' s') :
    s'.Mutex past' := by
  cases hs with
  | passeren hn hp hq => exact h.passeren hn hp hq
  | verhogen hp hn hq => exact h.verhogen hp hn hq
  | none hq => exact h.congr hq

theorem Owned.step {s' : Semaphore α} (h : s.Owned past) (hs : s.Step past p past' s') :
    s'.Owned past' := by
  cases hs with
  | passeren hn hp hq => exact h.passeren hn hp hq
  | verhogen hp hn hq => exact h.verhogen hp hn hq
  | none hq => exact h.congr hq

/-- What the semaphore protects: `ready` while it is free, and what its holder says while
it is taken. -/
structure Protects (s : Semaphore α) (past : α → Prop) (ready : Prop) (held : α → Prop) :
    Prop where
  ready : 0 < s.value → ready
  held : ∀ p, s.Holds past p → held p

section Protects
variable {ready ready' : Prop} {held held' : α → Prop} {s' : Semaphore α}

theorem Protects.passeren (h : s.Protects past ready held) (hm : s.Mutex past)
    (hq : ∀ q, q ≠ p → (past' q ↔ past q)) (hr : ready → ready')
    (hother : ∀ q, q ≠ p → held q → held' q) (hself : ready' → held' p) :
    (s.passeren p).Protects past' ready' held' := by
  rw [Semaphore.passeren]
  split
  · next hv =>
    refine ⟨fun hv' => ?_, fun q hh => ?_⟩
    · have hle := hm.le_one
      simp only at hv'
      omega
    · have heq : q = p := by
        by_contra hne
        have hz := hm.value_eq_zero ((hq q hne).mp hh.1)
        omega
      rw [heq]
      exact hself (hr (h.ready hv))
  · next hv =>
    refine ⟨fun hv' => absurd hv' hv, fun q hh => ?_⟩
    have hne : q ≠ p := fun he => hh.2 (by simp [he])
    exact hother q hne (h.held q ⟨(hq q hne).mp hh.1, fun hmem =>
      hh.2 (List.mem_append_left _ hmem)⟩)

/-- Whoever comes next finds what is protected ready. -/
theorem Protects.verhogen (hm : s.Mutex past) (hp : s.Holds past p) (hn : ¬ past' p)
    (hq : ∀ q, q ≠ p → (past' q ↔ past q)) (hr : ready')
    (hnext : ∀ q ∈ s.queue, q ≠ p → held' q) : s.verhogen.Protects past' ready' held' := by
  refine ⟨fun _ => hr, fun q hh => ?_⟩
  have hqp : q ≠ p := fun he => hn (he ▸ hh.1)
  refine hnext q ?_ hqp
  by_contra hmem
  exact hqp (hm.unique q p ⟨(hq q hqp).mp hh.1, hmem⟩ hp)

theorem Protects.filter (h : s.Protects past ready held) (keep : α → Bool)
    (hq : ∀ q, past' q ↔ past q ∧ keep q = true) (hr : ready → ready')
    (hheld : ∀ q, past q → held q → held' q) :
    (Semaphore.mk s.value (s.queue.filter keep)).Protects past' ready' held' := by
  refine ⟨fun hv => hr (h.ready hv), fun q hh => ?_⟩
  have hk := (hq q).mp hh.1
  exact hheld q hk.1 (h.held q ⟨hk.1, fun hmem => hh.2 (List.mem_filter.mpr ⟨hmem, hk.2⟩)⟩)

/-- Only the holder touches what is protected, and its V leaves it ready. -/
theorem Protects.step (h : s.Protects past ready held) (hm : s.Mutex past)
    (hs : s.Step past p past' s')
    (hout : ¬ s.Holds past p → (ready → ready') ∧ ∀ q, q ≠ p → held q → held' q)
    (hin : s.Holds past p → held p → (past' p → held' p) ∧ (¬ past' p → ready'))
    (hnext : ready' → ∀ q, q ∈ s.queue ∧ q ≠ p ∨ q = p ∧ ¬ past p → past' q → held' q) :
    s'.Protects past' ready' held' := by
  cases hs with
  | passeren hn hp hq =>
      obtain ⟨hr, hother⟩ := hout fun hh => hn hh.1
      exact h.passeren hm hq hr hother fun hr' => hnext hr' p (.inr ⟨rfl, hn⟩) hp
  | verhogen hp hn hq =>
      have hr := (hin hp (h.held p hp)).2 hn
      refine Protects.verhogen hm hp hn hq hr fun q hmem hne => ?_
      exact hnext hr q (.inl ⟨hmem, hne⟩) ((hq q hne).mpr (hm.queued q hmem))
  | none hq =>
      refine ⟨fun hv => ?_, fun q hh => ?_⟩
      · refine (hout fun hh => ?_).1 (h.ready hv)
        have hz := hm.value_eq_zero hh.1
        omega
      · have hold : s.Holds past q := ⟨(hq q).mp hh.1, hh.2⟩
        by_cases hqp : q = p
        · subst hqp
          exact (hin hold (h.held q hold)).1 hh.1
        · exact (hout fun hh' => hqp (hm.unique q p hold hh')).2 q hqp (h.held q hold)

end Protects
end PandOSsh.Library.Semaphore

namespace PandOSsh.Library
variable {α κ : Type*} {waits owes : α → κ → Prop} {level : κ → ℕ} {p : α} {x : κ}

/-- p waits for something that q owes. -/
def WaitsFor (waits owes : α → κ → Prop) (p q : α) : Prop := ∃ x, waits p x ∧ owes q x

/-- Whatever is waited for is owed by somebody who waits at a lower level, if at all. -/
def LockOrder (waits owes : α → κ → Prop) (level : κ → ℕ) : Prop :=
  ∀ p x, waits p x → ∃ q, owes q x ∧ ∀ y, waits q y → level y < level x

/-- Every chain of waits leads to somebody who does not wait. -/
theorem LockOrder.chain (h : LockOrder waits owes level) (hp : waits p x) :
    ∃ q, Relation.TransGen (WaitsFor waits owes) p q ∧ (∃ y, owes q y) ∧ ∀ y, ¬ waits q y := by
  -- by induction on the level of what is waited for
  induction hn : level x using Nat.strong_induction_on generalizing p x with
  | h n ih =>
      obtain ⟨q, hq, hlow⟩ := h p x hp
      have hstep : WaitsFor waits owes p q := ⟨x, hp, hq⟩
      by_cases hy : ∃ y, waits q y
      · obtain ⟨y, hy⟩ := hy
        obtain ⟨r, hr, hnone⟩ := ih (level y) (hn ▸ hlow y hy) hy rfl
        exact ⟨r, .head hstep hr, hnone⟩
      · exact ⟨q, .single hstep, ⟨x, hq⟩, not_exists.mp hy⟩

end PandOSsh.Library
