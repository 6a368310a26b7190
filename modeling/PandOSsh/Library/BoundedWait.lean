import PandOSsh.Library.Mutex
import PandOSsh.Library.PriorityQueue

/-!
# Bounded waiting

A mutex whose holders give it back after a bounded number of steps. Whoever waits
counts the steps that holders take in the meantime: those that the present holder
has left and those of the processes ahead in the queue bound what is still to come.
-/

namespace PandOSsh.Library.Semaphore
variable {α : Type*} [DecidableEq α]

/-- The steps that the processes before p may take once they hold the semaphore, each at
most `most` of them. -/
def toCome (s : Semaphore α) (most : ℕ) (p : α) : ℕ := most * (ahead p s.queue).length

/-- What who waits has seen, together with what is to come, stays below the bound. -/
structure WaitsAtMost (s : Semaphore α) (past : α → Prop) (left : α → ℕ) (most bound : ℕ)
    (waited : α → ℕ) : Prop where
  queued : ∀ p ∈ s.queue, waited p + s.toCome most p ≤ bound
  held : ∀ p ∈ s.queue, ∀ q, s.Holds past q → waited p + left q + s.toCome most p ≤ bound

variable {s s' : Semaphore α} {past past' : α → Prop} {left left' waited waited' : α → ℕ}
  {most bound : ℕ} {p q w : α} {ws : List α}

theorem ahead_concat (hq : q ∈ s.queue) (x : α) : ahead q (s.queue ++ [x]) = ahead q s.queue := by
  obtain ⟨before, after, he, hb⟩ := List.eq_append_cons_of_mem hq
  rw [he, List.append_assoc, List.cons_append, ahead_append before _ hb, ahead_append before _ hb]

theorem ahead_cons (hne : w ≠ q) : ahead q (w :: ws) = w :: ahead q ws :=
  List.takeWhile_cons_of_pos (decide_eq_true hne)

/-- The steps of one more process are to come for whoever stands behind it. -/
theorem toCome_cons {v : ℤ} (hne : w ≠ q) : (Semaphore.mk v (w :: ws)).toCome most q =
    (Semaphore.mk v ws).toCome most q + most := by
  rw [toCome, toCome, ahead_cons hne, List.length_cons, Nat.mul_succ]

theorem toCome_filter {v : ℤ} {queue : List α} {keep : α → Bool} (hq : q ∈ queue)
    (hk : keep q = true) :
    (Semaphore.mk v (queue.filter keep)).toCome most q ≤ (Semaphore.mk v queue).toCome most q := by
  rw [toCome, toCome]
  refine Nat.mul_le_mul_left most ?_
  have h : ahead q ((queue ++ []).filter keep) = (ahead q queue).filter keep := ahead_filter hq hk
  rw [List.append_nil] at h
  rw [h]
  exact List.length_filter_le _ _

/-- A P that has to wait: it comes after all who wait already. -/
theorem WaitsAtMost.passeren (h : s.WaitsAtMost past left most bound waited) (hm : s.Mutex past)
    (hn : ¬ past p) (hq : ∀ q, q ≠ p → (past' q ↔ past q)) (hleft : ∀ q, q ≠ p → left' q = left q)
    (hwait : ∀ q ∈ s.queue, waited' q = waited q) (hstart : waited' p = 0)
    (hroom : most * s.queue.length ≤ bound ∧
      ∀ q, s.Holds past q → left q + most * s.queue.length ≤ bound) :
    (s.passeren p).WaitsAtMost past' left' most bound waited' := by
  have hpq : p ∉ s.queue := fun hmem => hn (hm.queued p hmem)
  rw [Semaphore.passeren]
  split
  · next hv =>
    have hempty : ∀ q, q ∉ s.queue := by
      intro q hmem
      have hz := hm.value_eq_zero (hm.queued q hmem)
      omega
    exact ⟨fun q hmem => absurd hmem (hempty q), fun q hmem => absurd hmem (hempty q)⟩
  · next hv =>
    have hself : (Semaphore.mk s.value (s.queue ++ [p])).toCome most p = most * s.queue.length := by
      rw [toCome, ahead_append s.queue [] hpq]
    have hother : ∀ q ∈ s.queue, (Semaphore.mk s.value (s.queue ++ [p])).toCome most q =
        s.toCome most q := fun q hmem => by rw [toCome, toCome, ahead_concat hmem]
    have hback : ∀ r, (Semaphore.mk s.value (s.queue ++ [p])).Holds past' r →
        s.Holds past r ∧ left' r = left r := by
      intro r hr
      have hne : r ≠ p := fun he => hr.2 (by simp [he])
      exact ⟨⟨(hq r hne).mp hr.1, fun hmem => hr.2 (List.mem_append_left _ hmem)⟩, hleft r hne⟩
    refine ⟨fun q hmem => ?_, fun q hmem r hr => ?_⟩
    · rcases List.mem_append.mp hmem with hmem | hmem
      · rw [hother q hmem, hwait q hmem]
        exact h.queued q hmem
      · rw [List.mem_singleton.mp hmem, hself, hstart, Nat.zero_add]
        exact hroom.1
    · obtain ⟨hr, hl⟩ := hback r hr
      rw [hl]
      rcases List.mem_append.mp hmem with hmem | hmem
      · rw [hother q hmem, hwait q hmem]
        exact h.held q hmem r hr
      · rw [List.mem_singleton.mp hmem, hself, hstart, Nat.zero_add]
        exact hroom.2 r hr

/-- A V: the next in the queue has at most `most` steps left. -/
theorem WaitsAtMost.verhogen (h : s.WaitsAtMost past left most bound waited) (hm : s.Mutex past)
    (hp : s.Holds past p) (hn : ¬ past' p) (hq : ∀ q, q ≠ p → (past' q ↔ past q))
    (hlast : 0 < left p) (hnext : ∀ q ∈ s.queue, left' q ≤ most)
    (hwait : ∀ q ∈ s.queue, waited' q ≤ waited q + 1) :
    s.verhogen.WaitsAtMost past' left' most bound waited' := by
  obtain ⟨v, queue⟩ := s
  cases queue with
  | nil => exact ⟨fun q hmem => absurd hmem List.not_mem_nil, fun q hmem => absurd hmem List.not_mem_nil⟩
  | cons w ws =>
      have hnodup := List.nodup_cons.mp hm.nodup
      have hfirst : ∀ r, (Semaphore.mk v ws).Holds past' r → r = w := by
        intro r hr
        by_contra hne
        have hrp : r ≠ p := fun he => hn (he ▸ hr.1)
        refine hrp (hm.unique r p ⟨(hq r hrp).mp hr.1, ?_⟩ hp)
        simp only [List.mem_cons, not_or]
        exact ⟨hne, hr.2⟩
      have hsum : ∀ q ∈ ws, waited' q + most + (Semaphore.mk v ws).toCome most q ≤ bound := by
        intro q hmem
        have hne : w ≠ q := fun he => hnodup.1 (he ▸ hmem)
        have hold := h.held q (List.mem_cons_of_mem w hmem) p hp
        rw [toCome_cons hne] at hold
        have hw := hwait q (List.mem_cons_of_mem w hmem)
        omega
      refine ⟨fun q hmem => ?_, fun q hmem r hr => ?_⟩
      · exact (Nat.add_le_add_right (Nat.le_add_right _ most) _).trans (hsum q hmem)
      · rw [hfirst r hr]
        have hle := hnext w List.mem_cons_self
        exact (Nat.add_le_add_right (Nat.add_le_add_left hle _) _).trans (hsum q hmem)

theorem WaitsAtMost.filter (h : s.WaitsAtMost past left most bound waited) (keep : α → Bool)
    (hq : ∀ q, past' q ↔ past q ∧ keep q = true) (hleft : ∀ q, past' q → left' q = left q)
    (hwait : ∀ q ∈ s.queue, waited' q = waited q) :
    (Semaphore.mk s.value (s.queue.filter keep)).WaitsAtMost past' left' most bound waited' := by
  refine ⟨fun q hmem => ?_, fun q hmem r hr => ?_⟩
  · obtain ⟨hmem, hk⟩ := List.mem_filter.mp hmem
    have hle : _ ≤ s.toCome most q := toCome_filter hmem hk
    have hold := h.queued q hmem
    rw [hwait q hmem]
    omega
  · obtain ⟨hmem, hk⟩ := List.mem_filter.mp hmem
    have hle : _ ≤ s.toCome most q := toCome_filter hmem hk
    have hr₀ := (hq r).mp hr.1
    have hhold : s.Holds past r := ⟨hr₀.1, fun hm => hr.2 (List.mem_filter.mpr ⟨hm, hr₀.2⟩)⟩
    have hold := h.held q hmem r hhold
    rw [hwait q hmem, hleft r hr.1]
    omega

/-- Every step of the holder is seen by all who wait, and is one that it had left. -/
theorem WaitsAtMost.step (h : s.WaitsAtMost past left most bound waited) (hm : s.Mutex past)
    (hs : s.Step past p past' s') (hleft : ∀ q, q ≠ p → left' q = left q)
    (hnext : ∀ q ∈ s.queue, left q ≤ most)
    (hin : s.Holds past p → 0 < left p ∧ (past' p → left' p < left p) ∧
      ∀ q ∈ s.queue, waited' q ≤ waited q + 1)
    (hout : ¬ s.Holds past p → ∀ q ∈ s.queue, waited' q = waited q)
    (hroom : ¬ past p → past' p → waited' p = 0 ∧ most * s.queue.length ≤ bound ∧
      ∀ q, s.Holds past q → left q + most * s.queue.length ≤ bound) :
    s'.WaitsAtMost past' left' most bound waited' := by
  cases hs with
  | passeren hn hp hq =>
      obtain ⟨hstart, hroom⟩ := hroom hn hp
      exact h.passeren hm hn hq hleft (hout fun hh => hn hh.1) hstart hroom
  | verhogen hp hn hq =>
      obtain ⟨hlast, _, hwait⟩ := hin hp
      refine h.verhogen hm hp hn hq hlast (fun q hmem => ?_) hwait
      rw [hleft q fun he => hp.2 (he ▸ hmem)]
      exact hnext q hmem
  | none hq =>
      have hholds : ∀ r, s.Holds past' r ↔ s.Holds past r := fun r => and_congr_left' (hq r)
      by_cases hp : s.Holds past p
      · obtain ⟨hlast, hdown, hwait⟩ := hin hp
        have hlt := hdown ((hq p).mpr hp.1)
        refine ⟨fun q hmem => ?_, fun q hmem r hr => ?_⟩
        · have hold := h.held q hmem p hp
          have hw := hwait q hmem
          omega
        · obtain rfl := hm.unique r p ((hholds r).mp hr) hp
          have hold := h.held q hmem r hp
          have hw := hwait q hmem
          omega
      · refine ⟨fun q hmem => ?_, fun q hmem r hr => ?_⟩
        · rw [hout hp q hmem]
          exact h.queued q hmem
        · have hne : r ≠ p := fun he => hp (he ▸ (hholds r).mp hr)
          rw [hout hp q hmem, hleft r hne]
          exact h.held q hmem r ((hholds r).mp hr)

end PandOSsh.Library.Semaphore
