import PandOSsh.Library.Mutex

/-!
# Sessions under a semaphore

A log in which only the process that holds a semaphore makes entries is a
sequence of sessions, in the order in which the processes got the semaphore.
The last session may be unfinished: its process is still at it.
-/

namespace PandOSsh.Library
variable {α ε : Type*}

/-- What one process enters between its P and its V. -/
structure Session (α ε : Type*) where
  owner : α
  entries : List ε

namespace Session

def log (c : Session α ε) : List (α × ε) := c.entries.map fun e => (c.owner, e)

def add (c : Session α ε) (es : List ε) : Session α ε := ⟨c.owner, c.entries ++ es⟩

theorem log_add (c : Session α ε) (es : List ε) :
    (c.add es).log = c.log ++ es.map fun e => (c.owner, e) := List.map_append

/-- The session can go on until it is complete, and has not yet. -/
def Open (complete : Session α ε → Prop) (c : Session α ε) : Prop :=
  ∃ es, es ≠ [] ∧ complete (c.add es)

end Session

open Session

/-- The log of a semaphore: `complete` are the sessions that end with a V, `doing`
those that a process is at. -/
inductive Logged (complete doing : Session α ε → Prop) (s : Semaphore α) (past : α → Prop) :
    List (α × ε) → Prop
  | free {cs : List (Session α ε)} (hv : s.value = 1) (hc : ∀ c ∈ cs, complete c) :
      Logged complete doing s past (cs.flatMap log)
  | busy {cs : List (Session α ε)} {c : Session α ε} (hv : s.value = 0)
      (hc : ∀ c ∈ cs, complete c) (ho : c.Open complete)
      (hd : ∀ p, s.Holds past p → p = c.owner ∧ doing c) :
      Logged complete doing s past (cs.flatMap log ++ c.log)

namespace Logged
variable {complete doing doing' : Session α ε → Prop} {s s' : Semaphore α} {past past' : α → Prop}
  {l : List (α × ε)} {p q : α} {e : ε}

theorem nil (hv : s.value = 1) : Logged complete doing s past [] := by
  have h : Logged complete doing s past (([] : List (Session α ε)).flatMap log) :=
    .free hv fun _ hc => absurd hc List.not_mem_nil
  exact h

/-- Nobody gets the semaphore, and nothing is entered. -/
theorem stays (h : Logged complete doing s past l) (hv : s'.value = s.value)
    (hq : ∀ q, s'.Holds past' q → s.Holds past q)
    (hd : ∀ c, s'.Holds past' c.owner → doing c → doing' c) :
    Logged complete doing' s' past' l := by
  cases h with
  | free hv' hc => exact .free (hv.trans hv') hc
  | busy hv' hc ho hh =>
      apply Logged.busy (hv.trans hv') hc ho
      intro q hs
      have hown := hh q (hq q hs)
      exact ⟨hown.1, hd _ (hown.1 ▸ hs) hown.2⟩

/-- The holder makes entries and goes on. -/
theorem enters {es : List ε} (h : Logged complete doing s past l) (hm : s.Mutex past)
    (hp : s.Holds past p) (hv : s'.value = s.value) (hq : ∀ q, s'.Holds past' q → s.Holds past q)
    (hd : ∀ c, c.owner = p → doing c → (c.add es).Open complete ∧ doing' (c.add es)) :
    Logged complete doing' s' past' (l ++ es.map fun e => (p, e)) := by
  cases h with
  | free hv' hc => exact absurd hv' (by rw [hm.value_eq_zero hp.1]; decide)
  | @busy cs c hv' hc ho hh =>
      obtain ⟨rfl, hdo⟩ := hh p hp
      obtain ⟨hopen, hdoing⟩ := hd c rfl hdo
      rw [List.append_assoc, ← c.log_add]
      apply Logged.busy (hv.trans hv') hc hopen
      intro q hs
      exact ⟨(hh q (hq q hs)).1, hdoing⟩

/-- A process gets the free semaphore. -/
theorem takes (h : Logged complete doing s past l) (hm : s.Mutex past) (hv : 0 < s.value)
    (hq : ∀ q, q ≠ p → (past' q ↔ past q)) (ho : (Session.mk p [e]).Open complete)
    (hd : doing' ⟨p, [e]⟩) : Logged complete doing' (s.passeren p) past' (l ++ [(p, e)]) := by
  have hval : (s.passeren p).value = s.value - 1 := by rw [Semaphore.passeren, if_pos hv]
  cases h with
  | free hv' hc =>
      refine .busy (c := ⟨p, [e]⟩) (by omega) hc ho fun q hs => ⟨?_, hd⟩
      by_contra hne
      have hpast : past q := (hq q hne).mp hs.1
      have hz := hm.value_eq_zero hpast
      omega
  | busy hv' => omega

/-- A process waits for the semaphore. -/
theorem waits (h : Logged complete doing s past l) (hv : ¬ 0 < s.value)
    (hq : ∀ q, q ≠ p → (past' q ↔ past q))
    (hd : ∀ c, c.owner ≠ p → doing c → doing' c) :
    Logged complete doing' (s.passeren p) past' l := by
  have heq : s.passeren p = ⟨s.value, s.queue ++ [p]⟩ := by rw [Semaphore.passeren, if_neg hv]
  have hne : ∀ q, (s.passeren p).Holds past' q → q ≠ p := by
    intro q hs hqp
    rw [heq] at hs
    exact hs.2 (List.mem_append_right _ (hqp ▸ List.mem_singleton_self p))
  apply h.stays
  · rw [heq]
  · intro q hs
    have hqp := hne q hs
    rw [heq] at hs
    exact ⟨(hq q hqp).mp hs.1, fun hmem => hs.2 (List.mem_append_left _ hmem)⟩
  · intro c hs hdo
    exact hd c (hne _ hs) hdo

/-- The holder ends its session, and the first process that waits gets the semaphore. -/
theorem gives {es : List ε} {opening : α → Option ε} (h : Logged complete doing s past l)
    (hm : s.Mutex past) (hp : s.Holds past p) (hn : ¬ past' p)
    (hq : ∀ q, q ≠ p → (past' q ↔ past q))
    (hc : ∀ c, c.owner = p → doing c → complete (c.add es))
    (hw : ∀ w ∈ s.queue, ∃ e, opening w = some e ∧ (Session.mk w [e]).Open complete ∧
      doing' ⟨w, [e]⟩) :
    Logged complete doing' s.verhogen past' (l ++ (es.map fun e => (p, e)) ++
      (s.queue.head?.bind fun w => (opening w).map fun e => (w, e)).toList) := by
  have hafter := hm.verhogen hp hn hq
  cases h with
  | free hv' => exact absurd hv' (by rw [hm.value_eq_zero hp.1]; decide)
  | @busy cs c hv' hcs ho hh =>
      obtain ⟨rfl, hdo⟩ := hh p hp
      have hdone : ∀ c' ∈ cs ++ [c.add es], complete c' := by
        intro c' hmem
        rcases List.mem_append.mp hmem with hmem | hmem
        · exact hcs c' hmem
        · rw [List.mem_singleton.mp hmem]
          exact hc c rfl hdo
      have hlog : cs.flatMap log ++ c.log ++ (es.map fun e => (c.owner, e)) =
          (cs ++ [c.add es]).flatMap log := by
        rw [List.flatMap_append, List.flatMap_singleton, log_add, List.append_assoc]
      rw [hlog]
      obtain ⟨v, queue⟩ := s
      cases queue with
      | nil =>
          rw [List.head?_nil, Option.bind_none, Option.toList_none, List.append_nil]
          apply Logged.free _ hdone
          simp only [Semaphore.verhogen] at hv' ⊢
          omega
      | cons w ws =>
          obtain ⟨e, he, hopen, hdoing⟩ := hw w List.mem_cons_self
          have hholds : (Semaphore.mk v ws).Holds past' w :=
            ⟨(hq w fun he => hp.2 (he ▸ List.mem_cons_self)).mpr (hm.queued w List.mem_cons_self),
              (List.nodup_cons.mp hm.nodup).1⟩
          have hbusy : Logged complete doing' (Semaphore.mk v ws) past'
              ((cs ++ [c.add es]).flatMap log ++ (Session.mk w [e]).log) :=
            .busy hv' hdone hopen fun q hs => ⟨hafter.unique q w hs hholds, hdoing⟩
          rw [List.head?_cons, Option.bind_some, he, Option.map_some, Option.toList_some]
          exact hbusy

/-- Sessions as calls: `f` is the log of a call. -/
theorem exists_calls {β : Type*} {f : β → List (α × ε)} {cs : List (Session α ε)}
    (h : ∀ c ∈ cs, ∃ w, f w = c.log) : ∃ ws : List β, cs.flatMap log = ws.flatMap f := by
  induction cs with
  | nil => exact ⟨[], rfl⟩
  | cons c cs ih =>
      obtain ⟨w, hw⟩ := h c List.mem_cons_self
      obtain ⟨ws, hws⟩ := ih fun c' hc' => h c' (List.mem_cons_of_mem c hc')
      refine ⟨w :: ws, ?_⟩
      rw [List.flatMap_cons, List.flatMap_cons, hw, hws]

/-- The log is the concatenation of complete calls and the beginning of one, which is
there while the semaphore is taken only, and is the call of who holds it. -/
theorem calls {β : Type*} {f : β → List (α × ε)} {owner : β → α}
    (h : Logged complete doing s past l)
    (hf : ∀ c, complete c → ∃ w, f w = c.log ∧ owner w = c.owner) :
    ∃ (ws : List β) (rest : _), l = ws.flatMap f ++ rest ∧ (rest = [] ∨ s.value = 0 ∧
      ∃ w, rest <+: f w ∧ rest ≠ f w ∧ ∀ p, s.Holds past p → p = owner w) := by
  have hlog : ∀ c, complete c → ∃ w, f w = c.log := fun c hc => (hf c hc).imp fun _ => And.left
  cases h with
  | @free cs hv hc =>
      obtain ⟨ws, hws⟩ := exists_calls fun c hmem => hlog c (hc c hmem)
      exact ⟨ws, [], by rw [hws, List.append_nil], .inl rfl⟩
  | @busy cs c hv hc ho hh =>
      obtain ⟨ws, hws⟩ := exists_calls fun c hmem => hlog c (hc c hmem)
      obtain ⟨es, hne, hcomplete⟩ := ho
      obtain ⟨w, hw, hown⟩ := hf _ hcomplete
      rw [log_add] at hw
      refine ⟨ws, c.log, by rw [hws], .inr ⟨hv, w, ?_, ?_, fun p hp => ?_⟩⟩
      · rw [hw]
        exact List.prefix_append ..
      · rw [hw]
        intro he
        have hnil := List.append_right_eq_self.mp he.symm
        rw [List.map_eq_nil_iff] at hnil
        exact hne hnil
      · exact (hh p hp).1.trans hown.symm

end Logged
end PandOSsh.Library
