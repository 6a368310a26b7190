import PandOSsh.Library.Semaphore

/-!
# Processes that wait on semaphores

A process has a parent and data, both fixed when it is created, and waits on at
most one semaphore. It dies with everything below it. Whenever some process
waits nowhere, one of these runs.
-/

namespace PandOSsh.Library

namespace Semaphore
variable {α : Type*}

/-- P without a look at the value. -/
def wait (p : α) (s : Semaphore α) : Semaphore α := { s with queue := s.queue ++ [p] }

/-- Nobody waits any more, and no unit is free. -/
def release (_ : Semaphore α) : Semaphore α := ⟨0, []⟩

end Semaphore

/-- What is fixed when a process is created. -/
structure Info (α δ : Type*) where
  parent : Option α
  data : δ

/-- The live processes, and who waits where. -/
@[ext]
structure Processes (α κ δ : Type*) where
  info : α → Option (Info α δ)
  sem : κ → Semaphore α

namespace Processes
variable {α κ δ : Type*}

section Relations
variable (m : Processes α κ δ)

def Live (p : α) : Prop := (m.info p).isSome

def Child (p q : α) : Prop := ∃ d, m.info q = some ⟨some p, d⟩

/-- `q` is `p` or descends from it. -/
def Below : α → α → Prop := Relation.ReflTransGen m.Child

def Waits (p : α) (x : κ) : Prop := p ∈ (m.sem x).queue

def Runnable (p : α) : Prop := m.Live p ∧ ∀ x, ¬ m.Waits p x

end Relations

/-- What can be done to the processes. -/
inductive Op (α κ δ : Type*) where
  | none
  | create (p c : α) (d : δ)
  | kill (p : α)
  | passeren (p : α) (x : κ)
  | verhogen (x : κ)
  | wait (p : α) (x : κ)
  | release (x : κ)

/-- The values that the semaphores have now. -/
def assign (v : κ → ℤ) (m : Processes α κ δ) : Processes α κ δ :=
  { m with sem := fun x => { m.sem x with value := v x } }

open Classical in
/-- The end of `p` and of all below it. -/
noncomputable def kill (p : α) (m : Processes α κ δ) : Processes α κ δ where
  info q := if m.Below p q then none else m.info q
  sem x := { m.sem x with queue := (m.sem x).queue.filter fun q => ¬ m.Below p q }

section Ops
variable [DecidableEq κ]

def modify (x : κ) (f : Semaphore α → Semaphore α) (m : Processes α κ δ) : Processes α κ δ :=
  { m with sem := Function.update m.sem x (f (m.sem x)) }

open Classical in
noncomputable def Op.run (m : Processes α κ δ) : Op α κ δ → Processes α κ δ
  | .none => m
  | .create p c d => { m with info := Function.update m.info c (some ⟨some p, d⟩) }
  | .kill p => m.kill p
  | .passeren p x => m.modify x (·.passeren p)
  | .verhogen x => m.modify x (·.verhogen)
  | .wait p x => m.modify x (·.wait p)
  | .release x => m.modify x (·.release)

/-- What an operation may rely on. -/
def Op.Allowed (m : Processes α κ δ) : Op α κ δ → Prop
  | .create p c _ => m.Live p ∧ ¬ m.Live c
  | .passeren p _ | .wait p _ => m.Runnable p
  | _ => True

end Ops

/-- Everybody descends from `root`, through parents that are alive. -/
structure Rooted (root : α) (m : Processes α κ δ) : Prop where
  family : ∀ q, m.Live q → m.Below root q
  parent : ∀ p q, m.Child p q → m.Live p

/-- Who waits is alive and waits once. -/
structure Sound (root : α) (m : Processes α κ δ) : Prop extends Rooted root m where
  live : ∀ q x, m.Waits q x → m.Live q
  nodup : ∀ x, (m.sem x).queue.Nodup
  unique : ∀ q x y, m.Waits q x → m.Waits q y → x = y

section Facts
variable {m m' : Processes α κ δ} {root p q c : α} {x : κ} {d : δ}

theorem Child.live (h : m.Child p q) : m.Live q := by
  obtain ⟨d, hd⟩ := h
  rw [Live, hd]
  rfl

theorem Below.mono (hc : ∀ a b, m.Child a b → m'.Child a b) (h : m.Below p q) : m'.Below p q :=
  Relation.ReflTransGen.mono hc _ _ h

theorem Below.congr (h : m'.info = m.info) : m'.Below p q ↔ m.Below p q := by
  have hc : m'.Child = m.Child := by
    funext a b
    rw [Child, Child, h]
  rw [Below, Below, hc]

/-- The first of the family is there as long as anybody is. -/
theorem Rooted.root_live (h : m.Rooted root) (hq : m.Live q) : m.Live root := by
  rcases (h.family q hq).cases_head with rfl | ⟨c, hc, -⟩
  · exact hq
  · exact h.parent root c hc

theorem Rooted.congr (h : m.Rooted root) (hi : m'.info = m.info) : m'.Rooted root where
  family q hl := (Below.congr hi).mpr (h.family q (by rwa [Live, hi] at hl))
  parent p q hc := by
    rw [Live, hi]
    rw [Child, hi] at hc
    exact h.parent p q hc

theorem Runnable.mono (h : m.Runnable p) (hl : m'.Live p) (hw : ∀ x, m'.Waits p x → m.Waits p x) :
    m'.Runnable p := ⟨hl, fun x hx => h.2 x (hw x hx)⟩

/-- A change of the queues that adds no waiter. -/
theorem Sound.shrink (h : m.Sound root) (hi : m'.info = m.info)
    (hq : ∀ x, (m'.sem x).queue.Sublist (m.sem x).queue) : m'.Sound root where
  toRooted := h.toRooted.congr hi
  live q x hw := by
    rw [Live, hi]
    exact h.live q x ((hq x).subset hw)
  nodup x := (h.nodup x).sublist (hq x)
  unique q x y hx hy := h.unique q x y ((hq x).subset hx) ((hq y).subset hy)

theorem Sound.assign (h : m.Sound root) (v : κ → ℤ) : (m.assign v).Sound root :=
  h.shrink rfl fun _ => .refl _

section Create

theorem Live.create [DecidableEq κ] (hp : m.Live p) : ((Op.create q c d).run m).Live p := by
  simp only [Live, Op.run, Function.update_apply]
  split
  · rfl
  · exact hp

open Classical in
theorem Rooted.create (h : m.Rooted root) (hp : m.Live p) (hc : ¬ m.Live c) :
    Rooted root { m with info := Function.update m.info c (some ⟨some p, d⟩) } := by
  let m' : Processes α κ δ := { m with info := Function.update m.info c (some ⟨some p, d⟩) }
  change m'.Rooted root
  have hinv : ∀ q, q ≠ c → m'.info q = m.info q := fun q hq => Function.update_of_ne hq ..
  have hkeep : ∀ q, m.Live q → m'.info q = m.info q := fun q hq =>
    hinv q fun he : q = c => hc (he ▸ hq)
  have hchild : ∀ a b, m.Child a b → m'.Child a b := fun a b hab => by
    rw [Child, hkeep b hab.live]
    exact hab
  have hself : m'.info c = some ⟨some p, d⟩ := Function.update_self c _ m.info
  have hlive : ∀ q, m.Live q → m'.Live q := fun q hq => by
    rw [Live, hkeep q hq]
    exact hq
  refine ⟨fun q hq => ?_, fun a b hab => ?_⟩
  · by_cases hqc : q = c
    · rw [hqc]
      exact ((h.family p hp).mono hchild).tail ⟨d, hself⟩
    · rw [Live, hinv q hqc] at hq
      exact (h.family q hq).mono hchild
  · by_cases hb : b = c
    · obtain ⟨d', hd'⟩ := hab
      rw [hb, hself, Option.some.injEq, Info.mk.injEq, Option.some.injEq] at hd'
      exact hlive a (hd'.1 ▸ hp)
    · rw [Child, hinv b hb] at hab
      exact hlive a (h.parent a b hab)

theorem Sound.create [DecidableEq κ] (h : m.Sound root) (hp : m.Live p) (hc : ¬ m.Live c) :
    ((Op.create p c d).run m).Sound root where
  toRooted := h.toRooted.create hp hc
  live q x hq := (h.live q x hq).create
  nodup := h.nodup
  unique := h.unique

end Create

section Kill

theorem live_kill : (m.kill p).Live q ↔ m.Live q ∧ ¬ m.Below p q := by
  simp only [Live, kill]
  split <;> simp [*]

theorem child_kill {a b : α} : (m.kill p).Child a b ↔ m.Child a b ∧ ¬ m.Below p b := by
  simp only [Child, kill]
  split <;> simp [*]

theorem waits_kill : (m.kill p).Waits q x ↔ m.Waits q x ∧ ¬ m.Below p q := by
  simp [Waits, kill]

/-- Who is not below `p` has no ancestor below `p`. -/
theorem Rooted.kill (h : m.Rooted root) (p : α) : (m.kill p).Rooted root where
  family q hq := by
    obtain ⟨hl, hn⟩ := live_kill.mp hq
    have hpath := h.family q hl
    clear hl hq
    induction hpath with
    | refl => exact .refl
    | @tail b c hb hc ih =>
        have hnb : ¬ m.Below p b := fun hpb => hn (hpb.tail hc)
        exact (ih hnb).tail (child_kill.mpr ⟨hc, hn⟩)
  parent a b hab := by
    obtain ⟨hc, hn⟩ := child_kill.mp hab
    exact live_kill.mpr ⟨h.parent a b hc, fun ha => hn (ha.tail hc)⟩

theorem Sound.kill (h : m.Sound root) (p : α) : (m.kill p).Sound root where
  toRooted := h.toRooted.kill p
  live q x hq := by
    obtain ⟨hw, hn⟩ := waits_kill.mp hq
    exact live_kill.mpr ⟨h.live q x hw, hn⟩
  nodup x := (h.nodup x).filter _
  unique q x y hx hy := h.unique q x y (waits_kill.mp hx).1 (waits_kill.mp hy).1

end Kill

section Modify
variable [DecidableEq κ] {f : Semaphore α → Semaphore α}

@[simp] theorem modify_self : (m.modify x f).sem x = f (m.sem x) := Function.update_self ..

theorem modify_of_ne {y : κ} (h : y ≠ x) : (m.modify x f).sem y = m.sem y :=
  Function.update_of_ne h ..

theorem waits_modify {y : κ} : (m.modify x f).Waits q y ↔
    if y = x then q ∈ (f (m.sem x)).queue else m.Waits q y := by
  by_cases h : y = x
  · rw [if_pos h, h, Waits, modify_self]
  · rw [if_neg h, Waits, modify_of_ne h]
    rfl

theorem Sound.modify_shrink (h : m.Sound root)
    (hf : (f (m.sem x)).queue.Sublist (m.sem x).queue) : (m.modify x f).Sound root := by
  refine h.shrink rfl fun y => ?_
  by_cases hy : y = x
  · rw [hy, modify_self]
    exact hf
  · rw [modify_of_ne hy]

/-- A runnable process queues up. -/
theorem Sound.enqueue (h : m.Sound root) (hp : m.Runnable p)
    (hf : (f (m.sem x)).queue = (m.sem x).queue ++ [p]) : (m.modify x f).Sound root := by
  have hw : ∀ q y, (m.modify x f).Waits q y → m.Waits q y ∨ q = p ∧ y = x := by
    intro q y hq
    rw [waits_modify] at hq
    split at hq
    · next hy =>
      rw [hf, List.mem_append, List.mem_singleton] at hq
      exact hq.imp (fun hq => hy ▸ hq) fun hq => ⟨hq, hy⟩
    · exact .inl hq
  refine ⟨h.toRooted.congr rfl, fun q y hq => ?_, fun y => ?_, fun q y z hy hz => ?_⟩
  · obtain hq | ⟨rfl, -⟩ := hw q y hq
    · exact h.live q y hq
    · exact hp.1
  · by_cases hy : y = x
    · rw [hy, modify_self, hf]
      exact (h.nodup x).append (List.nodup_singleton p)
        (List.disjoint_singleton.mpr (hp.2 x))
    · rw [modify_of_ne hy]
      exact h.nodup y
  · rcases hw q y hy with hy' | ⟨rfl, rfl⟩ <;> rcases hw q z hz with hz' | ⟨hqp, rfl⟩
    · exact h.unique q y z hy' hz'
    · exact absurd (hqp ▸ hy') (hp.2 y)
    · exact absurd hz' (hp.2 z)
    · rfl

theorem Sound.passeren (h : m.Sound root) (hp : m.Runnable p) :
    (m.modify x (·.passeren p)).Sound root := by
  by_cases hv : 0 < (m.sem x).value
  · exact h.modify_shrink (by rw [Semaphore.passeren, if_pos hv])
  · exact h.enqueue hp (by rw [Semaphore.passeren, if_neg hv])

/-- Every allowed operation keeps the processes sound. -/
theorem Sound.run {o : Op α κ δ} (h : m.Sound root) (ho : o.Allowed m) :
    (o.run m).Sound root := by
  cases o with
  | none => exact h
  | create p c d => exact h.create ho.1 ho.2
  | kill p => exact h.kill p
  | passeren p x => exact h.passeren ho
  | verhogen x =>
      refine h.modify_shrink ?_
      rw [Semaphore.queue_verhogen]
      exact List.tail_sublist _
  | wait p x => exact h.enqueue ho rfl
  | release x => exact h.modify_shrink (List.nil_sublist _)

end Modify
end Facts
end Processes

/-- The processes and the one on the processor. -/
structure Machine (α κ δ : Type*) extends Processes α κ δ where
  running : Option α

namespace Machine
variable {α κ δ : Type*}

/-- A runnable process runs, unless there is none. -/
structure Scheduled (m : Machine α κ δ) : Prop where
  runnable : ∀ p, m.running = some p → m.Runnable p
  idle : m.running = none → ∀ p, ¬ m.Runnable p

/-- No runnable process has a higher priority than the one that runs, except for `aside`. -/
def ByPriority (prio : δ → ℤ) (aside : Option α) (m : Machine α κ δ) : Prop :=
  ∀ p q f g, m.running = some p → m.info p = some f → m.Runnable q → m.info q = some g →
    aside ≠ some q → prio g.data ≤ prio f.data

end Machine

end PandOSsh.Library
