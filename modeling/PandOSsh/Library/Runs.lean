import Mathlib

/-!
# Runs of labelled transition systems

Reachable states, the rule that proves an invariant of them, restriction of a
system to the steps that meet a condition, history variables, and the
simulation that carries reachability from one system to another.
-/

namespace PandOSsh.Library

/-- Initial states and labelled steps. -/
structure System (σ ε : Type*) where
  init : σ → Prop
  step : σ → ε → σ → Prop

namespace System
variable {σ τ ε γ : Type*} {S : System σ ε} {T : System τ ε}

inductive Reachable (S : System σ ε) : σ → Prop
  | init {s : σ} : S.init s → S.Reachable s
  | step {s s' : σ} {e : ε} : S.Reachable s → S.step s e s' → S.Reachable s'

/-- What holds initially and is preserved from reachable states holds of every
reachable state. -/
theorem Reachable.invariant {I : σ → Prop} {s : σ} (h : S.Reachable s)
    (hinit : ∀ s, S.init s → I s)
    (hstep : ∀ s e s', S.Reachable s → I s → S.step s e s' → I s') : I s := by
  induction h with
  | init hs => exact hinit _ hs
  | step hr hs ih => exact hstep _ _ _ hr ih hs

/-- The runs all of whose steps meet `P`. -/
def restrict (S : System σ ε) (P : σ → ε → Prop) : System σ ε where
  init := S.init
  step s e s' := P s e ∧ S.step s e s'

theorem Reachable.of_restrict {P : σ → ε → Prop} {s : σ}
    (h : (S.restrict P).Reachable s) : S.Reachable s := by
  induction h with
  | init hs => exact .init hs
  | step _ hs ih => exact .step ih hs.2

theorem Reachable.restrict_true {s : σ} (h : S.Reachable s) :
    (S.restrict fun _ _ => True).Reachable s := by
  induction h with
  | init hs => exact .init hs
  | step _ hs ih => exact .step ih ⟨trivial, hs⟩

theorem Reachable.restrict_mono {P P' : σ → ε → Prop} {s : σ} (hP : ∀ s e, P s e → P' s e)
    (h : (S.restrict P).Reachable s) : (S.restrict P').Reachable s := by
  induction h with
  | init hs => exact .init hs
  | step _ hs ih => exact .step ih ⟨hP _ _ hs.1, hs.2⟩

theorem Reachable.restrict_restrict {P Q : σ → ε → Prop} {s : σ}
    (h : (S.restrict fun s e => P s e ∧ Q s e).Reachable s) :
    ((S.restrict P).restrict Q).Reachable s := by
  induction h with
  | init hs => exact .init hs
  | step _ hs ih => exact .step ih ⟨hs.1.2, hs.1.1, hs.2⟩

theorem Reachable.restrict_and {P Q : σ → ε → Prop} {s : σ}
    (h : ((S.restrict P).restrict Q).Reachable s) :
    (S.restrict fun s e => P s e ∧ Q s e).Reachable s := by
  induction h with
  | init hs => exact .init hs
  | step _ hs ih => exact .step ih ⟨⟨hs.2.1, hs.1⟩, hs.2.2⟩

/-- A variable that records the past of a run without influencing it. -/
def withHistory (S : System σ ε) (start : σ → γ) (record : σ → ε → σ → γ → γ) :
    System (σ × γ) ε where
  init x := S.init x.1 ∧ x.2 = start x.1
  step x e x' := S.step x.1 e x'.1 ∧ x'.2 = record x.1 e x'.1 x.2

theorem Reachable.fst {start : σ → γ} {record : σ → ε → σ → γ → γ} {x : σ × γ}
    (h : (S.withHistory start record).Reachable x) : S.Reachable x.1 := by
  induction h with
  | init hs => exact .init hs.1
  | step _ hs ih => exact .step ih hs.1

/-- Every reachable state has a history. -/
theorem Reachable.exists_history {start : σ → γ} {record : σ → ε → σ → γ → γ} {s : σ}
    (h : S.Reachable s) : ∃ g, (S.withHistory start record).Reachable (s, g) := by
  induction h with
  | init hs => exact ⟨start _, .init ⟨hs, rfl⟩⟩
  | @step s s' e _ hs ih =>
      obtain ⟨g, hg⟩ := ih
      exact ⟨record s e s' g, .step hg ⟨hs, rfl⟩⟩

theorem Reachable.history_of_restrict {start : σ → γ} {record : σ → ε → σ → γ → γ}
    {P : σ → ε → Prop} {x : σ × γ} (h : ((S.restrict P).withHistory start record).Reachable x) :
    (S.withHistory start record).Reachable x := by
  induction h with
  | init hs => exact .init hs
  | step _ hs ih => exact .step ih ⟨hs.1.2, hs.2⟩

theorem Reachable.history_mono {start : σ → γ} {record : σ → ε → σ → γ → γ}
    {P P' : σ → ε → Prop} {x : σ × γ} (hP : ∀ s e, P s e → P' s e)
    (h : ((S.restrict P).withHistory start record).Reachable x) :
    ((S.restrict P').withHistory start record).Reachable x := by
  induction h with
  | init hs => exact .init hs
  | step _ hs ih => exact .step ih ⟨⟨hP _ _ hs.1.1, hs.1.2⟩, hs.2⟩

/-- Two systems that step together, under the same labels. -/
def lockstep (S : System σ ε) (T : System τ ε) : System (σ × τ) ε where
  init x := S.init x.1 ∧ T.init x.2
  step x e x' := S.step x.1 e x'.1 ∧ T.step x.2 e x'.2

/-- Every step of `S` from related states is matched by `T`. -/
structure Refines (S : System σ ε) (T : System τ ε) (R : σ → τ → Prop) : Prop where
  init : ∀ {s}, S.init s → ∃ t, T.init t ∧ R s t
  step : ∀ {s t e s'}, T.Reachable t → R s t → S.step s e s' → ∃ t', T.step t e t' ∧ R s' t'

theorem Refines.reachable {R : σ → τ → Prop} (h : Refines S T R) {s : σ}
    (hs : S.Reachable s) : ∃ t, T.Reachable t ∧ R s t := by
  induction hs with
  | init hi =>
      obtain ⟨t, ht, hr⟩ := h.init hi
      exact ⟨t, .init ht, hr⟩
  | step _ hs ih =>
      obtain ⟨t, ht, hr⟩ := ih
      obtain ⟨t', ht', hr'⟩ := h.step ht hr hs
      exact ⟨t', .step ht ht', hr'⟩

theorem Refines.restrict {R : σ → τ → Prop} (h : Refines S T R) {P : σ → ε → Prop}
    {P' : τ → ε → Prop} (hP : ∀ {s t e}, R s t → P s e → P' t e) :
    Refines (S.restrict P) (T.restrict P') R where
  init hs := h.init hs
  step ht hr hs := by
    obtain ⟨t', ht', hr'⟩ := h.step ht.of_restrict hr hs.2
    exact ⟨t', ⟨hP hr hs.1, ht'⟩, hr'⟩

/-- Histories that the two systems record alike are kept by a refinement. -/
theorem Refines.withHistory {R : σ → τ → Prop} (h : Refines S T R) {start : σ → γ}
    {start' : τ → γ} {record : σ → ε → σ → γ → γ} {record' : τ → ε → τ → γ → γ}
    (hstart : ∀ {s t}, T.init t → R s t → start s = start' t)
    (hrec : ∀ {s t e s' t' g}, T.Reachable t → R s t → R s' t' →
      record s e s' g = record' t e t' g) :
    Refines (S.withHistory start record) (T.withHistory start' record')
      (fun x y => R x.1 y.1 ∧ x.2 = y.2) where
  init {x} hx := by
    obtain ⟨t, ht, hr⟩ := h.init hx.1
    exact ⟨(t, start' t), ⟨ht, rfl⟩, hr, hx.2.trans (hstart ht hr)⟩
  step {x y e x'} hy hr hs := by
    obtain ⟨t', ht', hr'⟩ := h.step hy.fst hr.1 hs.1
    refine ⟨(t', record' y.1 e t' y.2), ⟨ht', rfl⟩, hr', ?_⟩
    rw [hs.2, hr.2, hrec hy.fst hr.1 hr']

end System
end PandOSsh.Library
