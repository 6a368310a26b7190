import PandOSsh.SupportLevel.Exclusion
import PandOSsh.SupportLevel.Terminals

/-!
# EXECUTE (syscalls.c, initProc.c)

The shell creates a child, then does a P on `shellSemaphore`; the child does the V
in `sys2`. From the start of `test`, at most one child has not yet done its V,
and the children do it in the order in which they were created.
-/

namespace PandOSsh.SupportLevel
open Library

/-- The children of the shell, who did a V on `shellSemaphore`, and how many calls of
EXECUTE have returned. -/
structure ExecLog where
  children : List ℕ
  signals : List ℕ
  returns : ℕ

def ExecLog.empty : ExecLog := ⟨[], [], 0⟩

/-- The U-procs that `sys6` creates, the V's, and the P's that are completed. -/
def ExecLog.record (s : State) (e : Event) (h : ExecLog) : ExecLog where
  children :=
    match s.service e with
    | .create _ true => if (s.uproc e.1).isSome then h.children ++ [s.nextPid] else h.children
    | _ => h.children
  signals := if s.service e = .verhogen .shellSemaphore then h.signals ++ [e.1] else h.signals
  returns := h.returns + (s.granted .shellSemaphore e).toList.length

/-- The runs of the Phase 3 system from the start of `test`. -/
def execRuns : System (State × ExecLog) Event :=
  (system Boot).withHistory (fun _ => .empty) fun s e _ h => h.record s e

/-- The children that end, and the calls of EXECUTE that return, do so in the order of
their creation, each call after the V of its child. -/
structure Synchronous (s : State) (h : ExecLog) : Prop where
  order : h.signals <+: h.children
  once : h.signals.Nodup
  ended : ∀ p ∈ h.children, s.proc p = none ∨ (∃ a, s.uproc p = some (a, .sys2 .term)) →
    p ∈ h.signals
  returns : h.returns ≤ h.signals.length
  zero : ∀ p code, s.uproc p = some (shellIdx, .run code) → ¬ s.Blocked p →
    (s.sem .shellSemaphore).value = 0

namespace Control

/-- `sys2` has done its V on the semaphore of the parent. -/
def signalled : Control → Bool
  | sys2 pt =>
      match pt with
      | .passeren | .sweep | .verhogen | .term => true
      | .checkFlag | .releaseMutex | .signal => false
  | run _ | pager _ _ _ | sys6 _ _ => false

/-- `sys6` has created the child and is about to do its P. -/
def asking : Control → Bool
  | sys6 _ .passeren => true
  | _ => false

end Control

/-- The statements of `test` before the shell exists. -/
def TestPoint.early : TestPoint → Bool
  | .passeren | .term => false
  | .initSemaphores | .initSwapPool | .init | .create | .panic => true

/-- The Instantiator, the shell and its children, by PID. -/
inductive Place (nextPid : ℕ) : ℕ → Proc → Prop
  | test {pt : TestPoint} (h : pt.early = true ↔ nextPid = 2) : Place nextPid 1 ⟨0, .test pt⟩
  | shell {c : Control} (h : ∀ child pt, c = .sys6 child pt → child ≠ shellIdx) :
      Place nextPid 2 ⟨1, .uproc shellIdx c⟩
  | child {p : ℕ} {a : Asid} {c : Control} (hp : 3 ≤ p) (ha : a ≠ shellIdx)
      (h : ∀ child pt, c ≠ .sys6 child pt) : Place nextPid p ⟨2, .uproc a c⟩

namespace State

/-- The shell has created a child and is about to do its P. -/
def asking (s : State) : ℕ := ((s.uproc 2).any fun r => r.2.asking).toNat

/-- The V of the shell on `masterSemaphore` is still to come. -/
def Early (s : State) : Prop :=
  s.nextPid = 2 ∨ ∃ a c, s.uproc 2 = some (a, c) ∧ c.signalled = false

end State

/-- What holds in every run of the system. -/
structure Sync (s : State) (h : ExecLog) : Prop where
  bound : ∀ p r, s.proc p = some r → p < s.nextPid
  place : ∀ p r, s.proc p = some r → Place s.nextPid p r
  count : s.nextPid = 2 ∧ h.children = [] ∨ s.nextPid = 3 + h.children.length
  children : h.children = List.range' 3 h.children.length
  signals : h.signals = List.range' 3 h.signals.length
  le : h.signals.length ≤ h.children.length
  le_succ : h.children.length ≤ h.signals.length + 1
  signalled : ∀ p a c, s.uproc p = some (a, c) → 3 ≤ p →
    (c.signalled = true ↔ p < 3 + h.signals.length)
  alive : ∀ p, 3 + h.signals.length ≤ p → p < s.nextPid → ∃ a c, s.uproc p = some (a, c)
  sane : (s.sem .shellSemaphore).Sane
  nodup : (s.sem .shellSemaphore).queue.Nodup
  queue : ∀ q ∈ (s.sem .shellSemaphore).queue, q = 2 ∧ s.uproc 2 = some (shellIdx, .run .user)
  balance : (s.sem .shellSemaphore).balance + h.children.length = h.signals.length + s.asking
  returns : h.returns + (s.sem .shellSemaphore).queue.length + s.asking = h.children.length
  master : s.Early → (s.sem .masterSemaphore).value = 0 ∧
    ∀ parent, s.proc 1 = some ⟨parent, .test .term⟩ → 1 ∈ (s.sem .masterSemaphore).queue

namespace Sync
variable {s : State} {h : ExecLog} {p q : ℕ} {a : Asid} {c d : Control} {parent : ℕ}

theorem fresh (hs : Sync s h) : s.proc s.nextPid = none := by
  cases hp : s.proc s.nextPid with
  | none => rfl
  | some r => exact absurd (hs.bound _ _ hp) (lt_irrefl _)

/-- While the shell neither waits nor is about to, nobody owes a V. -/
theorem idle (hs : Sync s h) (ha : s.asking = 0) (hq : 2 ∉ (s.sem .shellSemaphore).queue) :
    (s.sem .shellSemaphore).queue = [] ∧ (s.sem .shellSemaphore).value = 0 ∧
      h.signals.length = h.children.length := by
  have hnil : (s.sem .shellSemaphore).queue = [] := by
    rw [List.eq_nil_iff_forall_not_mem]
    intro q hmem
    exact hq ((hs.queue q hmem).1 ▸ hmem)
  have hbal := hs.balance
  rw [Semaphore.balance, hnil, ha, List.length_nil] at hbal
  have hnonneg := hs.sane.nonneg
  have hle := hs.le
  refine ⟨hnil, ?_, ?_⟩
  · omega
  · omega

theorem mem_children (hs : Sync s h) (hp : p ∈ h.children) : 3 ≤ p ∧ p < s.nextPid := by
  rcases hs.count with ⟨_, hnil⟩ | hn
  · rw [hnil] at hp
    exact absurd hp List.not_mem_nil
  · rw [hs.children, List.mem_range'_1] at hp
    omega

theorem mem_signals (hs : Sync s h) (h3 : 3 ≤ p) (hp : p < 3 + h.signals.length) :
    p ∈ h.signals := by
  rw [hs.signals, List.mem_range'_1]
  exact ⟨h3, hp⟩

/-- The shell is the only U-proc with its ASID. -/
theorem eq_two (hs : Sync s h) (hp : s.uproc p = some (shellIdx, c)) : p = 2 := by
  obtain ⟨parent, hproc⟩ := State.uproc_eq_some.mp hp
  cases hs.place p _ hproc with
  | shell => rfl
  | child _ ha => exact absurd rfl ha

theorem ge_two (hs : Sync s h) (hp : s.uproc p = some (a, c)) : p = 2 ∨ 3 ≤ p := by
  obtain ⟨parent, hproc⟩ := State.uproc_eq_some.mp hp
  cases hs.place p _ hproc with
  | shell => exact .inl rfl
  | child h3 => exact .inr h3

/-- Only the last child can still owe its V. -/
theorem last (hs : Sync s h) (hp : s.uproc p = some (a, c)) (h3 : 3 ≤ p)
    (hc : c.signalled = false) :
    p = 3 + h.signals.length ∧ h.children.length = h.signals.length + 1 := by
  obtain ⟨parent, hproc⟩ := State.uproc_eq_some.mp hp
  have hlt := hs.bound _ _ hproc
  have hle := hs.le_succ
  have hge : 3 + h.signals.length ≤ p := by
    by_contra hlt'
    have hsig := (hs.signalled p a c hp h3).mpr (by omega)
    rw [hsig] at hc
    exact absurd hc (by decide)
  rcases hs.count with ⟨hn, _⟩ | hn
  · omega
  · omega

/-- Of the U-procs with one ASID, one at most owes its V. -/
theorem owing_unique (hs : Sync s h) (hp : s.uproc p = some (a, c)) (hc : c.signalled = false)
    (hq : s.uproc q = some (a, d)) (hd : d.signalled = false) : p = q := by
  obtain ⟨parent, hp'⟩ := State.uproc_eq_some.mp hp
  obtain ⟨parent', hq'⟩ := State.uproc_eq_some.mp hq
  cases hs.place p _ hp' with
  | shell => exact (hs.eq_two hq).symm
  | child h3 ha =>
      cases hs.place q _ hq' with
      | shell => exact absurd rfl ha
      | child h3' => exact (hs.last hp h3 hc).1.trans (hs.last hq h3' hd).1.symm

/-- `test` goes on after its P when the shell has done its V. -/
theorem not_early (hs : Sync s h) (hp : s.proc p = some ⟨parent, .test .term⟩)
    (hb : ¬ s.Blocked p) : ¬ s.Early := by
  intro he
  cases hs.place _ _ hp
  exact hb ⟨_, (hs.master he).2 _ hp⟩

theorem signalled_of_not_early (he : ¬ s.Early) (hp : s.uproc 2 = some (a, c)) :
    c.signalled = true := by
  by_contra hne
  exact he (.inr ⟨a, c, hp, by simpa using hne⟩)

/-- The shell past its V neither waits for a child nor is about to. -/
theorem idle_of_not_early (hs : Sync s h) (he : ¬ s.Early) :
    s.asking = 0 ∧ 2 ∉ (s.sem .shellSemaphore).queue := by
  constructor
  · rw [State.asking]
    cases hu : s.uproc 2 with
    | none => rfl
    | some r =>
        have hr := signalled_of_not_early he hu
        cases hc : r.2 with
        | run | pager | sys6 =>
            rw [hc] at hr
            exact absurd hr (by simp [Control.signalled])
        | sys2 =>
            rw [Option.any_some, hc]
            rfl
  · intro hq
    exact absurd (signalled_of_not_early he (hs.queue 2 hq).2) (by decide)

theorem synchronous (hs : Sync s h) : Synchronous s h := by
  constructor
  · rw [hs.signals, hs.children]
    obtain ⟨n, hn⟩ := Nat.exists_eq_add_of_le hs.le
    rw [hn, List.range'_append_1.symm]
    exact List.prefix_append ..
  · rw [hs.signals]
    exact List.nodup_range'
  · intro p hp hend
    obtain ⟨h3, hlt⟩ := hs.mem_children hp
    by_contra hnot
    have hge : 3 + h.signals.length ≤ p := by
      by_contra hlt'
      exact hnot (hs.mem_signals h3 (by omega))
    obtain ⟨a, c, hu⟩ := hs.alive p hge hlt
    rcases hend with hdead | ⟨b, hterm⟩
    · rw [State.uproc, hdead] at hu
      exact absurd hu (by simp)
    · have hsig := (hs.signalled p b _ hterm h3).mp rfl
      omega
  · have hbal := hs.balance
    have hret := hs.returns
    have hnonneg := hs.sane.nonneg
    rw [Semaphore.balance] at hbal
    omega
  · intro p code hu hb
    obtain rfl := hs.eq_two hu
    have hask : s.asking = 0 := by
      rw [State.asking, hu]
      rfl
    exact (hs.idle hask fun hm => hb ⟨_, hm⟩).2.1

end Sync

/-- Requests that leave the processes, `shellSemaphore` and `masterSemaphore` alone. -/
def Service.quiet : Service → Bool
  | .none | .create _ false => true
  | .passeren x | .verhogen x => x != .shellSemaphore && x != .masterSemaphore
  | .initSemaphores | .create _ true | .term => false

/-- A step of a U-proc, with respect to EXECUTE. -/
inductive Turn (a : Asid) : Control → Control → Service → Prop
  | plain {c c' : Control} {svc : Service} (hq : svc.quiet = true)
      (hs : c'.signalled = c.signalled) (ha : c.asking = false) (ha' : c'.asking = false)
      (h : ∀ child pt, c' = .sys6 child pt →
        a = shellIdx ∧ child ≠ shellIdx ∨ ∃ pt', c = .sys6 child pt') : Turn a c c' svc
  | create {child : Asid} :
      Turn a (.sys6 child .create) (.sys6 child .passeren) (.create child true)
  | ask {child : Asid} :
      Turn a (.sys6 child .passeren) (.run .user) (.passeren .shellSemaphore)
  | signal : Turn a (.sys2 .signal) (.sys2 .passeren)
      (.verhogen (if a.num = shellAsid then .masterSemaphore else .shellSemaphore))
  | term : Turn a (.sys2 .term) (.sys2 .term) .term

theorem eq_shellIdx {a : Asid} (h : a.num = shellAsid) : a = shellIdx := num_injective h

theorem Moves.turn {a : Asid} {vm vm' : Vm} {c c' : Control} {inp : Input} {svc : Service}
    (h : Moves a vm c inp c' vm' svc) : Turn a c c' svc := by
  cases h with
  | create => exact .create
  | sys6Passeren => exact .ask
  | signal => exact .signal
  | term => exact .term
  | execute ha hc =>
      refine .plain (by rfl) (by rfl) (by rfl) (by rfl) fun child pt he => ?_
      cases he
      exact .inl ⟨eq_shellIdx ha, fun he => hc (by rw [he]; rfl)⟩
  | init =>
      refine .plain (by rfl) (by rfl) (by rfl) (by rfl) fun child pt he => ?_
      cases he
      exact .inr ⟨_, rfl⟩
  | @codePasseren code code' x hx | @codeVerhogen code code' x hx =>
      apply Turn.plain
      · simp [Service.quiet, hx.2.1, hx.2.2]
      · rfl
      · rfl
      · rfl
      · intro child pt he
        cases he
  | code | store | refill | fault | trap | terminate | terminal | cause | causeMod | passeren |
    setFlag | choose | evictFree | evict | write | read | readFailed | clearFlagFailed |
    verhogenFailed | record | install | clearFlag | verhogen | checkHeld | check | releaseMutex |
    sys2Passeren | sweep | sys2Verhogen | createFailed =>
      refine .plain (by rfl) (by rfl) (by rfl) (by rfl) fun child pt he => ?_
      cases he

theorem TestMoves.of_term {vm vm' : Vm} {inp : Input} {pt pt' : TestPoint}
    (h : TestMoves vm pt inp pt' vm' .term) :
    pt = .term := by
  cases h
  rfl

section Effects
variable {s s' : State} {h : ExecLog} {p q : ℕ} {a : Asid} {c' : Control} {vm : Vm} {svc : Service}
  {parent : ℕ} {r r₀ r' : Proc}

/-- The process p has moved, and no other. -/
structure Moved (s s' : State) (p : ℕ) (r' : Proc) : Prop where
  self : s'.proc p = some r'
  other : ∀ q, q ≠ p → s'.proc q = s.proc q
  nextPid : s'.nextPid = s.nextPid

theorem moved (h1 : ∀ b, svc ≠ .create b true) (h2 : svc ≠ .term) :
    Moved s ((s.move p r' vm).serve p svc) p r' := by
  have hproc : ((s.move p r' vm).serve p svc).proc = (s.move p r' vm).proc :=
    State.serve_proc h1 h2
  constructor
  · rw [congrFun hproc p, State.move_self]
  · intro q hq
    rw [congrFun hproc q, State.move_of_ne hq]
  · cases svc with
    | create b ok =>
        cases ok
        · rfl
        · exact absurd rfl (h1 b)
    | none | initSemaphores | passeren | verhogen | term => rfl

namespace Moved

theorem uproc_self (hm : Moved s s' p ⟨parent, .uproc a c'⟩) : s'.uproc p = some (a, c') :=
  State.uproc_of_proc hm.self

theorem uproc_other (hm : Moved s s' p r') (hq : q ≠ p) : s'.uproc q = s.uproc q :=
  uproc_congr (hm.other q hq)

theorem place (hm : Moved s s' p r') (hs : Sync s h) (hp : Place s.nextPid p r') (q : ℕ) (r : Proc)
    (hq : s'.proc q = some r) : Place s.nextPid q r := by
  by_cases hqp : q = p
  · subst hqp
    rw [hm.self, Option.some.injEq] at hq
    exact hq ▸ hp
  · rw [hm.other q hqp] at hq
    exact hs.place q r hq

theorem bound (hm : Moved s s' p r') (hs : Sync s h) (hp : p < s.nextPid) (q : ℕ) (r : Proc)
    (hq : s'.proc q = some r) : q < s.nextPid := by
  by_cases hqp : q = p
  · exact hqp ▸ hp
  · rw [hm.other q hqp] at hq
    exact hs.bound q r hq

end Moved

/-- The process p has moved and has created a process. -/
structure Created (s s' : State) (p : ℕ) (r' r : Proc) : Prop where
  self : s'.proc p = some r'
  new : s'.proc s.nextPid = some r
  other : ∀ q, q ≠ p → q ≠ s.nextPid → s'.proc q = s.proc q
  nextPid : s'.nextPid = s.nextPid + 1
  sem : s'.sem = s.sem

theorem created (hp : p < s.nextPid) :
    Created s ((s.move p r' vm).serve p (.create a true)) p r' ⟨p, .uproc a (.run .user)⟩ where
  self := State.proc_self (Nat.ne_of_lt hp) (by simp)
  new := Function.update_self ..
  other _ hq hqn := State.proc_keep hqn hq (by simp)
  nextPid := rfl
  sem := rfl

namespace Created

theorem of_proc (hc : Created s s' p r' r) (hq : s'.proc q = some r₀) :
    q = p ∧ r₀ = r' ∨ q = s.nextPid ∧ r₀ = r ∨ q ≠ p ∧ s.proc q = some r₀ := by
  by_cases hqp : q = p
  · rw [hqp, hc.self, Option.some.injEq] at hq
    exact .inl ⟨hqp, hq.symm⟩
  · by_cases hqn : q = s.nextPid
    · rw [hqn, hc.new, Option.some.injEq] at hq
      exact .inr (.inl ⟨hqn, hq.symm⟩)
    · rw [hc.other q hqp hqn] at hq
      exact .inr (.inr ⟨hqp, hq⟩)

theorem bound (hc : Created s s' p r' r) (hs : Sync s h) (hp : p < s.nextPid) (q : ℕ) (r₀ : Proc)
    (hq : s'.proc q = some r₀) : q < s'.nextPid := by
  rw [hc.nextPid]
  rcases hc.of_proc hq with ⟨rfl, _⟩ | ⟨rfl, _⟩ | ⟨_, hq⟩
  · omega
  · omega
  · have hlt := hs.bound q r₀ hq
    omega

end Created

end Effects

namespace Sync
variable {s s' : State} {h : ExecLog} {p q : ℕ} {a : Asid} {c c' : Control} {inp : Input} {vm : Vm}
  {svc : Service} {parent : ℕ} {r₀ r' : Proc}

theorem record_of_ne (hsvc : s.service (p, inp) = svc) (h1 : svc ≠ .passeren .shellSemaphore)
    (h2 : svc ≠ .verhogen .shellSemaphore) (h3 : ∀ b, svc ≠ .create b true) :
    h.record s (p, inp) = h := by
  rw [ExecLog.record, State.granted_none hsvc h1 h2, hsvc, if_neg h2]
  cases svc with
  | create b ok =>
      cases ok
      · rfl
      · exact absurd rfl (h3 b)
  | none | initSemaphores | passeren | verhogen | term => rfl

/-- Steps that touch neither the two semaphores nor what the U-procs have signalled. -/
theorem congr (hs : Sync s h) (hn : s'.nextPid = s.nextPid)
    (hshell : s'.sem .shellSemaphore = s.sem .shellSemaphore)
    (hproc : ∀ p r, s'.proc p = some r → p < s.nextPid ∧ Place s.nextPid p r)
    (hu : ∀ p a c, s'.uproc p = some (a, c) → 3 ≤ p →
      ∃ c₀, s.uproc p = some (a, c₀) ∧ c.signalled = c₀.signalled)
    (hu' : ∀ p a c, s.uproc p = some (a, c) → 3 + h.signals.length ≤ p →
      ∃ c', s'.uproc p = some (a, c'))
    (hask : s'.asking = s.asking)
    (hqueue : 2 ∈ (s.sem .shellSemaphore).queue → s'.uproc 2 = s.uproc 2)
    (hmaster : s'.Early → (s'.sem .masterSemaphore).value = 0 ∧
      ∀ parent, s'.proc 1 = some ⟨parent, .test .term⟩ →
        1 ∈ (s'.sem .masterSemaphore).queue) : Sync s' h where
  bound p r hp := hn ▸ (hproc p r hp).1
  place p r hp := hn ▸ (hproc p r hp).2
  count := hn ▸ hs.count
  children := hs.children
  signals := hs.signals
  le := hs.le
  le_succ := hs.le_succ
  signalled p a c hp h3 := by
    obtain ⟨c₀, hp₀, hc⟩ := hu p a c hp h3
    rw [hc]
    exact hs.signalled p a c₀ hp₀ h3
  alive p hge hlt := by
    obtain ⟨a, c, hp⟩ := hs.alive p hge (hn ▸ hlt)
    obtain ⟨c', hp'⟩ := hu' p a c hp hge
    exact ⟨a, c', hp'⟩
  sane := hshell ▸ hs.sane
  nodup := hshell ▸ hs.nodup
  queue q hq := by
    rw [hshell] at hq
    obtain ⟨rfl, hu₂⟩ := hs.queue q hq
    exact ⟨rfl, (hqueue hq).trans hu₂⟩
  balance := by
    rw [hshell, hask]
    exact hs.balance
  returns := by
    rw [hshell, hask]
    exact hs.returns
  master := hmaster

theorem asking_congr (h : s'.uproc 2 = s.uproc 2) : s'.asking = s.asking := by
  rw [State.asking, h, State.asking]

theorem early_congr (hn : s'.nextPid = s.nextPid) (h : s'.uproc 2 = s.uproc 2) :
    s'.Early ↔ s.Early := by
  rw [State.Early, hn, h, State.Early]

theorem ne_of_quiet {svc svc₀ : Service} (hq : svc.quiet = true) (h₀ : svc₀.quiet = false) :
    svc ≠ svc₀ := by
  rintro rfl
  rw [hq] at h₀
  exact absurd h₀ (by decide)

theorem place_next (h : Place s.nextPid p ⟨parent, .uproc a c⟩)
    (hc : ∀ child pt, c' = .sys6 child pt →
      a = shellIdx ∧ child ≠ shellIdx ∨ ∃ pt', c = .sys6 child pt') :
    Place s.nextPid p ⟨parent, .uproc a c'⟩ := by
  cases h with
  | shell h =>
      apply Place.shell
      intro child pt he
      rcases hc child pt he with ⟨_, hne⟩ | ⟨pt', he'⟩
      · exact hne
      · exact h child pt' he'
  | child hp ha h =>
      apply Place.child hp ha
      rintro child pt he
      rcases hc child pt he with ⟨he', _⟩ | ⟨pt', he'⟩
      · exact ha he'
      · exact h child pt' he'

/-- A U-proc goes on without a service on `shellSemaphore`. -/
theorem advance (hs : Sync s h) (hp : s.proc p = some ⟨parent, .uproc a c⟩) (hb : ¬ s.Blocked p)
    (hm : Moved s s' p ⟨parent, .uproc a c'⟩)
    (hshell : s'.sem .shellSemaphore = s.sem .shellSemaphore)
    (ha : c.asking = false) (ha' : c'.asking = false)
    (hplace : Place s.nextPid p ⟨parent, .uproc a c'⟩)
    (hsig : p = 2 ∧ c'.signalled = true ∨
      c'.signalled = c.signalled ∧ s'.sem .masterSemaphore = s.sem .masterSemaphore) :
    Sync s' h := by
  have hlt := hs.bound _ _ hp
  have hu := State.uproc_of_proc hp
  apply hs.congr hm.nextPid hshell
  · intro q r hq
    exact ⟨hm.bound hs hlt q r hq, hm.place hs hplace q r hq⟩
  · intro q b d hq hq3
    by_cases hqp : q = p
    · subst hqp
      rw [hm.uproc_self, Option.some.injEq, Prod.mk.injEq] at hq
      obtain ⟨rfl, rfl⟩ := hq
      rcases hsig with ⟨h2p, _⟩ | ⟨hsig, _⟩
      · omega
      · exact ⟨c, hu, hsig⟩
    · rw [hm.uproc_other hqp] at hq
      exact ⟨d, hq, rfl⟩
  · intro q b d hq _
    by_cases hqp : q = p
    · subst hqp
      rw [hu, Option.some.injEq, Prod.mk.injEq] at hq
      exact ⟨c', hq.1 ▸ hm.uproc_self⟩
    · exact ⟨d, (hm.uproc_other hqp).trans hq⟩
  · by_cases h2p : 2 = p
    · subst h2p
      rw [State.asking, State.asking, hm.uproc_self, hu]
      simp only [Option.any_some, ha, ha']
    · exact asking_congr (hm.uproc_other h2p)
  · intro hq
    apply hm.uproc_other
    rintro rfl
    exact hb ⟨_, hq⟩
  · intro he
    have h1p : 1 ≠ p := by
      rintro rfl
      cases hs.place _ _ hp with
      | child h3 => omega
    have hsame : s.Early ∧ s'.sem .masterSemaphore = s.sem .masterSemaphore := by
      by_cases h2p : 2 = p
      · subst h2p
        rcases he with he | ⟨b, d, hd, hdf⟩
        · rw [hm.nextPid] at he
          omega
        · rw [hm.uproc_self, Option.some.injEq, Prod.mk.injEq] at hd
          obtain ⟨rfl, rfl⟩ := hd
          rcases hsig with ⟨_, ht⟩ | ⟨hsig, hsem⟩
          · rw [ht] at hdf
            exact absurd hdf (by decide)
          · exact ⟨.inr ⟨a, c, hu, hsig ▸ hdf⟩, hsem⟩
      · rcases hsig with ⟨h2p', _⟩ | ⟨_, hsem⟩
        · exact absurd h2p'.symm h2p
        · exact ⟨(early_congr hm.nextPid (hm.uproc_other h2p)).mp he, hsem⟩
    rw [hsame.2, hm.other 1 h1p]
    exact hs.master hsame.1

theorem plain (hs : Sync s h) (hp : s.proc p = some ⟨parent, .uproc a c⟩) (hb : ¬ s.Blocked p)
    (hq : svc.quiet = true) (hsig : c'.signalled = c.signalled) (ha : c.asking = false)
    (ha' : c'.asking = false) (hc : ∀ child pt, c' = .sys6 child pt →
      a = shellIdx ∧ child ≠ shellIdx ∨ ∃ pt', c = .sys6 child pt') :
    Sync ((s.move p ⟨parent, .uproc a c'⟩ vm).serve p svc) h := by
  have hm : Moved s ((s.move p ⟨parent, .uproc a c'⟩ vm).serve p svc) p ⟨parent, .uproc a c'⟩ :=
    moved (fun b => ne_of_quiet hq rfl) (ne_of_quiet hq rfl)
  have hsem : ∀ x, x = .shellSemaphore ∨ x = .masterSemaphore →
      ((s.move p ⟨parent, .uproc a c'⟩ vm).serve p svc).sem x = s.sem x := by
    intro x hx
    apply State.serve_sem_of_ne
    · apply ne_of_quiet hq
      rcases hx with rfl | rfl <;> rfl
    · apply ne_of_quiet hq
      rcases hx with rfl | rfl <;> rfl
    · intro he
      exact absurd he (ne_of_quiet hq rfl)
    · exact ne_of_quiet hq rfl
  exact hs.advance hp hb hm (hsem _ (.inl rfl)) ha ha' (place_next (hs.place p _ hp) hc)
    (.inr ⟨hsig, hsem _ (.inr rfl)⟩)

/-- The last V of the shell is that on `masterSemaphore`. -/
theorem signal_shell (hs : Sync s h) (hp : s.proc 2 = some ⟨parent, .uproc a (.sys2 .signal)⟩)
    (hb : ¬ s.Blocked 2) (hm : Moved s s' 2 ⟨parent, .uproc a (.sys2 .passeren)⟩)
    (hshell : s'.sem .shellSemaphore = s.sem .shellSemaphore) : Sync s' h := by
  have hplace : Place s.nextPid 2 ⟨parent, .uproc a (.sys2 .passeren)⟩ :=
    place_next (hs.place 2 _ hp) fun child pt he => by cases he
  exact hs.advance hp hb hm hshell rfl rfl hplace (.inl ⟨rfl, rfl⟩)

/-- The child that does its V is the one that the shell has created last. -/
theorem signal_child (hs : Sync s h) (hp : s.proc p = some ⟨parent, .uproc a (.sys2 .signal)⟩)
    (h3 : 3 ≤ p) (hm : Moved s s' p ⟨parent, .uproc a (.sys2 .passeren)⟩)
    (hshell : s'.sem .shellSemaphore = (s.sem .shellSemaphore).verhogen)
    (hmaster : s'.sem .masterSemaphore = s.sem .masterSemaphore) :
    Sync s' { h with signals := h.signals ++ [p],
                     returns := h.returns + (s.sem .shellSemaphore).queue.head?.toList.length } := by
  have hlt := hs.bound _ _ hp
  obtain ⟨hpe, hE⟩ := hs.last (State.uproc_of_proc hp) h3 rfl
  have h2p : 2 ≠ p := by omega
  have hask := asking_congr (hm.uproc_other h2p)
  have hplace : Place s.nextPid p ⟨parent, .uproc a (.sys2 .passeren)⟩ :=
    place_next (hs.place p _ hp) fun child pt he => by cases he
  constructor
  · rw [hm.nextPid]
    exact hm.bound hs hlt
  · rw [hm.nextPid]
    exact hm.place hs hplace
  · exact hm.nextPid ▸ hs.count
  · exact hs.children
  · rw [List.length_append, List.length_singleton, List.range'_1_concat, ← hs.signals, ← hpe]
  · simp only [List.length_append, List.length_singleton]
    omega
  · simp only [List.length_append, List.length_singleton]
    omega
  · intro q b d hq hq3
    rw [List.length_append, List.length_singleton]
    by_cases hqp : q = p
    · subst hqp
      rw [hm.uproc_self, Option.some.injEq, Prod.mk.injEq] at hq
      rw [← hq.2]
      exact ⟨fun _ => by omega, fun _ => rfl⟩
    · rw [hm.uproc_other hqp] at hq
      rw [hs.signalled q b d hq hq3]
      omega
  · intro q hq hqn
    rw [List.length_append, List.length_singleton] at hq
    rw [hm.nextPid] at hqn
    rcases hs.count with ⟨hn, _⟩ | hn
    · omega
    · omega
  · rw [hshell]
    exact hs.sane.verhogen
  · rw [hshell, Semaphore.queue_verhogen]
    exact hs.nodup.tail
  · intro q hq
    rw [hshell, Semaphore.queue_verhogen] at hq
    rw [hm.uproc_other h2p]
    exact hs.queue q (List.mem_of_mem_tail hq)
  · have hbal := hs.balance
    rw [hshell, Semaphore.balance_verhogen, hask, List.length_append, List.length_singleton]
    push_cast
    change _ + (h.children.length : ℤ) = _
    omega
  · have hret := hs.returns
    rw [hshell, Semaphore.queue_verhogen, hask]
    cases hqueue : (s.sem .shellSemaphore).queue with
    | nil =>
        rw [hqueue] at hret
        exact hret
    | cons q qs =>
        rw [hqueue, List.length_cons] at hret
        simp only [List.head?_cons, Option.toList_some, List.length_singleton, List.tail_cons]
        omega
  · intro he
    rw [hmaster, hm.other 1 (by omega)]
    exact hs.master ((early_congr hm.nextPid (hm.uproc_other h2p)).mp he)

/-- The P of the shell, which gets the unit if its child has already done the V. -/
theorem ask (hs : Sync s h) {child : Asid}
    (hp : s.proc 2 = some ⟨parent, .uproc a (.sys6 child .passeren)⟩) (hb : ¬ s.Blocked 2)
    (hm : Moved s s' 2 ⟨parent, .uproc a (.run .user)⟩)
    (hshell : s'.sem .shellSemaphore = (s.sem .shellSemaphore).passeren 2)
    (hmaster : s'.sem .masterSemaphore = s.sem .masterSemaphore) :
    Sync s' { h with returns := h.returns +
      (if 0 < (s.sem .shellSemaphore).value then some 2 else none).toList.length } := by
  have hlt := hs.bound _ _ hp
  have hu := State.uproc_of_proc hp
  have ha : a = shellIdx := by
    cases hs.place _ _ hp with
    | shell => rfl
    | child h3 => omega
  have hnil : (s.sem .shellSemaphore).queue = [] := by
    rw [List.eq_nil_iff_forall_not_mem]
    intro q hq
    exact hb ⟨_, (hs.queue q hq).1 ▸ hq⟩
  have hask : s.asking = 1 := by
    rw [State.asking, hu]
    rfl
  have hask' : s'.asking = 0 := by
    rw [State.asking, hm.uproc_self]
    rfl
  have hplace : Place s.nextPid 2 ⟨parent, .uproc a (.run .user)⟩ :=
    place_next (hs.place 2 _ hp) fun child pt he => by cases he
  constructor
  · rw [hm.nextPid]
    exact hm.bound hs hlt
  · rw [hm.nextPid]
    exact hm.place hs hplace
  · exact hm.nextPid ▸ hs.count
  · exact hs.children
  · exact hs.signals
  · exact hs.le
  · exact hs.le_succ
  · intro q b d hq hq3
    rw [hm.uproc_other (by omega)] at hq
    exact hs.signalled q b d hq hq3
  · intro q hq hqn
    rw [hm.nextPid] at hqn
    obtain ⟨b, d, hd⟩ := hs.alive q hq hqn
    have hq2 : q ≠ 2 := by
      intro he
      rw [he] at hq
      omega
    exact ⟨b, d, (hm.uproc_other hq2).trans hd⟩
  · rw [hshell]
    exact hs.sane.passeren 2
  · rw [hshell, Semaphore.passeren]
    split
    · exact hs.nodup
    · rw [hnil]
      exact List.nodup_singleton 2
  · intro q hq
    rw [hshell, Semaphore.passeren] at hq
    split at hq
    · rw [hnil] at hq
      exact absurd hq List.not_mem_nil
    · rw [hnil, List.nil_append, List.mem_singleton] at hq
      exact ⟨hq, by rw [hm.uproc_self, ha]⟩
  · have hbal := hs.balance
    rw [hask] at hbal
    rw [hshell, Semaphore.balance_passeren, hask']
    change _ + (h.children.length : ℤ) = h.signals.length + _
    omega
  · have hret := hs.returns
    rw [hnil, hask, List.length_nil] at hret
    rw [hshell, Semaphore.passeren, hask']
    change _ = h.children.length
    split
    · rw [hnil]
      simp only [Option.toList_some, List.length_singleton, List.length_nil]
      omega
    · rw [hnil]
      simp only [Option.toList_none, List.length_nil, List.nil_append, List.length_singleton]
      omega
  · intro he
    rw [hmaster, hm.other 1 (by decide)]
    exact hs.master (.inr ⟨a, _, hu, rfl⟩)

theorem place_mono {n : ℕ} {r : Proc} (h : Place n p r) (hn : 2 < n) : Place (n + 1) p r := by
  cases h with
  | test h =>
      apply Place.test
      constructor
      · intro he
        have hn' := h.mp he
        omega
      · intro hn'
        omega
  | shell h => exact .shell h
  | child hp ha h => exact .child hp ha h

/-- The shell creates a child when all of its children have done their V. -/
theorem create_child (hs : Sync s h) {child : Asid}
    (hp : s.proc 2 = some ⟨parent, .uproc a (.sys6 child .create)⟩) (hb : ¬ s.Blocked 2)
    (hc : Created s s' 2 ⟨parent, .uproc a (.sys6 child .passeren)⟩
      ⟨2, .uproc child (.run .user)⟩) :
    Sync s' { h with children := h.children ++ [s.nextPid] } := by
  have hlt := hs.bound _ _ hp
  have hu := State.uproc_of_proc hp
  have hu' := State.uproc_of_proc hc.self
  have hask : s.asking = 0 := by
    rw [State.asking, hu]
    rfl
  have hask' : s'.asking = 1 := by
    rw [State.asking, hu']
    rfl
  obtain ⟨hnil, hzero, hKE⟩ := hs.idle hask fun hq => hb ⟨_, hq⟩
  have hn : s.nextPid = 3 + h.children.length := by
    rcases hs.count with ⟨hn, _⟩ | hn
    · omega
    · exact hn
  have hne : child ≠ shellIdx := by
    cases hs.place _ _ hp with
    | shell h => exact h _ _ rfl
    | child _ _ h => exact absurd rfl (h child .create)
  constructor
  · exact hc.bound hs hlt
  · intro q r hq
    rw [hc.nextPid]
    rcases hc.of_proc hq with ⟨rfl, rfl⟩ | ⟨rfl, rfl⟩ | ⟨_, hq⟩
    · have hplace : Place s.nextPid 2 ⟨parent, .uproc a (.sys6 child .passeren)⟩ := by
        apply place_next (hs.place 2 _ hp)
        intro c pt he
        cases he
        exact .inr ⟨_, rfl⟩
      exact place_mono hplace (by omega)
    · apply Place.child
      · omega
      · exact hne
      · intro c pt he
        cases he
    · exact place_mono (hs.place q r hq) (by omega)
  · rw [hc.nextPid, List.length_append, List.length_singleton]
    omega
  · rw [List.length_append, List.length_singleton, List.range'_1_concat, ← hs.children, ← hn]
  · exact hs.signals
  · rw [List.length_append]
    exact Nat.le_add_right_of_le hs.le
  · simp only [List.length_append, List.length_singleton]
    omega
  · intro q b d hq hq3
    obtain ⟨par, hq⟩ := State.uproc_eq_some.mp hq
    rcases hc.of_proc hq with ⟨rfl, _⟩ | ⟨rfl, he⟩ | ⟨_, hq⟩
    · omega
    · cases he
      change false = true ↔ s.nextPid < 3 + h.signals.length
      simp only [Bool.false_eq_true, false_iff]
      omega
    · exact hs.signalled q b d (State.uproc_of_proc hq) hq3
  · intro q hq hqn
    rw [hc.nextPid] at hqn
    have hq' : 3 + h.signals.length ≤ q := hq
    obtain rfl : q = s.nextPid := by omega
    exact ⟨child, _, State.uproc_of_proc hc.new⟩
  · exact hc.sem ▸ hs.sane
  · exact hc.sem ▸ hs.nodup
  · intro q hq
    rw [hc.sem, hnil] at hq
    exact absurd hq List.not_mem_nil
  · have hbal := hs.balance
    rw [hask] at hbal
    rw [hc.sem, hask', List.length_append, List.length_singleton]
    push_cast
    omega
  · have hret := hs.returns
    rw [hask] at hret
    rw [hc.sem, hask', List.length_append, List.length_singleton, ← hret]
  · intro _
    rw [hc.sem, hc.other 1 (by decide) (by omega)]
    exact hs.master (.inr ⟨a, _, hu, rfl⟩)

/-- `test` creates the shell. -/
theorem create_shell (hs : Sync s h) (hp : s.proc p = some ⟨parent, .test .create⟩)
    (hc : Created s s' p ⟨parent, .test .passeren⟩ ⟨p, .uproc shellIdx (.run .user)⟩) :
    Sync s' h := by
  have hlt := hs.bound _ _ hp
  obtain ⟨rfl, rfl, hn⟩ : p = 1 ∧ parent = 0 ∧ s.nextPid = 2 := by
    cases hs.place _ _ hp with
    | test h => exact ⟨rfl, rfl, h.mp rfl⟩
  obtain ⟨hE, hchildren⟩ : h.children.length = 0 ∧ h.children = [] := by
    rcases hs.count with ⟨_, hnil⟩ | hn'
    · exact ⟨by rw [hnil]; rfl, hnil⟩
    · omega
  have hnone : s.uproc 2 = none := by
    have hfresh := hs.fresh
    rw [hn] at hfresh
    rw [State.uproc, hfresh]
    rfl
  have hu' : s'.uproc 2 = some (shellIdx, .run .user) := by
    have hnew := hc.new
    rw [hn] at hnew
    exact State.uproc_of_proc hnew
  have hask : s.asking = 0 := by
    rw [State.asking, hnone]
    rfl
  have hask' : s'.asking = 0 := by
    rw [State.asking, hu']
    rfl
  constructor
  · exact hc.bound hs hlt
  · intro q r hq
    rw [hc.nextPid, hn]
    rcases hc.of_proc hq with ⟨rfl, rfl⟩ | ⟨rfl, rfl⟩ | ⟨hq1, hq⟩
    · exact .test (by decide)
    · rw [hn]
      exact .shell fun c pt he => by cases he
    · have hq2 := hs.bound q r hq
      cases hs.place q r hq with
      | test => exact absurd rfl hq1
      | shell => omega
      | child h3 => omega
  · rw [hc.nextPid, hn, hE]
    exact .inr rfl
  · exact hs.children
  · exact hs.signals
  · exact hs.le
  · exact hs.le_succ
  · intro q b d hq hq3
    obtain ⟨par, hq⟩ := State.uproc_eq_some.mp hq
    rcases hc.of_proc hq with ⟨rfl, _⟩ | ⟨rfl, _⟩ | ⟨_, hq⟩
    · omega
    · omega
    · have := hs.bound q _ hq
      omega
  · intro q hq hqn
    rw [hc.nextPid, hn] at hqn
    omega
  · exact hc.sem ▸ hs.sane
  · exact hc.sem ▸ hs.nodup
  · intro q hq
    rw [hc.sem] at hq
    have hq2 := (hs.queue q hq).2
    rw [hnone] at hq2
    exact absurd hq2 (by simp)
  · have hbal := hs.balance
    rw [hask] at hbal
    rw [hc.sem, hask']
    exact hbal
  · have hret := hs.returns
    rw [hask] at hret
    rw [hc.sem, hask']
    exact hret
  · intro _
    have hmaster := hs.master (.inl hn)
    rw [hc.sem]
    refine ⟨hmaster.1, fun par hpar => ?_⟩
    rw [hc.self] at hpar
    cases hpar

theorem childless (hs : Sync s h) (h3 : 3 ≤ p) (q : ℕ) (r : Proc) (hq : s.proc q = some r) :
    r.parent ≠ p := by
  cases hs.place q r hq with
  | test => exact Nat.ne_of_lt (Nat.zero_lt_of_lt h3)
  | shell => exact Nat.ne_of_lt (Nat.lt_of_succ_lt h3)
  | child => exact Nat.ne_of_lt h3

/-- A child ends without touching anybody else. -/
theorem term_child (hs : Sync s h) (hp : s.proc p = some ⟨parent, .uproc a (.sys2 .term)⟩)
    (h3 : 3 ≤ p) (hn : s'.nextPid = s.nextPid) (hsem : ∀ x, s'.sem x = s.sem x)
    (hother : ∀ q, q ≠ p → q ≠ s.nextPid → s'.proc q = s.proc q)
    (hkill : ∀ q r, s'.proc q = some r → s.proc q = some r) : Sync s' h := by
  have hsig : p < 3 + h.signals.length :=
    (hs.signalled p a _ (State.uproc_of_proc hp) h3).mp rfl
  have hlt := hs.bound _ _ hp
  have h2 : s'.uproc 2 = s.uproc 2 := uproc_congr (hother 2 (by omega) (by omega))
  apply hs.congr hn (hsem _)
  · intro q r hq
    exact ⟨hs.bound q r (hkill q r hq), hs.place q r (hkill q r hq)⟩
  · intro q b d hq _
    obtain ⟨par, hq⟩ := State.uproc_eq_some.mp hq
    exact ⟨d, State.uproc_of_proc (hkill q _ hq), rfl⟩
  · intro q b d hq hge
    obtain ⟨par, hq'⟩ := State.uproc_eq_some.mp hq
    have hqn := hs.bound q _ hq'
    exact ⟨d, (uproc_congr (hother q (by omega) (by omega))).trans hq⟩
  · exact asking_congr h2
  · exact fun _ => h2
  · intro he
    rw [hsem, hother 1 (by omega) (by omega)]
    exact hs.master ((early_congr hn h2).mp he)

/-- Processes end when no child owes its V and the shell has done its own. -/
theorem ended (hs : Sync s h) (hask : s.asking = 0) (hq : 2 ∉ (s.sem .shellSemaphore).queue)
    (hn : s'.nextPid = s.nextPid)
    (hshell : s'.sem .shellSemaphore = ⟨(s.sem .shellSemaphore).value, []⟩)
    (hproc : ∀ q r, s'.proc q = some r → s.proc q = some r) (hearly : ¬ s'.Early) : Sync s' h := by
  obtain ⟨hnil, _, hKE⟩ := hs.idle hask hq
  have huproc : ∀ q b d, s'.uproc q = some (b, d) → s.uproc q = some (b, d) := by
    intro q b d hq
    obtain ⟨par, hq⟩ := State.uproc_eq_some.mp hq
    exact State.uproc_of_proc (hproc q _ hq)
  apply hs.congr hn
  · rw [hshell, ← hnil]
  · exact fun q r hq => ⟨hs.bound q r (hproc q r hq), hs.place q r (hproc q r hq)⟩
  · exact fun q b d hq _ => ⟨d, huproc q b d hq, rfl⟩
  · intro q b d hq hge
    obtain ⟨par, hq⟩ := State.uproc_eq_some.mp hq
    have hlt := hs.bound q _ hq
    rcases hs.count with ⟨hn, _⟩ | hn
    · omega
    · omega
  · rw [hask]
    cases hu : s'.uproc 2 with
    | none =>
        rw [State.asking, hu]
        rfl
    | some r =>
        have hu₂ := huproc 2 r.1 r.2 hu
        rw [State.asking, hu₂] at hask
        rw [State.asking, hu]
        exact hask
  · exact fun hm => absurd hm hq
  · exact fun he => absurd he hearly

/-- After the TERMPROCESS of the shell, or of `test`. -/
theorem sem_of_term (hnil : (s.sem .shellSemaphore).queue = []) :
    ((s.move p r' vm).serve p .term).sem .shellSemaphore =
      ⟨(s.sem .shellSemaphore).value, []⟩ := by
  change Semaphore.mk _ ((s.sem .shellSemaphore).queue.filter _) = _
  rw [hnil]
  rfl

theorem proc_of_term (hp : p < s.nextPid) (q : ℕ) (r : Proc)
    (hq : ((s.move p r' vm).serve p .term).proc q = some r) : q ≠ p ∧ s.proc q = some r := by
  rcases State.proc_after hp hq with ⟨_, _, ht⟩ | hq | ⟨b, ht, _⟩
  · exact absurd rfl ht
  · exact hq
  · exact absurd ht (by simp)

theorem term (hs : Sync s h) (hp : s.proc p = some ⟨parent, .uproc a (.sys2 .term)⟩)
    (hb : ¬ s.Blocked p) :
    Sync ((s.move p ⟨parent, .uproc a (.sys2 .term)⟩ vm).serve p .term) h := by
  have hlt := hs.bound _ _ hp
  cases hs.place _ _ hp with
  | child h3 =>
      have halone := hs.childless h3
      apply hs.term_child hp h3
      · rfl
      · exact fun x => sem_keep_alone hp (by rfl) hb halone
      · exact fun q hq hqn => proc_keep_alone hp (by rfl) hq hqn fun _ => halone
      · exact fun q r hq => (proc_of_term hlt q r hq).2
  | shell =>
      have hu := State.uproc_of_proc hp
      have hask : s.asking = 0 := by
        rw [State.asking, hu]
        rfl
      have hq : 2 ∉ (s.sem .shellSemaphore).queue := fun hq => hb ⟨_, hq⟩
      apply hs.ended hask hq
      · rfl
      · exact sem_of_term (hs.idle hask hq).1
      · exact fun q r hq => (proc_of_term hlt q r hq).2
      · rintro (he | ⟨b, d, hd, _⟩)
        · have he' : s.nextPid = 2 := he
          omega
        · obtain ⟨par, hd⟩ := State.uproc_eq_some.mp hd
          exact (proc_of_term hlt 2 _ hd).1 rfl

/-- `test` ends after the V of the shell. -/
theorem test_term (hs : Sync s h) (hp : s.proc p = some ⟨parent, .test .term⟩)
    (hb : ¬ s.Blocked p) :
    Sync ((s.move p ⟨parent, .test .term⟩ vm).serve p .term) h := by
  have hlt := hs.bound _ _ hp
  obtain rfl : p = 1 := by
    cases hs.place _ _ hp
    rfl
  have hearly := hs.not_early hp hb
  obtain ⟨hask, hq⟩ := hs.idle_of_not_early hearly
  apply hs.ended hask hq
  · rfl
  · exact sem_of_term (hs.idle hask hq).1
  · exact fun q r hq => (proc_of_term hlt q r hq).2
  · rintro (he | ⟨b, d, hd, hdf⟩)
    · exact hearly (.inl he)
    · obtain ⟨par, hd⟩ := State.uproc_eq_some.mp hd
      exact hearly (.inr ⟨b, d, State.uproc_of_proc (proc_of_term hlt 2 _ hd).2, hdf⟩)

/-- `test` goes on without creating the shell. -/
theorem advance_test {pt pt' : TestPoint} (hs : Sync s h)
    (hp : s.proc p = some ⟨parent, .test pt⟩) (hm : Moved s s' p ⟨parent, .test pt'⟩)
    (hpt : pt'.early = pt.early) (hshell : s'.sem .shellSemaphore = s.sem .shellSemaphore)
    (hmaster : s.Early → (s'.sem .masterSemaphore).value = 0 ∧
      (pt' = .term → 1 ∈ (s'.sem .masterSemaphore).queue)) : Sync s' h := by
  have hlt := hs.bound _ _ hp
  obtain ⟨rfl, hplace⟩ : p = 1 ∧ Place s.nextPid p ⟨parent, .test pt'⟩ := by
    cases hs.place _ _ hp with
    | test h => exact ⟨rfl, .test (hpt ▸ h)⟩
  have hnone : ∀ b d, s.uproc 1 ≠ some (b, d) := by
    intro b d hu
    obtain ⟨par, hp'⟩ := State.uproc_eq_some.mp hu
    rw [hp] at hp'
    cases hp'
  have h2 : s'.uproc 2 = s.uproc 2 := hm.uproc_other (by decide)
  apply hs.congr hm.nextPid hshell
  · exact fun q r hq => ⟨hm.bound hs hlt q r hq, hm.place hs hplace q r hq⟩
  · intro q b d hq hq3
    rw [hm.uproc_other (by omega)] at hq
    exact ⟨d, hq, rfl⟩
  · intro q b d hq _
    have hq1 : q ≠ 1 := by
      rintro rfl
      exact hnone b d hq
    exact ⟨d, (hm.uproc_other hq1).trans hq⟩
  · exact asking_congr h2
  · exact fun _ => h2
  · intro he
    obtain ⟨hv, hq⟩ := hmaster ((early_congr hm.nextPid h2).mp he)
    refine ⟨hv, fun par hpar => hq ?_⟩
    rw [hm.self, Option.some.injEq, Proc.mk.injEq, Body.test.injEq] at hpar
    exact hpar.2

theorem step_test {pt pt' : TestPoint} {inp : Input} (hs : Sync s h)
    (hp : s.proc p = some ⟨parent, .test pt⟩) (hb : ¬ s.Blocked p)
    (hsvc : s.service (p, inp) = svc) (hm : TestMoves s.vm pt inp pt' vm svc) :
    Sync ((s.move p ⟨parent, .test pt'⟩ vm).serve p svc) (h.record s (p, inp)) := by
  have hlt := hs.bound _ _ hp
  cases hm with
  | initSemaphores =>
      rw [record_of_ne hsvc (by simp) (by simp) (by simp)]
      have hn : s.nextPid = 2 := by
        cases hs.place _ _ hp with
        | test h => exact h.mp rfl
      have hnone : s.uproc 2 = none := by
        have hfresh := hs.fresh
        rw [hn] at hfresh
        rw [State.uproc, hfresh]
        rfl
      have hask : s.asking = 0 := by
        rw [State.asking, hnone]
        rfl
      have hq : 2 ∉ (s.sem .shellSemaphore).queue := by
        intro hq
        have hu := (hs.queue 2 hq).2
        rw [hnone] at hu
        exact absurd hu (by simp)
      refine hs.advance_test hp (moved (by simp) (by simp)) rfl ?_ fun _ => ⟨rfl, by simp⟩
      change Semaphore.mk 0 (s.sem .shellSemaphore).queue = _
      rw [← (hs.idle hask hq).2.1]
  | initSwapPool =>
      rw [record_of_ne hsvc (by simp) (by simp) (by simp)]
      exact hs.advance_test hp (moved (by simp) (by simp)) rfl rfl fun he =>
        ⟨(hs.master he).1, by simp⟩
  | init =>
      rw [record_of_ne hsvc (by simp) (by simp) (by simp)]
      exact hs.advance_test hp (moved (by simp) (by simp)) rfl rfl fun he =>
        ⟨(hs.master he).1, by simp⟩
  | createFailed =>
      rw [record_of_ne hsvc (by simp) (by simp) (by simp)]
      exact hs.advance_test hp (moved (by simp) (by simp)) rfl rfl fun he =>
        ⟨(hs.master he).1, by simp⟩
  | create =>
      have hrec : h.record s (p, .created true) = h := by
        have hnone : s.uproc p = none := by
          rw [State.uproc, hp]
          rfl
        have hgrant : s.granted .shellSemaphore (p, .created true) = none :=
          State.granted_none hsvc (by simp) (by simp)
        simp only [ExecLog.record, hsvc, hnone, hgrant]
        rfl
      rw [hrec]
      exact hs.create_shell hp (created hlt)
  | passeren =>
      rw [record_of_ne hsvc (by simp) (by simp) (by simp)]
      obtain rfl : p = 1 := by
        cases hs.place _ _ hp
        rfl
      have hsem : ((s.move 1 ⟨parent, .test .term⟩ s.vm).serve 1 (.passeren .masterSemaphore)).sem
          .masterSemaphore = (s.sem .masterSemaphore).passeren 1 := State.setSem_self
      refine hs.advance_test hp (moved (by simp) (by simp)) rfl rfl fun he => ?_
      have hzero := (hs.master he).1
      have hpos : ¬ 0 < (s.sem .masterSemaphore).value := by omega
      rw [hsem, Semaphore.passeren, if_neg hpos]
      exact ⟨hzero, fun _ => List.mem_append_right _ (List.mem_singleton_self 1)⟩
  | term =>
      rw [record_of_ne hsvc (by simp) (by simp) (by simp)]
      exact hs.test_term hp hb

theorem step_uproc (hs : Sync s h) (hp : s.proc p = some ⟨parent, .uproc a c⟩)
    (hb : ¬ s.Blocked p) (hsvc : s.service (p, inp) = svc) (hm : Turn a c c' svc) :
    Sync ((s.move p ⟨parent, .uproc a c'⟩ vm).serve p svc) (h.record s (p, inp)) := by
  have hlt := hs.bound _ _ hp
  have hu := State.uproc_of_proc hp
  cases hm with
  | plain hq hsig ha ha' hc =>
      rw [record_of_ne hsvc (ne_of_quiet hq rfl) (ne_of_quiet hq rfl)
        fun b => ne_of_quiet hq rfl]
      exact hs.plain hp hb hq hsig ha ha' hc
  | @create child =>
      obtain rfl : p = 2 := by
        cases hs.place _ _ hp with
        | shell => rfl
        | child _ _ h => exact absurd rfl (h child .create)
      have hgrant : s.granted .shellSemaphore (2, inp) = none :=
        State.granted_none hsvc (by simp) (by simp)
      have hrec : h.record s (2, inp) = { h with children := h.children ++ [s.nextPid] } := by
        simp only [ExecLog.record, hsvc, hu, hgrant]
        rfl
      rw [hrec]
      exact hs.create_child hp hb (created hlt)
  | @ask child =>
      obtain rfl : p = 2 := by
        cases hs.place _ _ hp with
        | shell => rfl
        | child _ _ h => exact absurd rfl (h child .passeren)
      have hrec : h.record s (2, inp) = { h with returns := h.returns +
          (if 0 < (s.sem .shellSemaphore).value then some 2 else none).toList.length } := by
        simp only [ExecLog.record, hsvc, State.granted, true_and]
        rfl
      rw [hrec]
      exact hs.ask hp hb (moved (by simp) (by simp)) State.setSem_self rfl
  | signal =>
      cases hs.place _ _ hp with
      | shell =>
          rw [record_of_ne hsvc (by simp) (by decide) (by simp)]
          exact hs.signal_shell hp hb (moved (by simp) (by simp)) rfl
      | child h3 ha =>
          have hne : ¬ a.num = shellAsid := fun he => ha (eq_shellIdx he)
          rw [if_neg hne] at hsvc ⊢
          have hrec : h.record s (p, inp) = { h with
              signals := h.signals ++ [p],
              returns := h.returns + (s.sem .shellSemaphore).queue.head?.toList.length } := by
            simp only [ExecLog.record, hsvc, State.granted, if_true]
          rw [hrec]
          exact hs.signal_child hp h3 (moved (by simp) (by simp)) State.setSem_self rfl
  | term =>
      rw [record_of_ne hsvc (by simp) (by simp) (by simp)]
      exact hs.term hp hb

theorem step (hs : Sync s h) (hst : Steps s p inp s') : Sync s' (h.record s (p, inp)) := by
  cases hst with
  | test hp hb hsvc hm => exact hs.step_test hp hb hsvc hm
  | uproc hp hb hsvc hm => exact hs.step_uproc hp hb hsvc hm.turn

end Sync

theorem Boot.sync {s : State} (hs : Boot s) : Sync s .empty := by
  have hproc := fun p r (hp : s.proc p = some r) => hs.proc_eq hp
  have hnone := hs.uproc_ne
  have hask : s.asking = 0 := by
    rw [State.asking]
    cases hu : s.uproc 2 with
    | none => rfl
    | some r => exact absurd hu (hnone 2 r.1 r.2)
  constructor
  · intro p r hp
    rw [(hproc p r hp).1, hs.nextPid]
    decide
  · intro p r hp
    obtain ⟨rfl, rfl⟩ := hproc p r hp
    rw [hs.nextPid]
    exact .test (by decide)
  · exact .inl ⟨hs.nextPid, rfl⟩
  · rfl
  · rfl
  · exact le_refl _
  · exact Nat.zero_le _
  · exact fun p a c hp => absurd hp (hnone p a c)
  · intro p hp hlt
    have hp3 : 3 ≤ p := hp
    rw [hs.nextPid] at hlt
    omega
  · rw [hs.sem]
    exact ⟨le_refl _, fun _ => rfl⟩
  · rw [hs.sem]
    exact List.nodup_nil
  · intro q hq
    rw [hs.sem] at hq
    exact absurd hq List.not_mem_nil
  · rw [hs.sem, hask]
    rfl
  · rw [hs.sem, hask]
    rfl
  · intro _
    rw [hs.sem]
    refine ⟨rfl, fun parent hp => ?_⟩
    exact absurd (hproc 1 _ hp).2 (by simp)

/-- In every run of the system, EXECUTE is synchronous. -/
theorem synchronous_reachable {y : State × ExecLog} (h : execRuns.Reachable y) :
    Synchronous y.1 y.2 := by
  have hsync : Sync y.1 y.2 := by
    refine h.invariant (I := fun y => Sync y.1 y.2) (fun y hy => ?_) fun y e y' _ ih hs => ?_
    · rw [hy.2]
      exact hy.1.sync
    · rw [hs.2]
      exact ih.step (State.steps_of_exec hs.1)
  exact hsync.synchronous

/-- The statements of `test` up to its P, and the EXECUTE of the program 2. -/
def executeEvents : List Event :=
  [(1, .go), (1, .go), (1, .go), (1, .created true), (1, .go),
    (2, .syscall 6 2 0), (2, .go), (2, .created true), (2, .go)]

/-- The U-proc requests TERMINATE and executes `sys2` to its end. -/
def terminateEvents (p : ℕ) : List Event :=
  (p, .syscall 2 0 0) :: List.replicate 6 (p, .go)

end PandOSsh.SupportLevel
