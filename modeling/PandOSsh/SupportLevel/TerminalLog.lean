import PandOSsh.Library.Sessions
import PandOSsh.SupportLevel.FlatMemory
import PandOSsh.SupportLevel.Leaks

/-!
# The log of a terminal semaphore

The calls of `writeTerminal` and `readTerminal` in the order in which they get their
semaphore, beside the memories of the U-procs. As long as the flash devices do what they are
told and nobody ends between its P and its V, the log is a sequence of calls, of which the
last one belongs to the process that holds the semaphore.
-/

namespace PandOSsh.SupportLevel
open Library

namespace State
variable (s : State) (x : Sem) (e : Event) (mem : Memory)

def entries : List (ℕ × TermEntry) :=
  (s.uproc e.1).toList.flatMap fun r => (r.2.entries x r.1 s.vm (mem r.1) e.2).map fun t => (e.1, t)

def opening (p : ℕ) : Option TermEntry := (s.uproc p).bind fun r => r.2.opening (mem r.1)

/-- The memories and the log after a step. -/
def enter (s' : State) (h : Memory × List (ℕ × TermEntry)) : Memory × List (ℕ × TermEntry) :=
  (s.remember e h.1, h.2 ++ s.entries x e h.1 ++
    ((s.granted x e).bind fun q => (s'.opening (s.remember e h.1) q).map fun t => (q, t)).toList)

end State

/-- The runs of any number of U-procs in which no ASID is given out while it is in use, with
their memories and the log of a terminal semaphore. -/
def terminalRuns (x : Sem) :
    System ((State × Set Asid) × (Memory × List (ℕ × TermEntry))) Event :=
  (supportRuns Unpaged).withHistory (fun y => (flashMemory y.1.vm.flash, []))
    fun y e y' h => y.1.enter x e y'.1 h

/-- Every flash command ends with the status READY, and nobody ends between the P and the V
of a terminal call, neither by itself nor with an ancestor. -/
structure Undisturbed (y : State × Set Asid) (e : Event) : Prop where
  flash : FlashReady y e
  survive : CallsSurvive y.1 e
  outlive : y.1.service e = .term → ∀ x : Sem, x.OfTerminal → ∀ q, y.1.past x q →
    y.1.descends e.1 y.1.nextPid q = false

/-- What a call of a live process leaves in the memory of its U-proc. -/
def Code.after (code : Code) (inp : Input) (mem : Word → Byte) : Word → Byte :=
  (code.storing inp).elim mem fun y => Function.update mem y.1 y.2

/-- How a call uses its terminal: `doing` is what it has done when it stands at some
statement with this memory, `complete` what a call that has ended has done. The environment
is to comply with `ok`. -/
structure Discipline (x : Sem) (ok : Code → Input → Prop)
    (doing : (Word → Byte) → Code → List TermEntry → Prop)
    (complete : List TermEntry → Prop) : Prop where
  starts : ∀ {code code'}, Starts code code' x → ∀ mem, ∃ t, code'.opening mem = some t ∧
    doing mem code' [t]
  works : ∀ {a vm mem code inp code' vm' es}, Works a vm code inp code' vm' → ok code inp →
    (∀ va c, vm.load a va = some c → c = mem va) → doing mem code es →
      doing (code.after inp mem) code' (es ++ code.entries a vm mem inp)
  ends : ∀ {a vm mem code es}, Ends code x → doing mem code es →
    complete (es ++ code.entries a vm mem .go)
  goesOn : ∀ {mem code es}, doing mem code es → ∃ es', es' ≠ [] ∧ complete (es ++ es')

/-- The statement that runs next complies with `ok`. -/
def Complies (ok : Code → Input → Prop) (s : State) (e : Event) : Prop :=
  ∀ a code, s.uproc e.1 = some (a, .run code) → ok code e.2

/-- The U-proc has just requested its P. -/
def Control.Waits (x : Sem) (c : Control) : Prop :=
  ∃ code code', c = .run code' ∧ Starts code code' x

/-- What the live process that owns a session has done so far. -/
def State.doing (s : State) (mem : Memory) (D : (Word → Byte) → Code → List TermEntry → Prop)
    (t : Session ℕ TermEntry) : Prop :=
  ∃ a c code, s.uproc t.owner = some (a, c) ∧ c.code = some code ∧ D (mem a) code t.entries

/-- The log of a terminal semaphore is a sequence of calls. -/
structure TerminalLog (x : Sem) (doing : (Word → Byte) → Code → List TermEntry → Prop)
    (complete : List TermEntry → Prop) (s : State) (h : Memory × List (ℕ × TermEntry)) : Prop where
  owned : (s.sem x).Owned (s.past x)
  surviving : Surviving s
  waiting : ∀ q ∈ (s.sem x).queue, ∃ a c, s.uproc q = some (a, c) ∧ c.Waits x
  logged : Logged (fun t => complete t.entries) (s.doing h.1 doing) (s.sem x) (s.past x) h.2

namespace State
variable {s s' : State} {p q : ℕ} {inp : Input} {r r' : Proc} {vm : Vm} {x : Sem} {svc : Service}
  {a b : Asid} {c d : Control} {mem mem' : Memory} {vacant : Set Asid} {busy : Busy}
  {D : (Word → Byte) → Code → List TermEntry → Prop} {t : Session ℕ TermEntry}

/-- The value of the semaphore after a step that requests neither P nor V on it. -/
theorem value_after (h1 : svc ≠ .passeren x) (h2 : svc ≠ .verhogen x) (h3 : svc ≠ .initSemaphores) :
    (((s.move p r' vm).serve p svc).sem x).value = (s.sem x).value := by
  by_cases ht : svc = .term
  · rw [ht]
    rfl
  · rw [serve_sem_of_ne h1 h2 (fun he => absurd he h3) ht]
    rfl

/-- Nobody gets the semaphore with a step that requests neither P nor V on it. -/
theorem holds_after (hp : s.proc p = some r) (hb : ¬ s.Blocked p) (hlt : p < s.nextPid)
    (h1 : svc ≠ .passeren x) (h2 : svc ≠ .verhogen x) (h3 : svc ≠ .initSemaphores)
    (hpast : r'.body.past x = true → r.body.past x = true)
    (h : (((s.move p r' vm).serve p svc).sem x).Holds (((s.move p r' vm).serve p svc).past x) q) :
    (s.sem x).Holds (s.past x) q ∧ (q = p ∧ r'.body.past x = true ∧ svc ≠ .term ∨
      q ≠ p ∧ ((s.move p r' vm).serve p svc).proc q = s.proc q) := by
  obtain ⟨⟨r₀, hr₀, hpast₀⟩, hqueue⟩ := h
  rcases proc_after hlt hr₀ with ⟨rfl, rfl, ht⟩ | ⟨hne, hq⟩ | ⟨b, _, _, rfl⟩
  · refine ⟨⟨(past_iff hp).mpr (hpast hpast₀), fun hm => hb ⟨x, hm⟩⟩, .inl ⟨rfl, hpast₀, ht⟩⟩
  · refine ⟨⟨⟨r₀, hq, hpast₀⟩, fun hm => hqueue ?_⟩, .inr ⟨hne, hr₀.trans hq.symm⟩⟩
    by_cases ht : svc = .term
    · subst ht
      obtain ⟨-, hd⟩ := proc_of_kill hr₀
      exact List.mem_filter.mpr ⟨hm, by simpa using hd⟩
    · rw [serve_sem_of_ne h1 h2 (fun he => absurd he h3) ht]
      exact hm
  · simp [Body.past, Control.past, Code.past] at hpast₀

/-- Who is past its P stays so when another process ends that is no ancestor of it. -/
theorem owned_kill (h : (s.sem x).Owned (s.past x))
    (hk : ∀ q, s.past x q → s.descends p s.nextPid q = false) :
    ((s.kill p).sem x).Owned ((s.kill p).past x) := by
  refine h.filter _ (fun q hq => ?_) fun q => ?_
  · rw [Bool.not_eq_true']
    exact hk q hq
  · exact past_kill.trans ⟨And.left, fun hq => ⟨hq, hk q hq⟩⟩

theorem move_same (hp : s.proc p = some r) : s.move p r s.vm = s := by
  rw [move, ← hp, Function.update_eq_self]

/-- The memory of a U-proc that does not take the step. -/
theorem remember_of_ne (hc : ∀ b', s.service (p, inp) = .create b' true → b' ≠ b)
    (hu : ∀ c, s.uproc p ≠ some (b, c)) : s.remember (p, inp) mem b = mem b := by
  have hstore : ∀ x, s.uproc p = some x →
      ((x.2.storing inp).elim mem fun y => mem.store x.1 y.1 y.2) b = mem b := by
    intro x hp
    have hne : b ≠ x.1 := fun he => hu x.2 (he ▸ hp)
    cases x.2.storing inp with
    | none => rfl
    | some y => exact Function.update_of_ne hne ..
  unfold remember
  dsimp only
  cases hs : s.service (p, inp) with
  | create a ok =>
      cases ok with
      | true => exact Function.update_of_ne (hc a hs).symm ..
      | false =>
          cases hp : s.uproc p with
          | none => rfl
          | some x => exact hstore x hp
  | none | initSemaphores | passeren | verhogen | term =>
      cases hp : s.uproc p with
      | none => rfl
      | some x => exact hstore x hp

theorem remember_other (hf : Flat s vacant busy mem) (hst : Steps s p inp s')
    (hprep : ∀ a, s.prepares p = some a → a ∈ vacant) (hne : q ≠ p)
    (hq : s.uproc q = some (b, d)) : s.remember (p, inp) mem b = mem b := by
  have hord := hf.paged.orderly
  apply remember_of_ne
  · rintro b' hc rfl
    exact hord.inUse q b' d hq (hprep b' (hst.prepares hc))
  · intro c hp
    exact hne (hord.distinct q p b d c hq hp)

/-- The memory of the U-proc that takes the step. -/
theorem remember_self (hs : s.service (p, inp) = svc) (hu : s.uproc p = some (a, c))
    (hc : ∀ b, svc ≠ .create b true) : s.remember (p, inp) mem a =
      (c.storing inp).elim (mem a) fun y => Function.update (mem a) y.1 y.2 := by
  rw [remember_uproc hs hu hc]
  cases c.storing inp with
  | none => rfl
  | some y => exact Function.update_self ..

theorem doing_congr (h : s'.proc t.owner = s.proc t.owner)
    (hm : ∀ b d, s.uproc t.owner = some (b, d) → mem' b = mem b) (hd : s.doing mem D t) :
    s'.doing mem' D t := by
  obtain ⟨a, c, code, hu, hc, hD⟩ := hd
  refine ⟨a, c, code, (uproc_congr h).trans hu, hc, ?_⟩
  rw [hm a c hu]
  exact hD

theorem entries_uproc (h : s.uproc p = some (a, c)) :
    s.entries x (p, inp) mem = (c.entries x a s.vm (mem a) inp).map fun t => (p, t) := by
  simp only [entries, h, Option.toList_some, List.flatMap_singleton]

end State

/-- A call does not store where it makes no entry. -/
theorem storing_of_silent {x : Sem} {a : Asid} {vm : Vm} {c : Control}
    {inp : Input} (hpast : c.past x = true) (hs : c.Silent x a vm inp) : c.storing inp = none := by
  cases c with
  | pager | sys2 | sys6 => rfl
  | run code =>
      cases code with
      | user | writeTerminal => cases inp <;> first | rfl | exact absurd hpast Bool.false_ne_true
      | readTerminal buf pt =>
          cases pt with
          | passeren | receive | verhogen => rfl
          | store n ch =>
              cases inp with
              | go =>
                  have hnil := hs fun _ => 0
                  have hpast' : (Code.readTerminal buf (.store n ch)).past x = true := hpast
                  simp only [Control.entries, if_pos hpast', Code.entries] at hnil
                  by_cases hn : (n : ℤ) < maxStrLeng
                  · rw [if_pos hn] at hnil
                    exact absurd hnil (List.cons_ne_nil _ _)
                  · simp only [Control.storing, Code.storing, if_neg hn]
              | load | store | refill | fault | trap | syscall | status | created => rfl

section Step
variable {s : State} {p q : ℕ} {inp : Input} {r r' : Proc} {vm : Vm} {x : Sem} {svc : Service}
  {a : Asid} {c c' : Control} {parent : ℕ} {D : (Word → Byte) → Code → List TermEntry → Prop}
  {complete : List TermEntry → Prop} {ok : Code → Input → Prop} {log : List (ℕ × TermEntry)}
  {mem : Memory} {vacant : Set Asid} {busy : Busy} {code code' : Code}

/-- A step of a process of a run, after which the others remember what they did. -/
structure Acts (s : State) (mem : Memory) (p : ℕ) (inp : Input) (r r' : Proc) (vm : Vm)
    (svc : Service) : Prop where
  proc : s.proc p = some r
  bound : ∀ q r, s.proc q = some r → q < s.nextPid
  unblocked : ¬ s.Blocked p
  service : s.service (p, inp) = svc
  parent : r'.parent = r.parent
  started : svc ≠ .initSemaphores
  term : svc = .term → s.move p r' vm = s
  others : ∀ q b d, q ≠ p → s.uproc q = some (b, d) → s.remember (p, inp) mem b = mem b

namespace Acts

theorem lt (h : Acts s mem p inp r r' vm svc) : p < s.nextPid := h.bound _ _ h.proc

theorem fresh (h : Acts s mem p inp r r' vm svc) : s.proc s.nextPid = none := by
  cases hp : s.proc s.nextPid with
  | none => rfl
  | some r => exact absurd (h.bound _ _ hp) (lt_irrefl _)

/-- Who takes a step past its P has the semaphore. -/
theorem holds (h : Acts s mem p inp r r' vm svc) (hpast : r.body.past x = true) :
    (s.sem x).Holds (s.past x) p :=
  ⟨(State.past_iff h.proc).mpr hpast, fun hm => h.unblocked ⟨x, hm⟩⟩

/-- What another process has done is not touched. -/
theorem doing (h : Acts s mem p inp r r' vm svc) {s' : State} {t : Session ℕ TermEntry}
    (hne : t.owner ≠ p) (hs : s'.proc t.owner = s.proc t.owner) (hd : s.doing mem D t) :
    s'.doing (s.remember (p, inp) mem) D t :=
  State.doing_congr hs (fun b d hq => h.others _ b d hne hq) hd

/-- The semaphore keeps a holder, if only processes outside end. -/
theorem owned (h : Acts s mem p inp r r' vm svc) (ho : (s.sem x).Owned (s.past x))
    (hc : State.Crosses x svc (r.body.past x) (r'.body.past x))
    (hk : svc = .term → ∀ q, s.past x q → s.descends p s.nextPid q = false) :
    (((s.move p r' vm).serve p svc).sem x).Owned (((s.move p r' vm).serve p svc).past x) := by
  by_cases ht : svc = .term
  · subst ht
    rw [h.term rfl]
    exact State.owned_kill ho (hk rfl)
  · exact State.owned_step ho h.fresh h.proc h.unblocked h.parent hc fun he => absurd he ht

end Acts

namespace TerminalLog

/-- A step that neither requests the semaphore nor makes an entry. -/
theorem quiet (h : TerminalLog x D complete s (mem, log)) (ht : Acts s mem p inp r r' vm svc)
    (h1 : svc ≠ .passeren x) (h2 : svc ≠ .verhogen x) (he : s.entries x (p, inp) mem = [])
    (hpast : r'.body.past x = r.body.past x)
    (hk : svc = .term → ∀ q, s.past x q → s.descends p s.nextPid q = false)
    (hv : Surviving ((s.move p r' vm).serve p svc))
    (hd : r'.body.past x = true → svc ≠ .term → ∀ es, s.doing mem D ⟨p, es⟩ →
      ((s.move p r' vm).serve p svc).doing (s.remember (p, inp) mem) D ⟨p, es⟩) :
    TerminalLog x D complete ((s.move p r' vm).serve p svc)
      (s.enter x (p, inp) ((s.move p r' vm).serve p svc) (mem, log)) := by
  have hlog : (s.enter x (p, inp) ((s.move p r' vm).serve p svc) (mem, log)).2 = log := by
    rw [State.enter, he, State.granted_none ht.service h1 h2]
    simp
  have hafter := fun q (hq : (((s.move p r' vm).serve p svc).sem x).Holds
      (((s.move p r' vm).serve p svc).past x) q) => State.holds_after ht.proc ht.unblocked ht.lt h1 h2
    ht.started (fun hpast' => hpast.symm.trans hpast') hq
  refine { owned := ?_, surviving := hv, waiting := fun q hq => ?_, logged := ?_ }
  · apply ht.owned h.owned _ hk
    rw [hpast]
    exact .stays h1 h2 fun he => absurd he ht.started
  · exact waiting_after h.waiting ht.bound ht.unblocked (fun hsvc => absurd hsvc h1) ht.lt hq
  · rw [hlog]
    apply h.logged.stays (State.value_after h1 h2 ht.started)
    · exact fun q hq => (hafter q hq).1
    · intro t hq hdo
      rcases (hafter t.owner hq).2 with ⟨he, hpast', hterm⟩ | ⟨hne, hsame⟩
      · obtain ⟨owner, es⟩ := t
        obtain rfl : owner = p := he
        exact hd hpast' hterm es hdo
      · exact ht.doing hne hsame hdo

/-- A step of the Instantiator. -/
theorem step_test {pt pt' : TestPoint} (hx : x.OfTerminal)
    (h : TerminalLog x D complete s (mem, log))
    (ht : Acts s mem p inp ⟨parent, .test pt⟩ ⟨parent, .test pt'⟩ vm svc)
    (hpt : pt = .passeren ∨ pt = .term) (hm : TestMoves s.vm pt inp pt' vm svc)
    (hk : svc = .term → ∀ q, s.past x q → s.descends p s.nextPid q = false) :
    TerminalLog x D complete ((s.move p ⟨parent, .test pt'⟩ vm).serve p svc)
      (s.enter x (p, inp) ((s.move p ⟨parent, .test pt'⟩ vm).serve p svc) (mem, log)) := by
  have hpast : (Body.test pt).past x = false ∧ (Body.test pt').past x = false := by
    rcases hpt with rfl | rfl <;> cases hm <;> cases x <;> exact ⟨rfl, rfl⟩
  have hsvc : svc = .passeren .masterSemaphore ∨ svc = .term := by
    rcases hpt with rfl | rfl
    · cases hm
      exact .inl rfl
    · cases hm
      exact .inr rfl
  have hmaster := hx.ne.2.1
  have hsame : (Body.test pt').past x = (Body.test pt).past x := hpast.2.trans hpast.1.symm
  apply h.quiet ht
  · rcases hsvc with rfl | rfl
    · simpa using hmaster.symm
    · simp
  · rcases hsvc with rfl | rfl
    · simp
    · simp
  · simp [State.entries, State.uproc, ht.proc]
  · exact hsame
  · exact hk
  · exact h.surviving.step_test ht.lt
  · intro hpast'
    rw [show (Body.test pt').past x = false from hpast.2] at hpast'
    exact absurd hpast' Bool.false_ne_true

end TerminalLog

/-- The session of a U-proc goes on with what its next statement has done. -/
theorem State.doing_self {es es' : List TermEntry} {mem' : Memory} (hlt : p < s.nextPid)
    (ht : svc ≠ .term) (hu : s.uproc p = some (a, c)) (hd : s.doing mem D ⟨p, es⟩)
    (hcode : ∀ code, c.code = some code → D (mem a) code es →
      ∃ code', c'.code = some code' ∧ D (mem' a) code' es') :
    ((s.move p ⟨parent, .uproc a c'⟩ vm).serve p svc).doing mem' D ⟨p, es'⟩ := by
  obtain ⟨a₀, c₀, code, hu₀, hc, hD⟩ := hd
  rw [hu, Option.some.injEq, Prod.mk.injEq] at hu₀
  obtain ⟨rfl, rfl⟩ := hu₀
  obtain ⟨code', hc', hD'⟩ := hcode code hc hD
  exact ⟨a, c', code', uproc_self hlt ht, hc', hD'⟩

theorem State.doing_run {es : List TermEntry} (hu : s.uproc p = some (a, .run code)) :
    s.doing mem D ⟨p, es⟩ ↔ D (mem a) code es := by
  constructor
  · rintro ⟨a₀, c₀, code₀, hu₀, hc, hD⟩
    rw [hu, Option.some.injEq, Prod.mk.injEq] at hu₀
    obtain ⟨rfl, rfl⟩ := hu₀
    obtain rfl : code = code₀ := Option.some.inj hc
    exact hD
  · exact fun hD => ⟨a, _, code, hu, rfl, hD⟩

/-- A P or a V moves nobody but its process. -/
theorem State.past_other {σ : Semaphore ℕ} (hq : q ≠ p) :
    ((s.move p r' vm).setSem x σ).past x q ↔ s.past x q :=
  past_congr (Function.update_of_ne hq ..)

namespace TerminalLog

theorem step_quiet (h : TerminalLog x D complete s (mem, log))
    (ht : Acts s mem p inp ⟨parent, .uproc a c⟩ ⟨parent, .uproc a c'⟩ vm svc)
    (hv : Surviving ((s.move p ⟨parent, .uproc a c'⟩ vm).serve p svc))
    (hk : svc = .term → ∀ q, s.past x q → s.descends p s.nextPid q = false)
    (hcr : c.past x = true → ∀ b, svc ≠ .create b true)
    (h1 : svc ≠ .passeren x) (h2 : svc ≠ .verhogen x) (he : c.Silent x a s.vm inp)
    (hpast : c'.past x = c.past x) (hcode : c.past x = true → c'.code = c.code) :
    TerminalLog x D complete ((s.move p ⟨parent, .uproc a c'⟩ vm).serve p svc)
      (s.enter x (p, inp) ((s.move p ⟨parent, .uproc a c'⟩ vm).serve p svc) (mem, log)) := by
  have hu := State.uproc_of_proc ht.proc
  apply h.quiet ht h1 h2 _ hpast hk hv
  · intro hpast' hterm es hd
    have hin : c.past x = true := hpast.symm.trans hpast'
    have hmem : s.remember (p, inp) mem a = mem a := by
      rw [State.remember_self ht.service hu (hcr hin), storing_of_silent hin he]
      rfl
    apply State.doing_self ht.lt hterm hu hd
    intro code hc hD
    refine ⟨code, (hcode hin).trans hc, ?_⟩
    rw [hmem]
    exact hD
  · rw [State.entries_uproc hu, he, List.map_nil]

/-- A statement of the call that has the semaphore. -/
theorem step_works (hD : Discipline x ok D complete) (h : TerminalLog x D complete s (mem, log))
    (ht : Acts s mem p inp ⟨parent, .uproc a (.run code)⟩ ⟨parent, .uproc a (.run code')⟩ vm .none)
    (hv : Surviving ((s.move p ⟨parent, .uproc a (.run code')⟩ vm).serve p .none))
    (hok : ok code inp) (hload : ∀ va c, s.vm.load a va = some c → c = mem a va)
    (hw : Works a s.vm code inp code' vm) (hpast : code.past x = true)
    (hpast' : code'.past x = true) :
    TerminalLog x D complete ((s.move p ⟨parent, .uproc a (.run code')⟩ vm).serve p .none)
      (s.enter x (p, inp)
        ((s.move p ⟨parent, .uproc a (.run code')⟩ vm).serve p .none) (mem, log)) := by
  have hu := State.uproc_of_proc ht.proc
  have hlog : (s.enter x (p, inp)
      ((s.move p ⟨parent, .uproc a (.run code')⟩ vm).serve p .none) (mem, log)).2 =
        log ++ (code.entries a s.vm (mem a) inp).map fun t => (p, t) := by
    rw [State.enter, State.entries_uproc hu, Control.entries, if_pos hpast,
      State.granted_none ht.service (by simp) (by simp)]
    simp
  have hmem : s.remember (p, inp) mem a = code.after inp (mem a) :=
    State.remember_self ht.service hu (by simp)
  have hcross : (Body.uproc a (.run code')).past x = (Body.uproc a (.run code)).past x :=
    hpast'.trans hpast.symm
  refine { owned := ?_, surviving := hv, waiting := fun q hq => ?_, logged := ?_ }
  · apply ht.owned h.owned _ fun he => absurd he (by simp)
    rw [hcross]
    exact .stays (by simp) (by simp) (by simp)
  · exact waiting_after h.waiting ht.bound ht.unblocked (fun hsvc => by simp at hsvc) ht.lt hq
  · rw [hlog]
    apply h.logged.enters h.owned.toMutex (ht.holds hpast)
    · rfl
    · intro q hq
      exact (State.holds_after ht.proc ht.unblocked ht.lt (by simp) (by simp) (by simp)
        (fun _ => hpast) hq).1
    · rintro ⟨owner, es⟩ rfl hdo
      have hnext := hD.works hw hok hload ((State.doing_run hu).mp hdo)
      refine ⟨hD.goesOn hnext, (State.doing_run (uproc_self ht.lt (by simp))).mpr ?_⟩
      change D (s.remember (owner, inp) mem a) code' _
      rw [hmem]
      exact hnext

/-- The P of a call. -/
theorem step_starts (hD : Discipline x ok D complete) (h : TerminalLog x D complete s (mem, log))
    (ht : Acts s mem p inp ⟨parent, .uproc a (.run code)⟩ ⟨parent, .uproc a (.run code')⟩ vm
      (.passeren x))
    (hv : Surviving ((s.move p ⟨parent, .uproc a (.run code')⟩ vm).serve p (.passeren x)))
    (hst : Starts code code' x) :
    TerminalLog x D complete ((s.move p ⟨parent, .uproc a (.run code')⟩ vm).serve p (.passeren x))
      (s.enter x (p, inp)
        ((s.move p ⟨parent, .uproc a (.run code')⟩ vm).serve p (.passeren x)) (mem, log)) := by
  have hu := State.uproc_of_proc ht.proc
  obtain ⟨hpast, hpast'⟩ := hst.past
  have hself : ((s.move p ⟨parent, .uproc a (.run code')⟩ vm).serve p (.passeren x)).uproc p =
      some (a, .run code') := uproc_self ht.lt (by simp)
  have hsem : ((s.move p ⟨parent, .uproc a (.run code')⟩ vm).serve p (.passeren x)).sem x =
      (s.sem x).passeren p := State.setSem_self
  have hentries : s.entries x (p, inp) mem = [] := by
    have hrun : (Control.run code).past x = false := hpast
    rw [State.entries_uproc hu, silent_of_not_past hrun, List.map_nil]
  obtain ⟨t, hopen, hdo⟩ := hD.starts hst (s.remember (p, inp) mem a)
  refine { owned := ?_, surviving := hv, waiting := fun q hq => ?_, logged := ?_ }
  · apply ht.owned h.owned _ fun he => absurd he (by simp)
    change State.Crosses x _ (code.past x) (code'.past x)
    rw [hpast, hpast']
    exact .passeren
  · exact waiting_after h.waiting ht.bound ht.unblocked
      (fun _ => ⟨a, _, rfl, code, code', rfl, hst⟩) ht.lt hq
  · rw [hsem]
    by_cases hval : 0 < (s.sem x).value
    · have hlog : (s.enter x (p, inp)
          ((s.move p ⟨parent, .uproc a (.run code')⟩ vm).serve p (.passeren x)) (mem, log)).2 =
            log ++ [(p, t)] := by
        have hgrant : s.granted x (p, inp) = some p := by
          unfold State.granted
          rw [ht.service]
          exact if_pos ⟨rfl, hval⟩
        rw [State.enter, hentries, hgrant, Option.bind_some, State.opening, hself, Option.bind_some]
        change log ++ [] ++ ((code'.opening _).map fun t => (p, t)).toList = _
        rw [hopen, List.append_nil]
        rfl
      rw [hlog]
      apply h.logged.takes h.owned.toMutex hval fun q hq => State.past_other hq
      · exact hD.goesOn hdo
      · exact (State.doing_run hself).mpr hdo
    · have hlog : (s.enter x (p, inp)
          ((s.move p ⟨parent, .uproc a (.run code')⟩ vm).serve p (.passeren x)) (mem, log)).2 =
            log := by
        have hgrant : s.granted x (p, inp) = none := by
          unfold State.granted
          rw [ht.service]
          exact if_neg fun hand => hval hand.2
        rw [State.enter, hentries, hgrant]
        simp
      rw [hlog]
      apply h.logged.waits hval fun q hq => State.past_other hq
      intro t' hne hd
      exact ht.doing hne (Function.update_of_ne hne ..) hd

/-- The V of a call. -/
theorem step_ends (hD : Discipline x ok D complete) (h : TerminalLog x D complete s (mem, log))
    (ht : Acts s mem p .go ⟨parent, .uproc a (.run code)⟩ ⟨parent, .uproc a (.run .user)⟩ vm
      (.verhogen x))
    (hv : Surviving ((s.move p ⟨parent, .uproc a (.run .user)⟩ vm).serve p (.verhogen x)))
    (he : Ends code x) :
    TerminalLog x D complete ((s.move p ⟨parent, .uproc a (.run .user)⟩ vm).serve p (.verhogen x))
      (s.enter x (p, .go)
        ((s.move p ⟨parent, .uproc a (.run .user)⟩ vm).serve p (.verhogen x)) (mem, log)) := by
  have hu := State.uproc_of_proc ht.proc
  have hsem : ((s.move p ⟨parent, .uproc a (.run .user)⟩ vm).serve p (.verhogen x)).sem x =
      (s.sem x).verhogen := State.setSem_self
  have hnot : ¬ ((s.move p ⟨parent, .uproc a (.run .user)⟩ vm).serve p (.verhogen x)).past x p := by
    rw [State.past_iff (State.proc_self (Nat.ne_of_lt ht.lt) (by simp))]
    exact Bool.false_ne_true
  have hentries : s.entries x (p, .go) mem =
      (code.entries a s.vm (mem a) .go).map fun t => (p, t) := by
    rw [State.entries_uproc hu, Control.entries, if_pos he.past]
  have hgrant : s.granted x (p, .go) = (s.sem x).queue.head? := by
    unfold State.granted
    rw [ht.service]
    exact if_pos rfl
  refine { owned := ?_, surviving := hv, waiting := fun q hq => ?_, logged := ?_ }
  · apply ht.owned h.owned _ fun he => absurd he (by simp)
    change State.Crosses x _ (code.past x) false
    rw [he.past]
    exact .verhogen
  · exact waiting_after h.waiting ht.bound ht.unblocked (fun hsvc => by simp at hsvc) ht.lt hq
  · rw [hsem, State.enter, hentries, hgrant]
    apply h.logged.gives h.owned.toMutex (ht.holds he.past) hnot fun q hq => State.past_other hq
    · rintro ⟨owner, es⟩ rfl hdo
      exact hD.ends he ((State.doing_run hu).mp hdo)
    · intro w hw
      obtain ⟨b, d, hw', code₀, code', rfl, hst⟩ := h.waiting w hw
      have hne : w ≠ p := fun he => ht.unblocked ⟨x, he ▸ hw⟩
      have hsame : ((s.move p ⟨parent, .uproc a (.run .user)⟩ vm).serve p (.verhogen x)).uproc w =
          some (b, .run code') := (uproc_congr (Function.update_of_ne hne ..)).trans hw'
      obtain ⟨t, hopen, hdo⟩ := hD.starts hst (s.remember (p, .go) mem b)
      refine ⟨t, ?_, hD.goesOn hdo, (State.doing_run hsame).mpr hdo⟩
      rw [State.opening, hsame]
      exact hopen

/-- The discipline of the calls makes the log a sequence of calls. -/
theorem step {s' : State} (hx : x.OfTerminal) (hD : Discipline x ok D complete)
    (h : TerminalLog x D complete s (mem, log)) (hf : Flat s vacant busy mem)
    (hs : s.exec p inp = some s') (hprep : ∀ a, s.prepares p = some a → a ∈ vacant)
    (hok : Complies ok s (p, inp)) (hc : CallsSurvive s (p, inp))
    (hk : s.service (p, inp) = .term → ∀ q, s.past x q → s.descends p s.nextPid q = false) :
    TerminalLog x D complete s' (s.enter x (p, inp) s' (mem, log)) := by
  have hst := State.steps_of_exec hs
  have hbound := hf.paged.orderly.bound
  have hothers : ∀ q b d, q ≠ p → s.uproc q = some (b, d) →
      s.remember (p, inp) mem b = mem b := fun q b d hne hq =>
    State.remember_other hf hst hprep hne hq
  cases hst with
  | @test parent pt pt' vm svc hp hb hsvc hm =>
      have hpt := hf.paged.testing p parent pt hp
      have hstart : svc ≠ .initSemaphores := by
        rcases hpt with rfl | rfl <;> cases hm <;> simp
      have hterm : svc = .term → s.move p ⟨parent, .test pt'⟩ vm = s := by
        rintro rfl
        cases hm
        exact State.move_same hp
      exact h.step_test hx ⟨hp, hbound, hb, hsvc, rfl, hstart, hterm, hothers⟩ hpt hm (hsvc ▸ hk)
  | @uproc parent a c _ _ _ hp =>
      obtain ⟨hb, c', vm, svc, hn, hsvc, hs'⟩ := State.exec_uproc hs hp
      rw [hs']
      clear hs' hs
      have hm := next_moves hn
      have hu := State.uproc_of_proc hp
      have hterm : svc = .term → s.move p ⟨parent, .uproc a c'⟩ vm = s := by
        rintro rfl
        cases hm
        exact State.move_same hp
      have ht : Acts s mem p inp ⟨parent, .uproc a c⟩ ⟨parent, .uproc a c'⟩ vm svc :=
        ⟨hp, hbound, hb, hsvc, rfl, hm.ne_initSemaphores, hterm, hothers⟩
      have hv := h.surviving.step_uproc ht.lt hp hm hc
      have hcr : c.past x = true → ∀ b, svc ≠ .create b true := by
        rintro hpast b rfl
        cases hm
        exact absurd hpast Bool.false_ne_true
      rw [hsvc] at hk
      cases next_uses hx hn with
      | outside hpast hpast' h1 h2 =>
          apply h.step_quiet ht hv hk hcr h1 h2 (silent_of_not_past hpast)
            (hpast'.trans hpast.symm)
          intro hpast₀
          rw [hpast] at hpast₀
          exact absurd hpast₀ Bool.false_ne_true
      | starts hst => exact h.step_starts hD ht hv hst
      | works hw hpast hpast' =>
          have hload : ∀ va c, s.vm.load a va = some c → c = mem a va := fun va c hl =>
            hf.backed.load hf.paged.coherent ⟨p, _, hu, rfl⟩ hl
          exact h.step_works hD ht hv (hok a _ hu) hload hw hpast hpast'
      | faults hpast hpast' hcode he h1 h2 =>
          exact h.step_quiet ht hv hk hcr h1 h2 he (hpast'.trans hpast.symm) fun _ => hcode
      | ends he => exact h.step_ends hD ht hv he
      | dies hpast hpast' _ hd =>
          -- nobody goes to `sys2` out of a call
          have hcross := hm.crosses_terminal hx (h.surviving.stays_out hu hm hc hx)
          rw [hpast, hpast'] at hcross
          cases hcross
          have hswap := hx.ne.1
          rcases hd with hd | hd
          · exact absurd hd (by simp)
          · exact absurd (Service.verhogen.inj hd) hswap

end TerminalLog
end Step

theorem Started.terminalLog {s : State} {x : Sem} (hx : x.OfTerminal)
    {D : (Word → Byte) → Code → List TermEntry → Prop} {complete : List TermEntry → Prop}
    {mem : Memory} (h : Started s) : TerminalLog x D complete s (mem, []) := by
  have hsem : s.sem x = ⟨1, []⟩ := by
    rw [h.sem x hx.ne.1]
    rcases hx with rfl | rfl
    · rfl
    · rfl
  have hnone : ∀ p, ¬ s.past x p := by
    rintro p ⟨⟨parent, body⟩, hr, hpast⟩
    cases (h.fresh p _ hr).1 with
    | test =>
        rcases hx with rfl | rfl
        · exact Bool.false_ne_true hpast
        · exact Bool.false_ne_true hpast
    | uproc => exact Bool.false_ne_true hpast
  refine { owned := ?_, surviving := ?_, waiting := ?_, logged := ?_ }
  · rw [hsem]
    refine { queued := ?_, nodup := List.nodup_nil, unique := ?_, value := .inr ⟨rfl, hnone⟩,
             owned := fun hz => absurd hz (by decide) }
    · exact fun q hq => absurd hq List.not_mem_nil
    · exact fun p q hp => absurd hp.1 (hnone p)
  · intro p a hi back pt y hp
    obtain ⟨parent, hproc⟩ := State.uproc_eq_some.mp hp
    exact absurd (uproc_fresh hproc (h.fresh p _ hproc).1 hp).2 (by simp)
  · intro q hq
    rw [hsem] at hq
    exact absurd hq List.not_mem_nil
  · rw [hsem]
    exact .nil rfl

/-- The log of every run in which the environment complies. -/
theorem terminalLog_reachable {x : Sem} (hx : x.OfTerminal) {ok : Code → Input → Prop}
    {D : (Word → Byte) → Code → List TermEntry → Prop} {complete : List TermEntry → Prop}
    (hD : Discipline x ok D complete)
    {y : (State × Set Asid) × (Memory × List (ℕ × TermEntry))}
    (h : ((terminalRuns x).restrict fun y e =>
      Complies ok y.1.1 e ∧ Undisturbed y.1 e).Reachable y) :
    (∃ busy, Flat y.1.1 y.1.2 busy y.2.1) ∧ TerminalLog x D complete y.1.1 y.2 := by
  refine h.invariant (I := fun y => (∃ busy, Flat y.1.1 y.1.2 busy y.2.1) ∧
    TerminalLog x D complete y.1.1 y.2) (fun y hy => ?_) fun y e y' _ ih hs => ?_
  · obtain ⟨⟨hinit, hvac⟩, hhist⟩ := hy
    rw [hvac, hhist]
    exact ⟨⟨.idle, hinit.flat⟩, hinit.toStarted.terminalLog hx⟩
  · obtain ⟨⟨busy, hflat⟩, hlog⟩ := ih
    obtain ⟨⟨hok, hund⟩, ⟨hprep, hexec, hvac⟩, hhist⟩ := hs
    have hstep := hflat.step hexec hprep hund.flash
    have hlog' := hlog.step hx hD hflat hexec hprep hok hund.survive
      fun ht => hund.outlive ht x hx
    rw [hvac, hhist]
    exact ⟨⟨_, hstep⟩, hlog'⟩

section Concrete

/-- No flash command fails, nobody ends, and nobody goes to `sys2` because of an access. -/
def undisturbed (s : State) (e : Event) : Bool :=
  calm s e && s.service e != .term &&
    match e.2, s.uproc e.1 with
    | .status w, some (_, .pager _ _ _) => w == 1
    | _, _ => true

theorem undisturbed_sound {y : State × Set Asid} {e : Event} (h : undisturbed y.1 e = true) :
    Undisturbed y e := by
  simp only [undisturbed, Bool.and_eq_true, bne_iff_ne] at h
  refine ⟨fun a hi back pt w hu hw => ?_, callsSurvive_of_calm h.1.1, fun ht => absurd ht h.1.2⟩
  have hone := h.2
  rw [hw, hu] at hone
  exact eq_of_beq hone

theorem startState_unused {a b : Asid} {flash : Word → BitVec 24 → Page} :
    (startState a b flash).unused = (((Finset.univ.erase a).erase b : Finset Asid) : Set Asid) := by
  have h2 : (startState a b flash).uproc 2 = some (a, .run .user) := rfl
  have h3 : (startState a b flash).uproc 3 = some (b, .run .user) := rfl
  ext c
  simp only [State.unused, Set.mem_ofPred_eq, Finset.coe_erase, Finset.coe_univ, Set.mem_sdiff,
    Set.mem_univ, true_and, Set.mem_singleton_iff]
  constructor
  · intro h
    constructor
    · rintro rfl
      exact h 2 _ h2
    · rintro rfl
      exact h 3 _ h3
  · rintro ⟨ha, hb⟩ p d hp
    simp only [State.uproc, startState] at hp
    split_ifs at hp <;> simp at hp
    · exact ha hp.1.symm
    · exact hb hp.1.symm

/-- A run of two U-procs with its memories and its log. -/
def logOf (x : Sem) (ok : State → Event → Bool) (a b : Asid) (flash : Word → BitVec 24 → Page)
    (es : List Event) : Option ((State × Finset Asid) × (Memory × List (ℕ × TermEntry))) :=
  State.track (fun s e s' h => s.enter x e s' h) ok es
    ((startState a b flash, (Finset.univ.erase a).erase b), (flashMemory flash, []))

theorem logOf_reachable {x : Sem} {ok : State → Event → Bool}
    {P : (State × Set Asid) × (Memory × List (ℕ × TermEntry)) → Event → Prop}
    (hok : ∀ y e, ok y.1.1 e = true → P y e) {a b : Asid} (hab : a ≠ b)
    {flash : Word → BitVec 24 → Page} {es : List Event}
    {y : (State × Finset Asid) × (Memory × List (ℕ × TermEntry))}
    (h : logOf x ok a b flash es = some y) :
    ((terminalRuns x).restrict P).Reachable ((y.1.1, (y.1.2 : Set Asid)), y.2) := by
  have hstart : Unpaged (startState a b flash) := startState_unpaged hab
  refine track_reachable hok ?_ h
  exact .init ⟨⟨hstart, startState_unused.symm⟩, rfl⟩

end Concrete
end PandOSsh.SupportLevel
