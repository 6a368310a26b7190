import PandOSsh.Library.Processes
import PandOSsh.Nucleus.ClockTick
import PandOSsh.Nucleus.Pids
import PandOSsh.Nucleus.RoundRobin
import PandOSsh.Nucleus.Semaphores
import PandOSsh.Nucleus.Termination

/-!
# The Nucleus as a machine of processes

What the Nucleus is for: a family of processes that wait on semaphores, one of
them on the CPU whenever one can run, chosen by priority. `Demands` says what
each action asks of that machine. The machine knows no PCBs to recycle, no queue
of ready processes and no descriptors; the Nucleus on pointers refines it.
-/

namespace PandOSsh.Nucleus
open Library

/-- What NSYS1 fixes, next to the parent. -/
structure Attributes where
  pid : Word
  prio : ℤ
  supportStruct : Word

def attributes (f : PcbFields) : Attributes := ⟨f.pPid, f.pPrio, f.pSupportStruct⟩

section Demands
variable [Layout]

/-- What an action asks for, and whether the CPU is given away. -/
inductive Demands (e : Entry) (m : Machine Pcb Word Attributes) :
    Action → Processes.Op Pcb Word Attributes → Bool → Prop
  | plt : Demands e m .plt .none true
  | yield : Demands e m .yield .none true
  | it : Demands e m .it (.release pseudoClockSem) true
  | deviceNone {n : ℕ} (h : served n e.dev = none) :
      Demands e m (.device n) .none m.running.isNone
  | device {n i : ℕ} {ackAddr status : Word} (h : served n e.dev = some (ackAddr, i, status)) :
      Demands e m (.device n) (.verhogen (deviceSemaphore i)) m.running.isNone
  | createFull {a1 a2 a3 : Word} (h : ∀ c, m.Live c) :
      Demands e m (.createProcess a1 a2 a3) .none false
  | create {a1 a2 a3 pid : Word} {p c : Pcb} (hp : m.running = some p) (hc : ¬ m.Live c) :
      Demands e m (.createProcess a1 a2 a3) (.create p c ⟨pid, a2.toInt, a3⟩) false
  | termSelf {p : Pcb} (hp : m.running = some p) : Demands e m (.termProcess 0) (.kill p) true
  | term {a1 : Word} {p : Pcb} {f : Info Pcb Attributes} (ha : a1 ≠ 0) (hp : m.info p = some f)
      (h : f.data.pid = a1) : Demands e m (.termProcess a1) (.kill p) true
  | termUnknown {a1 : Word} (ha : a1 ≠ 0) (h : ∀ p f, m.info p = some f → f.data.pid ≠ a1) :
      Demands e m (.termProcess a1) .none false
  | die {t : Fin 2} {p : Pcb} {f : Info Pcb Attributes} (hp : m.running = some p)
      (hf : m.info p = some f) (h : f.data.supportStruct = null) :
      Demands e m (.passUp t) (.kill p) true
  | passUp {t : Fin 2} {p : Pcb} {f : Info Pcb Attributes} (hp : m.running = some p)
      (hf : m.info p = some f) (h : f.data.supportStruct ≠ null) :
      Demands e m (.passUp t) .none false
  | passeren {a1 : Word} {p : Pcb} (hp : m.running = some p) :
      Demands e m (.passeren a1) (.passeren p a1) (decide ((m.sem a1).value ≤ 0))
  | verhogen {a1 : Word} : Demands e m (.verhogen a1) (.verhogen a1) false
  | doio {a1 a2 : Word} {p : Pcb} (hp : m.running = some p) :
      Demands e m (.doio a1 a2) (.wait p (deviceSemaphore (semIndex a1))) true
  | clockWait {p : Pcb} (hp : m.running = some p) :
      Demands e m .clockWait (.wait p pseudoClockSem) true
  | getTime : Demands e m .getTime .none false
  | getSupportPtr : Demands e m .getSupportPtr .none false
  | getProcessId {a1 : Word} : Demands e m (.getProcessId a1) .none false

/-- The machine when an exception is taken: the processes may have written to the
semaphores in their memory. -/
def presented (e : Entry) (m : Machine Pcb Word Attributes) : Machine Pcb Word Attributes :=
  { m with toProcesses := m.assign fun a =>
      if isDeviceSemaphore a then (m.sem a).value else (e.mem a).toInt }

/-- NSYS10 gives the CPU to another process even if its caller has a higher priority. -/
def yielder (e : Entry) (m : Machine Pcb Word Attributes) : Option Pcb :=
  match action e with
  | .yield => m.running
  | _ => none

/-- The runs of the machine: one process at first, then what the entries demand. A CPU that
is given away goes to a process of the highest priority. -/
def machine : System (Machine Pcb Word Attributes) Entry where
  init m := m.Sound firstPcb ∧ m.Scheduled ∧ ∀ p, m.Live p → p = firstPcb
  step m e m' := ∃ o away, Demands e (presented e m) (action e) o away ∧
    m'.toProcesses = o.run (presented e m).toProcesses ∧
    if away then m'.Scheduled ∧ m'.ByPriority Attributes.prio (yielder e m)
    else m'.running = m.running ∧ ∃ p, m.running = some p

end Demands

section Machine
variable [Layout] {e : Entry} {m m' : Machine Pcb Word Attributes} {a : Action}
  {o : Processes.Op Pcb Word Attributes} {away : Bool} {root : Pcb}

theorem Demands.allowed (h : Demands e m a o away) (hs : m.Scheduled) : o.Allowed m.toProcesses := by
  cases h with
  | create hp hc => exact ⟨(hs.runnable _ hp).1, hc⟩
  | passeren hp | doio hp | clockWait hp => exact hs.runnable _ hp
  | _ => trivial

/-- Who keeps the CPU can use it. -/
theorem Demands.runnable {p : Pcb} (h : Demands e m a o away) (ha : away = false)
    (hr : m.Runnable p) : (o.run m.toProcesses).Runnable p := by
  have hshrink : ∀ x, ∀ f : Semaphore Pcb → Semaphore Pcb,
      (f (m.sem x)).queue.Sublist (m.sem x).queue → (m.modify x f).Runnable p := by
    intro x f hf
    refine hr.mono hr.1 fun y hy => ?_
    rw [Processes.waits_modify] at hy
    split at hy
    · next he => exact he ▸ hf.subset hy
    · exact hy
  cases h with
  | create => exact hr.mono hr.1.create fun x hx => hx
  | device | verhogen =>
      refine hshrink _ _ ?_
      rw [Semaphore.queue_verhogen]
      exact List.tail_sublist _
  | passeren hq =>
      refine hshrink _ _ ?_
      rw [Semaphore.passeren, if_pos (not_le.mp (of_decide_eq_false ha))]
  | plt | yield | it | termSelf | term | die | doio | clockWait => cases ha
  | _ => exact hr

theorem machine_step (h : machine.step m e m') (hf : m.Sound root) (hs : m.Scheduled) :
    m'.Sound root ∧ m'.Scheduled := by
  obtain ⟨o, away, hd, hm, haway⟩ := h
  have hf' : (presented e m).Sound root := hf.assign _
  have hs' : (presented e m).Scheduled := ⟨hs.runnable, hs.idle⟩
  refine ⟨hm ▸ hf'.run (hd.allowed hs'), ?_⟩
  cases away with
  | true => exact haway.1
  | false =>
      obtain ⟨hrun, p, hp⟩ := haway
      refine ⟨fun q hq => ?_, fun hn => absurd (hrun.symm.trans hn) (by simp [hp])⟩
      rw [hm]
      have hq' : m.running = some q := hrun.symm.trans hq
      exact hd.runnable rfl (hs'.runnable q hq')

/-- Everybody descends from the first process and waits at most once, and the CPU is
given to who can use it. -/
theorem machine_invariant (h : machine.Reachable m) : m.Sound firstPcb ∧ m.Scheduled :=
  h.invariant (fun _ hm => ⟨hm.1, hm.2.1⟩) fun _ _ _ _ hm hs => machine_step hs hm.1 hm.2

end Machine

section View
variable {l l₁ l' : Kernel Lists} {key : Word} {p q : Pcb}

/-- What the queues and the fields of the PCBs say about the processes. -/
def processes {Q : Type} (qs : Queues) (k : Kernel Q) : Machine Pcb Word Attributes where
  info q := if q ∈ qs.free then none else some ⟨(k.pcb q).pParent, attributes (k.pcb q)⟩
  sem a := ⟨(k.mem a).toInt, qs.waiters a⟩
  running := k.currProc

def view (l : Kernel Lists) : Machine Pcb Word Attributes := processes l.lists.queues l

theorem view_sem (l : Kernel Lists) (a : Word) : (view l).sem a = semaphore a l := by
  rw [semaphore, ← Lists.queues_waiters]
  rfl

theorem view_info (l : Kernel Lists) (q : Pcb) : (view l).info q =
    if q ∈ l.lists.free then none else some ⟨(l.pcb q).pParent, attributes (l.pcb q)⟩ := rfl

theorem view_live : (view l).Live q ↔ q ∉ l.lists.free := by
  rw [Processes.Live, view_info]
  split <;> simp [*]

theorem view_waits : (view l).Waits q key ↔ q ∈ l.lists.waiters key := by
  rw [Processes.Waits, view_sem]
  rfl

theorem WF.view_child (hw : WF l) : (view l).Child p q ↔ q ∈ l.lists.child p := by
  rw [Processes.Child, view_info, hw.tree.child_iff]
  constructor
  · rintro ⟨d, hd⟩
    split at hd
    · cases hd
    · rw [Option.some.injEq, Info.mk.injEq] at hd
      exact hd.1
  · intro hp
    have hf : q ∉ l.lists.free := fun hf => by
      rw [(hw.tree.free q hf).2] at hp
      cases hp
    exact ⟨_, by rw [if_neg hf, hp]⟩

theorem WF.view_below (hw : WF l) : (view l).Below p q ↔ Descendant l.lists p q := by
  have hc : (view l).Child = fun a b => b ∈ l.lists.child a := by
    funext a b
    exact propext hw.view_child
  rw [Processes.Below, hc]
  rfl

/-- Who is alive and waits nowhere is ready or on the CPU. -/
theorem WF.view_runnable (hw : WF l) (h1 : ∀ q, l.places q = 1) :
    (view l).Runnable q ↔ q ∈ l.lists.ready ∨ l.currProc = some q := by
  have hwait : (∀ x, ¬ (view l).Waits q x) ↔ q ∉ l.lists.blocked := by
    rw [hw.active.mem_blocked, not_exists]
    exact forall_congr' fun a => not_congr view_waits
  have hq := h1 q
  rw [Processes.Runnable, view_live, hwait, ← List.count_eq_zero, ← List.count_eq_zero,
    ← List.count_pos_iff]
  have hc : l.currProc = some q ↔ 0 < l.currProc.toList.count q := by
    rw [List.count_pos_iff, Option.mem_toList]
  rw [Kernel.places] at hq
  rw [hc]
  omega

theorem scheduled (hw : WF l) (h1 : ∀ q, l.places q = 1)
    (hi : l.currProc = none → l.lists.ready = []) : (view l).Scheduled where
  runnable _ hp := (hw.view_runnable h1).mpr (.inr hp)
  idle hn p hr := by
    rcases (hw.view_runnable h1).mp hr with hm | hc
    · rw [hi hn] at hm
      cases hm
    · exact absurd (hc.symm.trans hn) nofun

/-- Nothing has changed that is fixed when a process is created. -/
structure SameInfo (l l' : Kernel Lists) : Prop where
  free : l'.lists.free = l.lists.free
  pcb : ∀ q, (l'.pcb q).pParent = (l.pcb q).pParent ∧ attributes (l'.pcb q) = attributes (l.pcb q)

namespace SameInfo

theorem refl (l : Kernel Lists) : SameInfo l l := ⟨rfl, fun _ => ⟨rfl, rfl⟩⟩

theorem of_store (hs : l'.store = l.store) : SameInfo l l' :=
  ⟨congrArg (fun s => s.lists.free) hs, fun q => by simp only [Kernel.pcb, hs, and_self]⟩

theorem setMem {key w : Word} : SameInfo l (l.setMem key w) := .of_store rfl

theorem setDev {key w : Word} : SameInfo l (l.setDev key w) := .of_store rfl

theorem of_pcb {f : PcbFields} (hf : l'.lists.free = l.lists.free)
    (hp : ∀ q, l'.pcb q = if q = p then f else l.pcb q)
    (hs : f.pParent = (l.pcb p).pParent ∧ attributes f = attributes (l.pcb p)) :
    SameInfo l l' := by
  refine ⟨hf, fun q => ?_⟩
  rw [hp]
  split
  · next hq => rw [hq]; exact hs
  · exact ⟨rfl, rfl⟩

theorem trans (h : SameInfo l l₁) (h' : SameInfo l₁ l') : SameInfo l l' :=
  ⟨h'.free.trans h.free, fun q => ⟨(h'.pcb q).1.trans (h.pcb q).1, (h'.pcb q).2.trans (h.pcb q).2⟩⟩

theorem info (h : SameInfo l l') : (view l').info = (view l).info := by
  funext q
  rw [view_info, view_info, h.free, (h.pcb q).1, (h.pcb q).2]

/-- One semaphore has changed, at most. -/
theorem modify {f : Semaphore Pcb → Semaphore Pcb} (h : SameInfo l l')
    (hk : semaphore key l' = f (semaphore key l))
    (ho : ∀ a, key ≠ a → semaphore a l' = semaphore a l) :
    (view l').toProcesses = (view l).modify key f := by
  refine Processes.ext h.info (funext fun a => ?_)
  by_cases ha : a = key
  · rw [ha, Processes.modify_self, view_sem, view_sem, hk]
  · rw [Processes.modify_of_ne ha, view_sem, view_sem, ho a (Ne.symm ha)]

theorem keep (h : SameInfo l l') (hs : ∀ a, semaphore a l' = semaphore a l) :
    (view l').toProcesses = (view l).toProcesses :=
  Processes.ext h.info (funext fun a => by rw [view_sem, view_sem, hs])

end SameInfo
end View

section Moves
variable {l l₁ l' : Kernel Lists} {key : Word} {p q : Pcb}

theorem Dispatched.sameInfo (h : Dispatched l l') : SameInfo l l' := by
  cases h with
  | idle => exact .of_store rfl
  | load => exact ⟨rfl, fun _ => ⟨rfl, rfl⟩⟩

theorem Dispatched.view_eq (h : Dispatched l l') : (view l').toProcesses = (view l).toProcesses :=
  h.sameInfo.keep h.semaphore

theorem Resumed.sameInfo (h : Resumed l l') : SameInfo l l' := by
  cases h with
  | ldst => exact .of_store rfl
  | dispatch _ hd => exact hd.sameInfo

theorem Resumed.view_eq (h : Resumed l l') : (view l').toProcesses = (view l).toProcesses :=
  h.sameInfo.keep h.semaphore

theorem Requeued.sameInfo {t : Word} (h : Requeued p t l l') : SameInfo l l' :=
  .of_pcb h.free h.pcb ⟨rfl, rfl⟩

theorem Requeued.view_eq {t : Word} (h : Requeued p t l l') :
    (view l').toProcesses = (view l).toProcesses :=
  h.sameInfo.keep h.semaphore

theorem Blocked.sameInfo (h : Blocked key p l l') : SameInfo l l' :=
  .of_pcb h.queues.free h.pcb ⟨rfl, rfl⟩

theorem Blocked.view_eq (h : Blocked key p l l') :
    (view l').toProcesses = (view l).modify key (·.wait p) := by
  refine h.sameInfo.modify ?_ fun a ha => h.semaphore_ne ha
  rw [semaphore, semaphore, h.mem, h.queues.waiters, if_pos rfl]
  rfl

theorem Woken.sameInfo {s : ProcessorState} (h : Woken key p s l l') : SameInfo l l' :=
  .of_pcb h.free h.pcb ⟨rfl, rfl⟩

/-- The V that wakes somebody. -/
theorem Woken.view_eq {s : ProcessorState} (h : Woken key p s l l') (hm : l'.mem = l.mem) :
    (view l').toProcesses = (view l).modify key (·.verhogen) := by
  refine h.sameInfo.modify ?_ fun a ha => ?_
  · obtain ⟨ps, hps⟩ := List.head?_eq_some_iff.mp h.head
    rw [semaphore, semaphore, hm, h.waiters, if_pos rfl, hps]
    rfl
  · rw [semaphore, semaphore, hm, h.waiters, if_neg (Ne.symm ha)]

theorem WokenAll.sameInfo (h : WokenAll key l l') : SameInfo l l' := by
  induction h with
  | done => exact .refl _
  | wake h _ _ ih => exact h.sameInfo.trans ih

/-- The last statement of the loop over the waiters. -/
theorem WokenAll.view_eq (h : WokenAll key l l') :
    (view (l'.setMem key 0)).toProcesses = (view l).modify key (·.release) := by
  have hinfo : SameInfo l (l'.setMem key 0) := h.sameInfo.trans .setMem
  refine hinfo.modify ?_ fun a ha => (semaphore_setMem_ne 0 ha).trans (h.semaphore_ne ha)
  have hm : (l'.setMem key 0).mem key = 0 := Function.update_self ..
  have hw : (l'.setMem key 0).lists.waiters key = l'.lists.waiters key := rfl
  rw [semaphore, hm, hw, h.waiters, if_pos rfl]
  rfl

/-- The V that wakes nobody. -/
theorem view_verhogen (he : l.lists.waiters key = []) (hm : (l.mem key).toInt < 2 ^ 31 - 1) :
    (view (l.setMem key (l.mem key + 1))).toProcesses = (view l).modify key (·.verhogen) :=
  SameInfo.setMem.modify (semaphore_verhogen_empty he hm) fun _ ha => semaphore_setMem_ne _ ha

/-- The P that takes a unit. -/
theorem view_passeren (hv : 0 < (l.mem key).toInt) :
    (view (l.setMem key (l.mem key - 1))).toProcesses = (view l).modify key (·.passeren p) :=
  SameInfo.setMem.modify (semaphore_passeren_take hv) fun _ ha => semaphore_setMem_ne _ ha

theorem Created.view_eq {a1 a2 a3 : Word} {c : Pcb} (h : Created a1 a2 a3 p c l l') (hw : WF l) :
    (view l').toProcesses =
      (Processes.Op.create c p ⟨l.store.nextPid, a2.toInt, a3⟩).run (view l).toProcesses := by
  have hn := hw.nodup.of_append_left.of_append_left.of_append_left
  rw [h.free, List.nodup_cons] at hn
  refine Processes.ext (funext fun q => ?_) (funext fun a => ?_)
  · simp only [Processes.Op.run, Function.update_apply, view_info, h.pcb, h.free, List.mem_cons]
    by_cases hq : q = p
    · simp [hq, hn.1, attributes]
    · simp [hq]
  · rw [view_sem, h.semaphore]
    exact (view_sem l a).symm

variable [Layout]

theorem Killed.view_eq {D : Finset Pcb} (h : Killed p D l l') (hw : WF l) :
    (view l').toProcesses = (view l).kill p := by
  have hD : ∀ q, q ∈ D ↔ (view l).Below p q := fun q => h.mem_iff.trans hw.view_below.symm
  refine Processes.ext (funext fun q => ?_) (funext fun a => ?_)
  · simp only [Processes.kill, view_info, h.mem_free, h.pcb, ← hD]
    by_cases hq : q ∈ D <;> simp [hq]
  · rw [view_sem, semaphore, h.waiters, congrArg KernelData.mem h.data]
    simp only [Processes.kill, view_sem, semaphore, ← hD]

theorem Signalled.view_eq {i : ℕ} {status : Word} (h : Signalled i status l l')
    (hm : (l.mem (deviceSemaphore i)).toInt < 2 ^ 31 - 1) :
    (view l').toProcesses = (view l).modify (deviceSemaphore i) (·.verhogen) := by
  cases h with
  | empty he => exact view_verhogen he hm
  | wake h hd => exact h.view_eq (congrArg KernelData.mem hd :)

end Moves
section Occupied
variable {l l₁ l' : Kernel Lists} {p : Pcb} {a : Action}

/-- The current process has the CPU. -/
def Occupied (l : Kernel Lists) : Prop := ∀ p, l.currProc = some p → l.cpu.isRunning = true

theorem Dispatched.occupied (h : Dispatched l l') (hc : l.currProc = none) : Occupied l' := by
  cases h with
  | idle h => exact fun p hp => absurd (hc.symm.trans hp) nofun
  | load => exact fun _ _ => rfl

theorem Resumed.occupied (h : Resumed l l') : Occupied l' := by
  cases h with
  | ldst => exact fun _ _ => rfl
  | dispatch hc hd => exact hd.occupied hc

variable [Layout]

theorem Killed.currProc_eq_none {D : Finset Pcb} (h : Killed p D l l')
    (hc : ∀ c, l.currProc = some c → Descendant l.lists p c) : l'.currProc = none := by
  rw [Option.eq_none_iff_forall_ne_some]
  intro c hc'
  have hcd := h.curr_eq_some.mp hc'
  exact hcd.2 (h.mem_iff.mpr (hc c hcd.1))

/-- Whoever is killed, the caller is among them. -/
def TakesCaller (a : Action) (l : Kernel Lists) : Prop :=
  ∀ p, victim a l = some p → ∀ c, l.currProc = some c → Descendant l.lists p c

theorem Effect.occupied (h : Effect a l l') (ht : TakesCaller a l) : Occupied l' := by
  cases h with
  | plt h hd | yield h hd => exact hd.occupied h.currProc_eq
  | itIdle hn h hd => exact hd.occupied (h.curr.trans hn)
  | it h hr hd => exact hd.occupied hr.currProc_eq
  | deviceNone h hr => exact hr.occupied
  | device h hs hr => exact hr.occupied
  | term hv h hd => exact hd.occupied (h.currProc_eq_none (ht _ (victim_term hv)))
  | die hp hs h hd => exact hd.occupied (h.currProc_eq_none (ht _ (by simp [victim, hp, hs])))
  | passeren _ h hd | clockWait h hd => exact hd.occupied h.currProc_eq
  | doio h hd => exact hd.occupied h.currProc_eq
  | _ => exact fun _ _ => rfl

end Occupied

section Served
variable {l l₁ l' : Kernel Lists} {p : Pcb} {a : Action} {e : Entry}

/-- The end of a device interrupt takes the CPU from nobody. -/
theorem Resumed.keeps (h : Resumed l₁ l') (hc : l₁.currProc = l.currProc)
    (ha : (view l).running.isNone = false) :
    l'.currProc = l.currProc ∧ ∃ p, l.currProc = some p := by
  have hsome : l.currProc.isNone = false := ha
  cases h with
  | ldst p hp => exact ⟨hc, p, hc.symm.trans hp⟩
  | dispatch hn =>
      rw [← hc, hn] at hsome
      cases hsome

theorem WF.view_pid (hw : WF l) (h1 : ∀ q, l.places q = 1) {a1 : Word} {r : Option Pcb}
    (h : findPcbByPid a1 l = some r) :
    (∀ p, r = some p → ∃ f, (view l).info p = some f ∧ f.data.pid = a1) ∧
      (r = none → ∀ p f, (view l).info p = some f → f.data.pid ≠ a1) := by
  obtain ⟨r', hr', hf⟩ := findPcbByPid_spec hw.tree (fun _ => hw.held_not_free) a1
  rw [h, Option.some.injEq] at hr'
  subst hr'
  constructor
  · rintro p rfl
    exact ⟨_, if_neg hf.1, hf.2⟩
  · rintro rfl p f hp
    have hlive : p ∉ l.lists.free := view_live.mp (by rw [Processes.Live, hp]; rfl)
    have hheld : Held l p :=
      (mem_of_places (by rw [h1]; exact one_ne_zero)).resolve_left hlive
    rw [view_info, if_neg hlive, Option.some.injEq] at hp
    subst hp
    exact hf p hheld

theorem WF.view_current (hw : WF l) (hp : l.currProc = some p) :
    (view l).info p = some ⟨(l.pcb p).pParent, attributes (l.pcb p)⟩ :=
  (view_info l p).trans (if_neg (hw.not_free hp))

variable [Layout]

/-- The semaphore on which an action does a V. -/
def raised (a : Action) (dev : Word → Word) : Option Word :=
  match a with
  | .verhogen a1 => some a1
  | .device n => (served n dev).map fun r => deviceSemaphore r.2.1
  | _ => none

/-- An operation that the action demands has been done, and the caller keeps the CPU
where it may. -/
structure Served (e : Entry) (a : Action) (l l' : Kernel Lists)
    (o : Processes.Op Pcb Word Attributes) (away : Bool) : Prop where
  demands : Demands e (view l) a o away
  done : (view l').toProcesses = o.run (view l).toProcesses
  keeps : away = false → l'.currProc = l.currProc ∧ ∃ p, l.currProc = some p

theorem passeren_served {a1 : Word} (hc : l.currProc = some p)
    (hk : 0 < (l.mem a1).toInt → l'.currProc = l.currProc)
    (hd : (view l').toProcesses = (view l).modify a1 (·.passeren p)) :
    ∃ o away, Served e (.passeren a1) l l' o away := by
  refine ⟨_, _, .passeren hc, hd, fun ha => ⟨hk ?_, p, hc⟩⟩
  have hv : ((view l).sem a1).value = (l.mem a1).toInt := by
    rw [view_sem]
    rfl
  rw [hv] at ha
  exact not_le.mp (of_decide_eq_false ha)

/-- On lists, every effect serves what its action demands. -/
theorem Effect.served (h : Effect a l l') (hw : WF l) (h1 : ∀ q, l.places q = 1)
    (hc : a.isDevice = false → ∃ p, l.currProc = some p) (hdev : l.dev = e.dev)
    (hfit : ∀ s, raised a e.dev = some s → (l.mem s).toInt < 2 ^ 31 - 1) :
    ∃ o away, Served e a l l' o away := by
  cases h with
  | plt h hd => exact ⟨_, _, .plt, hd.view_eq.trans h.view_eq, nofun⟩
  | yield h hd => exact ⟨_, _, .yield, hd.view_eq.trans h.view_eq, nofun⟩
  | itIdle _ h hd => exact ⟨_, _, .it, hd.view_eq.trans h.view_eq, nofun⟩
  | it h hr hd => exact ⟨_, _, .it, hd.view_eq.trans (hr.view_eq.trans h.view_eq), nofun⟩
  | deviceNone h hr => exact ⟨_, _, .deviceNone (hdev ▸ h), hr.view_eq, hr.keeps rfl⟩
  | @device _ l₁ _ n i ackAddr status h hs hr =>
      rw [hdev] at h
      have hm := hfit (deviceSemaphore i) (by rw [raised, h]; rfl)
      have hcurr : l₁.currProc = l.currProc := by
        cases hs with
        | empty => rfl
        | wake h _ => exact h.curr
      exact ⟨_, _, .device h, hr.view_eq.trans (hs.view_eq hm), hr.keeps hcurr⟩
  | createFull h =>
      refine ⟨_, _, .createFull fun c => view_live.mpr ?_, rfl, fun _ => ⟨rfl, hc rfl⟩⟩
      rw [h]
      exact List.not_mem_nil
  | create h =>
      refine ⟨_, _, .create h.curr (fun hl => view_live.mp hl ?_), h.view_eq hw,
        fun _ => ⟨(congrArg KernelData.currProc h.data :), hc rfl⟩⟩
      rw [h.free]
      exact List.mem_cons_self
  | @term _ _ _ a1 p D hv h hd =>
      have hdone := hd.view_eq.trans (h.view_eq hw)
      by_cases h0 : a1 = 0
      · rw [if_pos h0] at hv
        subst h0
        exact ⟨_, _, .termSelf hv, hdone, nofun⟩
      · rw [if_neg h0] at hv
        obtain ⟨f, hf, hpid⟩ := (hw.view_pid h1 hv).1 p rfl
        exact ⟨_, _, .term h0 hf hpid, hdone, nofun⟩
  | termUnknown ha h =>
      exact ⟨_, _, .termUnknown ha ((hw.view_pid h1 h).2 rfl), rfl, fun _ => ⟨rfl, hc rfl⟩⟩
  | die hp hs h hd =>
      exact ⟨_, _, .die hp (hw.view_current hp) hs, hd.view_eq.trans (h.view_eq hw), nofun⟩
  | passUp hp hs => exact ⟨_, _, .passUp hp (hw.view_current hp) hs, rfl, fun _ => ⟨rfl, hc rfl⟩⟩
  | passerenTake hv =>
      obtain ⟨p, hp⟩ := hc rfl
      exact passeren_served hp (fun _ => rfl) (view_passeren hv)
  | @passeren _ l₁ _ a1 p hv h hd =>
      refine passeren_served h.curr (fun hpos => absurd hpos hv) ?_
      have hwait : ((view l).sem a1).wait p = ((view l).sem a1).passeren p := by
        have hv' : ¬ 0 < (Nucleus.semaphore a1 l).value := hv
        rw [Semaphore.passeren, view_sem, if_neg hv']
        rfl
      rw [hd.view_eq, h.view_eq, Processes.modify, Processes.modify, hwait]
  | verhogenEmpty h =>
      exact ⟨_, _, .verhogen, view_verhogen h (hfit _ rfl), fun _ => ⟨rfl, hc rfl⟩⟩
  | verhogen h hd =>
      exact ⟨_, _, .verhogen, h.view_eq (congrArg KernelData.mem hd :),
        fun _ => ⟨(congrArg KernelData.currProc hd :), hc rfl⟩⟩
  | doio h hd => exact ⟨_, _, .doio h.curr, hd.view_eq.trans h.view_eq, nofun⟩
  | clockWait h hd => exact ⟨_, _, .clockWait h.curr, hd.view_eq.trans h.view_eq, nofun⟩
  | getTime => exact ⟨_, _, .getTime, rfl, fun _ => ⟨rfl, hc rfl⟩⟩
  | getSupportPtr => exact ⟨_, _, .getSupportPtr, rfl, fun _ => ⟨rfl, hc rfl⟩⟩
  | getProcessId => exact ⟨_, _, .getProcessId, rfl, fun _ => ⟨rfl, hc rfl⟩⟩

end Served
section Halt
variable {l : Kernel Lists}

theorem length_free (hw : WF l) : l.lists.free.length = maxProc ↔ ∀ p, p ∈ l.lists.free := by
  have hn := hw.nodup.of_append_left.of_append_left.of_append_left
  have hcard := List.toFinset_card_of_nodup hn
  constructor
  · intro hl p
    have huniv := Finset.eq_univ_of_card l.lists.free.toFinset
      (by rw [hcard, hl, Fintype.card_fin])
    exact List.mem_toFinset.mp (huniv ▸ Finset.mem_univ p)
  · intro hall
    have huniv : l.lists.free.toFinset = Finset.univ :=
      Finset.eq_univ_of_forall fun p => List.mem_toFinset.mpr (hall p)
    rw [← hcard, huniv, Finset.card_fin]

/-- The Nucleus halts when every PCB is free. -/
theorem Sound.halted_iff (h : Sound l) (hs : Settled l) (hp : ProcessExact l) :
    l.cpu = .halt ↔ ∀ p, p ∈ l.lists.free := by
  have hcount : l.processCount = 0 ↔ ∀ p, p ∈ l.lists.free := by
    rw [← length_free h.wf]
    rw [ProcessExact] at hp
    omega
  rw [← hcount]
  refine ⟨hs.halt, fun h0 => ?_⟩
  rcases hs with hr | ⟨-, hi⟩
  · obtain ⟨p, hc⟩ := h.onCpu hr
    exact absurd (hcount.mp h0 p) (h.wf.not_free hc)
  · rw [hi, idleCpu, if_pos h0]

end Halt

section Refinement
variable {Q : Type} [QueueApi Q] [Layout]

/-- Kills go by place and take the caller along, and no V overflows its semaphore. -/
structure Regular (k : Kernel Q) (e : Entry) : Prop where
  byPlace : KillsByPlace k e
  caller : KillsCaller k e
  fits : ∀ s, raised (action e) e.dev = some s → ((prepared e k).mem s).toInt < 2 ^ 31 - 1

/-- What the machine relies on, on lists. -/
structure Intact (l : Kernel Lists) : Prop where
  sound : Sound l
  places : ∀ q, l.places q = 1
  settled : Settled l
  occupied : Occupied l
  processExact : ProcessExact l
  sorted : Stable l.prio l.lists.ready l.lists.ready

/-- The pointers hold the processes of the machine. -/
def Represents (k : Kernel Pointers) (m : Machine Pcb Word Attributes) : Prop :=
  ∃ l, KernelRel k l ∧ Intact l ∧ m = view l

/-- What a reader of the pointers finds. -/
structure Implements (k : Kernel Pointers) (m : Machine Pcb Word Attributes) : Prop where
  queues : ∃ qs, Pointer.queues k.store = some qs ∧ m = processes qs k ∧
    ∀ p, p ∈ qs.ready ↔ m.Runnable p ∧ m.running ≠ some p
  children : ∀ p, m.Live p → ∃ cs, QueueApi.children p k.store = some cs ∧
    ∀ c, c ∈ cs ↔ m.Child p c
  running : k.cpu.isRunning = m.running.isSome
  halted : k.cpu = .halt ↔ ∀ p, ¬ m.Live p

variable {k : Kernel Pointers} {l l' : Kernel Lists} {m : Machine Pcb Word Attributes}
  {e : Entry} {p q : Pcb}

theorem Regular.lists (h : KernelRel k l) (hw : WF l) (hr : Regular k e) : Regular l e where
  byPlace := hr.byPlace.lists h
  caller := hr.caller.lists h hw
  fits s hs := by
    have hm : (prepared e l).mem s = (prepared e k).mem s := by
      change (if isDeviceSemaphore s then l.mem s else e.mem s) =
        if isDeviceSemaphore s then k.mem s else e.mem s
      rw [congrArg KernelData.mem h.data]
    rw [hm]
    exact hr.fits s hs

/-- An exception presents the machine as it is to the handler. -/
theorem view_prepared (e : Entry) (l : Kernel Lists) :
    view (prepared e l) = presented e (view l) := by
  have hsem : (view (prepared e l)).sem = (presented e (view l)).sem := by
    funext a
    have hv : ((prepared e l).mem a).toInt =
        if isDeviceSemaphore a then ((view l).sem a).value else (e.mem a).toInt := by
      change (if isDeviceSemaphore a then l.mem a else e.mem a).toInt = _
      rw [view_sem]
      split <;> rfl
    rw [view_sem, semaphore, hv]
    change _ = (⟨_, ((view l).sem a).queue⟩ : Semaphore Pcb)
    rw [view_sem]
    rfl
  have hproc : (view (prepared e l)).toProcesses = (presented e (view l)).toProcesses :=
    Processes.ext rfl hsem
  exact congrArg (fun P => (⟨P, l.currProc⟩ : Machine Pcb Word Attributes)) hproc

theorem Booted.rooted {b : BootImage} (h : Booted b firstPcb l) : (view l).Rooted firstPcb where
  family q hq := by
    rw [h.live_iff.mp (view_live.mp hq)]
    exact .refl
  parent p q hc := by
    have hm := h.wf.view_child.mp hc
    rw [h.child] at hm
    cases hm

theorem Booted.view_sound {b : BootImage} (h : Booted b firstPcb l) :
    (view l).Sound firstPcb := by
  have hnone : ∀ a, l.lists.waiters a = [] := fun a => by
    rw [Lists.waiters_def, h.asl.1]
    rfl
  have hwait : ∀ q a, ¬ (view l).Waits q a := fun q a hq => by
    have hm := view_waits.mp hq
    rw [hnone] at hm
    cases hm
  refine ⟨h.rooted, fun q a hq => absurd hq (hwait q a), fun a => ?_,
    fun q a b hq => absurd hq (hwait q a)⟩
  rw [view_sem, semaphore, hnone]
  exact List.nodup_nil

theorem Booted.intact {b : BootImage} (h : Booted b firstPcb l) : Intact l where
  sound := h.sound
  places q := by
    have hle := h.wf.places q
    have hc : l.currProc = some firstPcb := congrArg KernelData.currProc h.data
    have hpos : 0 < l.places q := by
      rw [Kernel.places, hc, Option.toList_some, List.count_singleton]
      by_cases hq : q = firstPcb
      · simp [hq]
      · have := List.count_pos_iff.mpr ((h.mem_free q).mpr hq)
        omega
    omega
  settled := h.counted.settled
  occupied _ _ := by
    rw [h.data]
    rfl
  processExact := h.counted.process
  sorted := by
    rw [h.ready]
    exact .nil

omit [Layout] in
theorem Intact.scheduled (h : Intact l) : (view l).Scheduled := by
  refine Nucleus.scheduled h.sound.wf h.places fun hn => ?_
  rcases h.settled with hr | ⟨hready, -⟩
  · obtain ⟨p, hp⟩ := h.sound.onCpu hr
    exact absurd (hp.symm.trans hn) (Option.some_ne_none p)
  · exact hready

/-- The CPU is given away when the action takes it, when nobody has it, and at a kill. -/
theorem Demands.given {o : Processes.Op Pcb Word Attributes} {a : Action} {away : Bool}
    (h : Demands e (view l) a o away) (ha : away = true) (hw : WF l)
    (h1 : ∀ q, l.places q = 1) : takesCpu a l ∨ l.currProc = none ∨ (victim a l).isSome := by
  cases h with
  | plt | yield | it | doio | clockWait => exact .inl trivial
  | deviceNone | device => exact .inr (.inl (Option.isNone_iff_eq_none.mp ha))
  | passeren hp =>
      refine .inl (not_lt.mpr ?_)
      have hv : ((view l).sem _).value ≤ 0 := of_decide_eq_true ha
      rwa [view_sem] at hv
  | termSelf hp =>
      have hcurr : l.currProc.isSome = true := Option.isSome_iff_exists.mpr ⟨_, hp⟩
      exact .inr (.inr hcurr)
  | @term a1 p f h0 hp hpid =>
      obtain ⟨r, hr, -⟩ := hw.findPcbByPid_live a1
      have hsome : r ≠ none := fun hn => (hw.view_pid h1 hr).2 hn p f hp hpid
      refine .inr (.inr ?_)
      rw [victim, if_neg h0, hr]
      exact Option.isSome_iff_ne_none.mpr hsome
  | @die t p f hp hf hs =>
      have hs' : (l.pcb p).pSupportStruct = null := by
        rw [hw.view_current hp, Option.some.injEq] at hf
        subst hf
        exact hs
      refine .inr (.inr ?_)
      simp [victim, show l.currProc = some p from hp, hs']
  | _ => cases ha

omit [Layout] in
theorem view_prio {f : Info Pcb Attributes} (h : (view l).info p = some f) :
    f.data.prio = l.prio p := by
  rw [view_info] at h
  split at h
  · cases h
  · rw [← Option.some.inj h]
    rfl

/-- Every entry serves what it demands of the machine. -/
theorem Intact.step (h : Intact l) (hr : Regular l e) (hp' : Possible l e)
    (hstep : kernelEntry e l = some l') (he : Effect (action e) (prepared e l) l') :
    Intact l' ∧ machine.step (view l) e (view l') := by
  have hw : WF (prepared e l) := h.sound.wf.data rfl rfl
  have hcall : TakesCaller (action e) (prepared e l) := fun p hv c hc =>
    h.sound.wf.inSubtree_iff.mp (hr.caller p hv c hc)
  have hint : Intact l' :=
    { sound := h.sound.step hp' he
      places := he.places_eq_one hcall h.places
      settled := he.settled
      occupied := he.occupied hcall
      processExact := he.processExact h.processExact
      sorted := ⟨(picks_step h.sound h.sorted ⟨hr.byPlace, hp', hstep⟩).stable.sorted,
        fun _ => rfl⟩ }
  obtain ⟨o, away, hs⟩ := he.served hw h.places (fun ha => h.sound.current hp' ha) rfl hr.fits
  refine ⟨hint, o, away, ?_, ?_, ?_⟩
  · rw [← view_prepared]
    exact hs.demands
  · rw [← view_prepared]
    exact hs.done
  · cases away with
    | true =>
        refine ⟨hint.scheduled, fun p q f g hp hf hq hg hy => ?_⟩
        have hgiven : given (action e) (prepared e l) l' = some p :=
          (if_pos (hs.demands.given rfl hw h.places)).trans hp
        rw [view_prio hf, view_prio hg]
        rcases (hint.sound.wf.view_runnable hint.places).mp hq with hready | hcurr
        · refine highest_step h.sound h.sorted ⟨hr.byPlace, hp', hstep⟩ hgiven hready fun ha => ?_
          rw [yielder, ha] at hy
          exact hy
        · rw [Option.some.inj (hcurr.symm.trans hp)]
    | false => exact hs.keeps rfl

omit [Layout] in
theorem Intact.implements (hi : Intact l) (h : KernelRel k l) : Implements k (view l) where
  queues := by
    refine ⟨l.lists.queues, h.store.queues, ?_, fun p => ?_⟩
    · have hpcb : k.pcb = l.pcb := funext h.pcb
      rw [view, processes, processes, hpcb, congrArg KernelData.mem h.data,
        congrArg KernelData.currProc h.data]
    · have h1 := hi.places p
      rw [hi.sound.wf.view_runnable hi.places]
      change p ∈ l.lists.ready ↔ _ ∧ l.currProc ≠ some p
      refine ⟨fun hm => ⟨.inl hm, fun hc => ?_⟩, fun hm => hm.1.resolve_right hm.2⟩
      exact hi.sound.wf.not_queued hc (by simp [Lists.queued, hm])
  children p hp := by
    obtain ⟨cs, hcs, rfl⟩ := h.store.children p _ (if_pos (view_live.mp hp))
    exact ⟨_, hcs, fun c => hi.sound.wf.view_child.symm⟩
  running := by
    have hc : k.cpu = l.cpu := congrArg KernelData.cpu h.data
    rw [hc]
    cases hn : l.currProc with
    | none =>
        have hidle : ¬ l.cpu.isRunning = true := fun hr => by
          obtain ⟨p, hp⟩ := hi.sound.onCpu hr
          exact absurd (hp.symm.trans hn) (Option.some_ne_none p)
        exact (Bool.eq_false_iff.mpr hidle).trans (congrArg Option.isSome hn).symm
    | some p => exact (hi.occupied p hn).trans (congrArg Option.isSome hn).symm
  halted := by
    rw [congrArg KernelData.cpu h.data, hi.sound.halted_iff hi.settled hi.processExact]
    exact forall_congr' fun p => not_not.symm.trans (not_congr view_live.symm)

theorem regular_refines : ((nucleus Pointers).restrict Regular).Refines machine
    fun k m => Represents k m ∧ Implements k m where
  init {k} hk := by
    obtain ⟨b, q, hm⟩ := hk
    obtain ⟨l, hl, hb⟩ := main_spec b Lists.boot
    obtain ⟨k', hk', hr⟩ := main_refines b q Lists.boot l hl
    rw [hm, Option.some.injEq] at hk'
    subst hk'
    have hlive : ∀ p, (view l).Live p → p = firstPcb := fun p hp =>
      hb.live_iff.mp (view_live.mp hp)
    exact ⟨view l, ⟨hb.view_sound, hb.intact.scheduled, hlive⟩, ⟨l, hr, hb.intact, rfl⟩,
      hb.intact.implements hr⟩
  step {k m e k'} hm hr hs := by
    obtain ⟨l, hkl, hi, rfl⟩ := hr.1
    obtain ⟨hc, hp, hk⟩ := hs
    have hcl := hc.lists hkl hi.sound.wf
    obtain ⟨l', hl', he⟩ := kernelEntry_spec hi.sound (hp.lists hkl) hcl.byPlace
    obtain ⟨k₁, hk₁, hr'⟩ := kernelEntry_refines e hkl l' hl'
    rw [hk, Option.some.injEq] at hk₁
    subst hk₁
    obtain ⟨hi', hstep⟩ := hi.step hcl (hp.lists hkl) hl' he
    exact ⟨view l', hstep, ⟨l', hr', hi', rfl⟩, hi'.implements hr'⟩

/-- The Nucleus on pointers refines the machine of processes, in whose runs everybody
descends from the first process, waits at most once, and gets the CPU if nobody else can
use it. -/
theorem nucleus_refines_machine : ((nucleus Pointers).restrict Regular).Refines machine
    (fun k m => Represents k m ∧ Implements k m) ∧
      ∀ m, machine.Reachable m → m.Sound firstPcb ∧ m.Scheduled :=
  ⟨regular_refines, fun _ => machine_invariant⟩

omit [Layout] in
/-- A child kills itself and the process below it, before a P that waits and its V. -/
theorem nucleus_refines_machine_run : ∃ k m, bareRun (fun k e => killsItself k e &&
      match action e with
      | .verhogen a1 => (e.mem a1).toInt < 2 ^ 31 - 1 && !@isDeviceSemaphore ramLayout a1
      | .device _ => false
      | _ => true) (killItselfEvents ++ [request 0 passeren 0x20002000,
        request 0 verhogen 0x20002000]) = some k ∧
      (@machine ramLayout).Reachable m ∧ Represents k m ∧ Implements k m := by
  let := ramLayout
  obtain ⟨k, hk⟩ := Option.isSome_iff_exists.mp (show (bareRun (fun k e => killsItself k e &&
      match action e with
      | .verhogen a1 => (e.mem a1).toInt < 2 ^ 31 - 1 && !@isDeviceSemaphore ramLayout a1
      | .device _ => false
      | _ => true) (killItselfEvents ++ [request 0 passeren 0x20002000,
        request 0 verhogen 0x20002000])).isSome = true by decide +kernel)
  have hreach : ((nucleus Pointers).restrict Regular).Reachable k := by
    refine bareRun_restrict (fun k e hP => ?_) hk
    obtain ⟨hself, hact⟩ := Bool.and_eq_true_iff.mp hP
    obtain ⟨hplace, hcaller⟩ := caller_of_killsItself hself
    refine ⟨hplace, hcaller, fun s hs => ?_⟩
    cases ha : action e with
    | verhogen a1 =>
        rw [ha] at hact hs
        obtain rfl : a1 = s := Option.some.inj hs
        obtain ⟨hfit, hdev⟩ := Bool.and_eq_true_iff.mp hact
        have hmem : (prepared e k).mem a1 = e.mem a1 := if_neg (by simpa using hdev)
        rw [hmem]
        exact of_decide_eq_true hfit
    | device n =>
        rw [ha] at hact
        cases hact
    | _ =>
        rw [ha] at hs
        cases hs
  obtain ⟨m, hm, hrel⟩ := nucleus_refines_machine.1.reachable hreach
  exact ⟨k, m, hk, hm, hrel⟩

end Refinement

section Family
variable [Layout] {k : Kernel Pointers} {l l' : Kernel Lists} {a : Action} {root : Pcb}

theorem Signalled.sameInfo {i : ℕ} {status : Word} (h : Signalled i status l l') :
    SameInfo l l' := by
  cases h with
  | empty => exact .setMem
  | wake h _ => exact h.sameInfo

/-- Only NSYS1 and the kills change the family. -/
theorem Effect.rooted (h : Effect a l l') (hw : WF l) (hr : (view l).Rooted root) :
    (view l').Rooted root := by
  have hkill : ∀ {l₁ : Kernel Lists} {p : Pcb} {D : Finset Pcb}, Killed p D l l₁ →
      Dispatched l₁ l' → (view l').Rooted root := by
    intro l₁ p D h hd
    rw [hd.view_eq, h.view_eq hw]
    exact hr.kill p
  have hkeep : SameInfo l l' → (view l').Rooted root := fun h => hr.congr h.info
  have hcount : SameInfo l { l with softBlockCount := l.softBlockCount + 1 } := .of_store rfl
  cases h with
  | plt h hd | yield h hd => exact hkeep (h.sameInfo.trans hd.sameInfo)
  | itIdle _ h hd => exact hkeep (h.sameInfo.trans (SameInfo.setMem.trans hd.sameInfo))
  | it h hq hd =>
      exact hkeep (h.sameInfo.trans (SameInfo.setMem.trans (hq.sameInfo.trans hd.sameInfo)))
  | deviceNone _ h => exact hkeep h.sameInfo
  | device _ hs h => exact hkeep (SameInfo.setDev.trans (hs.sameInfo.trans h.sameInfo))
  | create h =>
      have hl := view_live.mpr (hw.not_free h.curr)
      refine (hr.create hl fun hp => view_live.mp hp ?_).congr
        (congrArg Processes.info (h.view_eq hw))
      rw [h.free]
      exact List.mem_cons_self
  | term _ h hd | die _ _ h hd => exact hkill h hd
  | passeren _ h hd => exact hkeep (h.sameInfo.trans hd.sameInfo)
  | clockWait h hd => exact hkeep (hcount.trans (h.sameInfo.trans hd.sameInfo))
  | doio h hd => exact hkeep (hcount.trans (h.sameInfo.trans (SameInfo.setDev.trans hd.sameInfo)))
  | verhogen h hd => exact hkeep (h.sameInfo.trans (.of_store rfl))
  | _ => exact hkeep (.of_store rfl)

/-- The first process, its descendants, and nobody else. -/
structure Family (k : Kernel Pointers) : Prop where
  walk : ∃ qs, Pointer.queues k.store = some qs ∧
    (∀ p, p ∉ qs.free → firstPcb ∉ qs.free ∧ InSubtree k firstPcb p) ∧
    (k.cpu = .halt ↔ firstPcb ∈ qs.free)

/-- On lists. -/
structure FamilyLists (l : Kernel Lists) : Prop where
  rooted : (view l).Rooted firstPcb
  settled : Settled l
  processExact : ProcessExact l

theorem SameInfo.prepared {e : Entry} : SameInfo l (prepared e l) := .of_store rfl

theorem FamilyLists.step {e : Entry} (h : FamilyLists l) (hw : WF l)
    (he : Effect (action e) (prepared e l) l') : FamilyLists l' := by
  have hw' : WF (Nucleus.prepared e l) := hw.data rfl rfl
  have hr' : (view (Nucleus.prepared e l)).Rooted firstPcb := h.rooted.congr SameInfo.prepared.info
  have hp' : ProcessExact (Nucleus.prepared e l) := h.processExact.congr rfl rfl
  exact ⟨he.rooted hw' hr', he.settled, he.processExact hp'⟩

theorem familyLists (h : ((nucleus Lists).restrict KillsByPlace).Reachable l) : FamilyLists l := by
  refine h.invariant (fun l hl => ?_) fun l e l' hr hl hs => ?_
  · obtain ⟨b, hb⟩ := init_booted hl
    exact ⟨hb.rooted, hb.counted.settled, hb.counted.process⟩
  · have hsound := sound_of_reachable (fun _ _ h => h) hr
    exact hl.step hsound.wf (step_effect (fun _ _ h => h) hsound hs).1

/-- All live processes descend from the first one, and the Nucleus halts exactly when
that one is gone. -/
theorem family (h : ((nucleus Pointers).restrict fun k e =>
    KillsByPlace k e ∧ WaitsAlone k e).Reachable k) : Family k := by
  have hplace : ((nucleus Pointers).restrict KillsByPlace).Reachable k :=
    h.restrict_mono fun _ _ h => h.1
  obtain ⟨l, hl, hr⟩ := (nucleus_refines (fun _ _ h => h) fun _ _ _ hr _ hc =>
    hc.lists hr).reachable hplace
  have hsound := sound_of_reachable (fun _ _ h => h) hl
  have hf := familyLists hl
  refine ⟨l.lists.queues, hr.store.queues, fun p hp => ?_, ?_⟩
  · have hroot : firstPcb ∉ l.lists.free := view_live.mp (hf.rooted.root_live (view_live.mpr hp))
    refine ⟨hroot, (inSubtree_iff hr hsound.wf hroot).mpr ?_⟩
    exact hsound.wf.view_below.mp (hf.rooted.family p (view_live.mpr hp))
  · rw [congrArg KernelData.cpu hr.data, hsound.halted_iff hf.settled hf.processExact]
    refine ⟨fun hall => hall firstPcb, fun hroot p => ?_⟩
    by_contra hp
    exact view_live.mp (hf.rooted.root_live (view_live.mpr hp)) hroot

end Family

section Concrete

/-- Two processes are left of five. -/
theorem family_run : ∃ k, bareRun (fun k _ => tidy k)
    (killEvents (request 0 passeren 0x20002000) ++ [request 0 createProcess 0]) = some k ∧
      Family k := by
  obtain ⟨k, hk⟩ := Option.isSome_iff_exists.mp (show (bareRun (fun k _ => tidy k)
    (killEvents (request 0 passeren 0x20002000) ++ [request 0 createProcess 0])).isSome = true
      by decide +kernel)
  exact ⟨k, hk, @family ramLayout k (bareRun_restrict (fun _ _ => byPlace_of_tidy) hk)⟩

end Concrete
end PandOSsh.Nucleus
