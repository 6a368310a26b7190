import PandOSsh.Nucleus.Effects
import PandOSsh.Nucleus.Refine

/-!
# Runs of the Nucleus

`main` builds a sound state, and an entry whose kills go by place has an effect
and leaves a sound state. So the runs on pointers that meet a condition refine
the runs on lists that meet the same condition, whatever else it says.
-/

namespace PandOSsh.Nucleus
open Library

section Boot
variable [Layout]

/-- The state in which `main` leaves the lists, with the first process running. -/
structure Booted (b : BootImage) (p : Pcb) (k : Kernel Lists) : Prop where
  data : k.toKernelData = { (staticData b k.store.lists).toKernelData with
    processCount := 1, currProc := some p, todStart := b.now, cpu := .run b.firstState }
  nextPid : k.store.nextPid = 2
  pcb : ∀ q, k.pcb q = if q = p then { initialFields 1 with pS := b.firstState }
    else initialFields 0
  free : p :: k.lists.free = (List.finRange maxProc).reverse
  ready : k.lists.ready = []
  asl : k.lists.asl = [] ∧ k.lists.idle = (List.finRange maxProc).reverse
  child : ∀ q, k.lists.child q = []

/-- `pcbFree_table[MAXPROC - 1]`, the head of the free list after `initPcbs`. -/
def firstPcb : Pcb := ⟨maxProc - 1, by decide⟩

theorem main_spec (b : BootImage) (v : Lists) :
    ∃ k, main b v = some k ∧ Booted b firstPcb k := by
  refine ⟨_, rfl, rfl, rfl, fun q => ?_, rfl, rfl, ⟨rfl, rfl⟩, fun q => ?_⟩
  · by_cases hq : q = firstPcb
    · subst hq
      rfl
    · rw [if_neg hq]
      exact (Function.update_of_ne hq _ _).trans (Function.update_of_ne hq _ _)
  · by_cases hq : q = firstPcb
    · subst hq
      rfl
    · exact Function.update_of_ne hq _ _

variable {b : BootImage} {p : Pcb} {k : Kernel Lists}

theorem Booted.wf (h : Booted b p k) : WF k where
  places q := by
    have hb : k.lists.blocked = [] := by rw [Lists.blocked, h.asl.1]; rfl
    have hc : k.currProc = some p := congrArg KernelData.currProc h.data
    have hn := List.nodup_iff_count_le_one.mp
      (List.nodup_reverse.mpr (List.nodup_finRange maxProc)) q
    rw [← h.free, List.count_cons] at hn
    simp only [Kernel.places, h.ready, hb, hc, Option.toList_some, List.count_nil,
      List.count_singleton]
    omega
  active := by
    refine ⟨by simp [h.asl.1], ?_, by simp [h.asl.1], ?_⟩
    · rw [h.asl.1, h.asl.2]
      exact List.nodup_reverse.mpr (List.nodup_finRange maxProc)
    · rw [h.asl.1, h.asl.2]
      rfl
  semAdd a q hq := by
    rw [Lists.waiters, h.asl.1] at hq
    exact absurd hq List.not_mem_nil
  tree := by
    have hp : ∀ q, (k.pcb q).pParent = none := fun q => by rw [h.pcb]; split <;> rfl
    refine ⟨fun q => ?_, fun q c => ?_, fun q _ => ⟨h.child q, hp q⟩, fun _ => 0, fun q c hc => ?_⟩
    · rw [h.child]
      exact List.nodup_nil
    · simp [h.child, hp]
    · rw [h.child] at hc
      exact absurd hc List.not_mem_nil

end Boot

section Sound
variable {k k' : Kernel Lists} {e : Entry}

/-- Well formed, and with a current process whenever the CPU runs one. -/
structure Sound (k : Kernel Lists) : Prop where
  wf : WF k
  onCpu : k.cpu.isRunning = true → ∃ p, k.currProc = some p

theorem Dispatched.onCpu (h : Dispatched k k') (hr : k'.cpu.isRunning = true) :
    ∃ p, k'.currProc = some p := by
  cases h with
  | idle h =>
      have hi := idleCpu_isRunning k.toKernelData
      exact absurd hr (by simp [hi])
  | load p ps h => exact ⟨p, rfl⟩

theorem Resumed.onCpu (h : Resumed k k') (hr : k'.cpu.isRunning = true) :
    ∃ p, k'.currProc = some p := by
  cases h with
  | ldst p hc => exact ⟨p, hc⟩
  | dispatch hc hd => exact hd.onCpu hr

theorem Sound.current (h : Sound k) (hp : Possible k e) (ha : (action e).isDevice = false) :
    ∃ p, k.currProc = some p := by
  have hp : admits k.cpu (action e) = true := hp
  cases hc : k.cpu with
  | run | context => exact h.onCpu (by rw [hc]; rfl)
  | wait => exact absurd ha (by rw [hc] at hp; simp [show (action e).isDevice = true from hp])
  | halt | panic => rw [hc] at hp; cases hp

theorem Possible.known {Q : Type} {k : Kernel Q} (hp : Possible k e) : action e ≠ .unknown := by
  intro ha
  have hp : admits k.cpu (action e) = true := hp
  rw [ha] at hp
  cases hc : k.cpu <;> rw [hc] at hp <;> cases hp

theorem possible_of_running {Q : Type} {k : Kernel Q} {e : Entry} (h : k.cpu.isRunning = true)
    (he : action e ≠ .unknown) : Possible k e := by
  unfold Possible
  cases hc : k.cpu with
  | run | context => exact decide_eq_true he
  | wait | halt | panic =>
      rw [hc] at h
      cases h

/-- On lists, a subtree is what is below in the tree. -/
theorem WF.inSubtree_iff (hw : WF k) {p q : Pcb} : InSubtree k p q ↔ Descendant k.lists p q := by
  constructor <;> intro h <;> refine Relation.ReflTransGen.mono (fun a c hc => ?_) _ _ h
  · obtain ⟨cs, hr, hm⟩ := hc
    rw [show QueueApi.children a k.store = if a ∉ k.lists.free then some (k.lists.child a) else none
      from rfl] at hr
    split at hr
    · exact Option.some.inj hr ▸ hm
    · cases hr
  · have ha : a ∉ k.lists.free := fun hf => by
      rw [(hw.tree.free a hf).1] at hc
      exact absurd hc List.not_mem_nil
    exact ⟨_, if_pos ha, hc⟩

end Sound

section Step
variable [Layout] {k k' : Kernel Lists} {a : Action} {e : Entry}

theorem Effect.onCpu (h : Effect a k k') (hc : a.isDevice = false → ∃ p, k.currProc = some p)
    (hr : k'.cpu.isRunning = true) : ∃ p, k'.currProc = some p := by
  cases h with
  | plt _ hd | itIdle _ _ hd | it _ _ hd | term _ _ hd | die _ _ _ hd | passeren _ _ hd
  | doio _ hd | clockWait _ hd | yield _ hd => exact hd.onCpu hr
  | deviceNone _ hr' | device _ _ hr' => exact hr'.onCpu hr
  | create h => exact ⟨_, (congrArg KernelData.currProc h.data).trans h.curr⟩
  | verhogen h hd =>
      obtain ⟨p, hp⟩ := hc rfl
      exact ⟨p, (congrArg KernelData.currProc hd).trans hp⟩
  | _ => exact hc rfl

/-- Every possible entry whose kills go by place has an effect. -/
theorem kernelEntry_spec (h : Sound k) (hp : Possible k e) (hk : KillsByPlace k e) :
    ∃ k', kernelEntry e k = some k' ∧ Effect (action e) (prepared e k) k' := by
  rw [kernelEntry_eq]
  have hw : WF (prepared e k) := h.wf.data rfl rfl
  refine perform_spec hw _ hp.known (fun ha => h.current hp ha) ?_
  intro p hv q hq hc
  have hcons := hk p hv q (h.wf.inSubtree_iff.mpr hq) hc
  exact ⟨fun hr => hcons.1 ⟨_, rfl, hr⟩, fun hb => hcons.2 ⟨_, rfl, hb⟩⟩

theorem Sound.step (h : Sound k) (hp : Possible k e)
    (he : Effect (action e) (prepared e k) k') : Sound k' :=
  ⟨he.wf (h.wf.data rfl rfl), he.onCpu fun ha => h.current hp ha⟩

theorem Booted.sound {b : BootImage} {p : Pcb} (h : Booted b p k) : Sound k :=
  ⟨h.wf, fun _ => ⟨p, (congrArg KernelData.currProc h.data :)⟩⟩

end Step

section Restricted
variable [Layout] {C : Kernel Lists → Entry → Prop} {k k' : Kernel Lists} {e : Entry}

/-- The steps of a run on lists that meets a condition of its own and kills by
place. -/
theorem step_effect (hC : ∀ k e, C k e → KillsByPlace k e) (h : Sound k)
    (hs : ((nucleus Lists).restrict C).step k e k') :
    Effect (action e) (prepared e k) k' ∧ Sound k' := by
  obtain ⟨hc, hp, hr⟩ := hs
  obtain ⟨k₁, hr₁, he⟩ := kernelEntry_spec h hp (hC k e hc)
  rw [hr, Option.some.injEq] at hr₁
  subst hr₁
  exact ⟨he, h.step hp he⟩

theorem init_booted (h : (nucleus Lists).init k) : ∃ b, Booted b firstPcb k := by
  obtain ⟨b, v, hm⟩ := h
  obtain ⟨k₁, hm₁, hb⟩ := main_spec b v
  rw [hm, Option.some.injEq] at hm₁
  exact ⟨b, hm₁ ▸ hb⟩

theorem sound_of_reachable (hC : ∀ k e, C k e → KillsByPlace k e)
    (h : ((nucleus Lists).restrict C).Reachable k) : Sound k := by
  refine h.invariant (fun k hk => ?_) fun k e k' _ hk hs => (step_effect hC hk hs).2
  obtain ⟨b, hb⟩ := init_booted hk
  exact hb.sound

end Restricted

section Refinement
variable {k : Kernel Pointers} {l : Kernel Lists} {e : Entry}

theorem IsReady.pointers (h : KernelRel k l) {q : Pcb} (hq : IsReady l q) : IsReady k q := by
  obtain ⟨ps, hr, hm⟩ := hq
  exact ⟨ps, h.store.ready.trans hr, hm⟩

theorem IsBlocked.pointers (h : KernelRel k l) {q : Pcb} (hq : IsBlocked l q) :
    IsBlocked k q := by
  obtain ⟨ps, hr, hm⟩ := hq
  exact ⟨ps, h.store.blocked.trans hr, hm⟩

theorem InSubtree.pointers (h : KernelRel k l) {p q : Pcb} (hq : InSubtree l p q) :
    InSubtree k p q := by
  refine Relation.ReflTransGen.mono (fun a c hc => ?_) _ _ hq
  obtain ⟨cs, hr, hm⟩ := hc
  obtain ⟨cs', hr', rfl⟩ := h.store.children a cs hr
  exact ⟨_, hr', hm⟩

theorem victim_pointers (h : KernelRel k l) {a : Action} {p : Pcb} (hv : victim a l = some p) :
    victim a k = some p := by
  have hc : k.currProc = l.currProc := congrArg KernelData.currProc h.data
  cases a with
  | termProcess a1 =>
      simp only [victim] at hv ⊢
      split at hv
      · next h0 => rw [if_pos h0, hc, hv]
      · next h0 =>
        obtain ⟨r, hr, rfl⟩ := findPcbByPid_refines a1 h _ (Option.join_eq_some_iff.mp hv)
        rw [if_neg h0, hr]
        rfl
  | passUp t =>
      simp only [victim] at hv ⊢
      rw [hc, h.pcb_eq]
      exact hv
  | _ => cases hv

theorem victim_not_free (hw : WF l) {a : Action} {p : Pcb} (hv : victim a l = some p) :
    p ∉ l.lists.free := by
  cases a with
  | termProcess a1 =>
      simp only [victim] at hv
      split at hv
      · exact hw.not_free hv
      · obtain ⟨r, hr, hf⟩ := hw.findPcbByPid_live a1
        rw [Option.join_eq_some_iff.mp hv, Option.some.injEq] at hr
        exact hf p hr.symm
  | passUp t => exact hw.not_free (Option.filter_eq_some_iff.mp hv).1
  | _ => cases hv

theorem victim_eq (h : KernelRel k l) (hw : WF l) (a : Action) : victim a k = victim a l := by
  cases hv : victim a l with
  | some p => exact victim_pointers h hv
  | none =>
      cases a with
      | termProcess a1 =>
          simp only [victim] at hv ⊢
          split at hv
          · next h0 => rw [if_pos h0, congrArg KernelData.currProc h.data, hv]
          · next h0 =>
            obtain ⟨r, hr, -⟩ := hw.findPcbByPid_live a1
            obtain ⟨r', hr', rfl⟩ := findPcbByPid_refines a1 h _ hr
            rw [if_neg h0, hr', ← hr, hv]
      | passUp t =>
          simp only [victim] at hv ⊢
          rw [congrArg KernelData.currProc h.data, h.pcb_eq, hv]
      | _ => rfl

/-- Below a live process the pointers hold the tree that the lists describe. -/
theorem inSubtree_iff (h : KernelRel k l) (hw : WF l) {p q : Pcb} (hp : p ∉ l.lists.free) :
    InSubtree k p q ↔ Descendant l.lists p q := by
  refine ⟨fun hq => ?_, fun hq => (hw.inSubtree_iff.mpr hq).pointers h⟩
  induction hq with
  | refl => exact .refl
  | tail _ hc ih =>
      obtain ⟨cs, hr, hm⟩ := hc
      obtain ⟨cs', hr', rfl⟩ := h.store.children _ _ (if_pos (descendant_not_free hw.tree hp ih))
      rw [hr, Option.some.injEq] at hr'
      exact ih.tail (hr' ▸ hm)

theorem KillsByPlace.lists (h : KernelRel k l) (hk : KillsByPlace k e) : KillsByPlace l e := by
  intro p hv q hq hc
  have hcons := hk p (victim_pointers h hv) q (hq.pointers h)
    (fun he => hc ((congrArg KernelData.currProc h.data).symm.trans he))
  rw [← h.pcb]
  exact ⟨fun hr => hcons.1 (hr.pointers h), fun hb => hcons.2 (hb.pointers h)⟩

theorem Possible.lists (h : KernelRel k l) (hp : Possible k e) : Possible l e := by
  rw [Possible, ← congrArg KernelData.cpu h.data]
  exact hp

variable [Layout] {C : Kernel Pointers → Entry → Prop} {C' : Kernel Lists → Entry → Prop}

/-- The runs on pointers that meet a condition refine those on lists. -/
theorem nucleus_refines (hkill : ∀ l e, C' l e → KillsByPlace l e)
    (hC : ∀ k l e, KernelRel k l → Sound l → C k e → C' l e) :
    ((nucleus Pointers).restrict C).Refines ((nucleus Lists).restrict C') KernelRel where
  init {k} hk := by
    obtain ⟨b, q, hm⟩ := hk
    obtain ⟨l, hl, -⟩ := main_spec b Lists.boot
    obtain ⟨k', hk', hr⟩ := main_refines b q Lists.boot l hl
    rw [hm, Option.some.injEq] at hk'
    exact ⟨l, ⟨b, _, hl⟩, hk' ▸ hr⟩
  step {k l e k'} hl hr hs := by
    obtain ⟨hc, hp, hk⟩ := hs
    have hsound := sound_of_reachable hkill hl
    have hc' := hC k l e hr hsound hc
    obtain ⟨l', hl', -⟩ := kernelEntry_spec hsound (hp.lists hr) (hkill l e hc')
    obtain ⟨k₁, hk₁, hr'⟩ := kernelEntry_refines e hr l' hl'
    rw [hk, Option.some.injEq] at hk₁
    exact ⟨l', ⟨hc', hp.lists hr, hl'⟩, hk₁ ▸ hr'⟩

/-- No handler gets lost in the lists: every possible entry that meets the
condition comes to its end. -/
theorem kernelEntry_isSome (hkill : ∀ l e, C' l e → KillsByPlace l e)
    (hC : ∀ k l e, KernelRel k l → Sound l → C k e → C' l e)
    (h : ((nucleus Pointers).restrict C).Reachable k) (hp : Possible k e) (hc : C k e) :
    (kernelEntry e k).isSome := by
  obtain ⟨l, hl, hr⟩ := (nucleus_refines hkill hC).reachable h
  have hsound := sound_of_reachable hkill hl
  obtain ⟨l', hl', -⟩ := kernelEntry_spec hsound (hp.lists hr)
    (hkill l e (hC k l e hr hsound hc))
  obtain ⟨k', hk', -⟩ := kernelEntry_refines e hr l' hl'
  rw [hk']
  rfl

end Refinement

section Concrete

/-- Run a list of entries, as long as each can happen and passes a test. -/
def execute {Q : Type} [QueueApi Q] [Layout] (P : Kernel Q → Entry → Bool) :
    List Entry → Kernel Q → Option (Kernel Q)
  | [], k => some k
  | e :: es, k =>
      if Possible k e ∧ P k e = true then (kernelEntry e k).bind (execute P es) else none

theorem reachable_execute {Q : Type} [QueueApi Q] [Layout] {P : Kernel Q → Entry → Bool}
    {C : Kernel Q → Entry → Prop} (hP : ∀ k e, P k e = true → C k e) {k k' : Kernel Q}
    {es : List Entry} (h : ((nucleus Q).restrict C).Reachable k)
    (hr : execute P es k = some k') : ((nucleus Q).restrict C).Reachable k' := by
  induction es generalizing k with
  | nil => exact Option.some.inj hr ▸ h
  | cons e es ih =>
      rw [execute] at hr
      split at hr
      · next hp =>
        obtain ⟨k₁, hk₁, hr⟩ := Option.bind_eq_some_iff.mp hr
        exact ih (.step h ⟨hP k e hp.2, hp.1, hk₁⟩) hr
      · cases hr

/-- `device_semaphores` somewhere in RAM. -/
@[reducible] def ramLayout : Layout := ⟨0x20001000, by decide, by decide⟩

/-- Machine mode, with the cause of an ECALL. -/
def machineState : ProcessorState := { ProcessorState.zero with status := 0x1800, cause := 11 }

def bareImage : BootImage where
  firstState := machineState
  now := 0
  mem _ := 0
  dev _ := 0
  states _ := machineState
  support _ := ⟨fun _ => machineState, fun _ => ⟨0, 0, 0⟩⟩

/-- Links before `main`, each on its own. -/
def bareLinks : Pointers := ⟨⟨id, id⟩, fun _ => 0⟩

/-- A service request from machine mode at the time `now`. -/
def request (now a0 a1 : Word) : Entry where
  exc := { machineState with gpr := fun i => if i = 24 then a0 else if i = 25 then a1 else 0 }
  now := now
  mem _ := 0
  dev _ := 0
  states _ := machineState
  support _ := ⟨fun _ => machineState, fun _ => ⟨0, 0, 0⟩⟩

/-- The interrupt of the Interval Timer at the time `now`. -/
def tick (now : Word) : Entry :=
  { request now 0 0 with exc := { machineState with cause := 0x80000003 } }

/-- `p_semAdd` is NULL for every ready process and for no blocked one. -/
def inPlace (k : Kernel Pointers) : Bool :=
  (QueueApi.ready k.store).all (fun ps => ps.all fun q => (k.pcb q).pSemAdd == null) &&
    (QueueApi.blocked k.store).all fun ps => ps.all fun q => (k.pcb q).pSemAdd != null

theorem KillsByPlace.of_inPlace {k : Kernel Pointers} {e : Entry} (h : inPlace k = true) :
    KillsByPlace k e := by
  rw [inPlace, Bool.and_eq_true] at h
  rintro - - q - -
  constructor
  · rintro ⟨ps, hps, hq⟩
    have hall := h.1
    rw [hps, Option.all_some, List.all_eq_true] at hall
    exact eq_of_beq (hall q hq)
  · rintro ⟨ps, hps, hq⟩
    have hall := h.2
    rw [hps, Option.all_some, List.all_eq_true] at hall
    exact bne_iff_ne.mp (hall q hq)

/-- Whoever is killed by the next entry is so by place, and the CPU waits alone. -/
def tidy (k : Kernel Pointers) : Bool := inPlace k && (k.cpu.isRunning || k.currProc.isNone)

theorem byPlace_of_tidy {k : Kernel Pointers} {e : Entry} (h : tidy k = true) :
    KillsByPlace k e ∧ WaitsAlone k e := by
  obtain ⟨hplace, hwait⟩ := Bool.and_eq_true_iff.mp h
  refine ⟨.of_inPlace hplace, fun hcpu => ?_⟩
  rw [hcpu] at hwait
  exact Option.isNone_iff_eq_none.mp hwait

/-- The first process has two children. One of them creates a child of its own, then waits as
`wait` says; the other gives the CPU back to the first process. -/
def familyEvents (wait : Entry) : List Entry :=
  [request 0 createProcess 0, request 0 createProcess 0, request 0 yield 0,
    request 0 createProcess 0, wait, request 0 yield 0]

/-- The first process kills the child that waits, and the child of that one with it. -/
def killEvents (wait : Entry) : List Entry := familyEvents wait ++ [request 0 termProcess 2]

/-- A child creates a child and kills itself, and that one with it. -/
def killItselfEvents : List Entry :=
  [request 0 createProcess 0, request 0 createProcess 0, request 0 yield 0,
    request 0 createProcess 0, request 0 termProcess 0]

/-- `main`, then the given entries. -/
def bareRun (P : Kernel Pointers → Entry → Bool) (es : List Entry) : Option (Kernel Pointers) :=
  letI := ramLayout
  (main bareImage bareLinks).bind (execute P es)

theorem bareRun_restrict {P : Kernel Pointers → Entry → Bool}
    {C : Kernel Pointers → Entry → Prop} (hP : ∀ k e, P k e = true → C k e) {es : List Entry}
    {k : Kernel Pointers} (h : bareRun P es = some k) :
    ((@nucleus ramLayout Pointers _).restrict C).Reachable k := by
  let := ramLayout
  obtain ⟨k₀, hk₀, hr⟩ := Option.bind_eq_some_iff.mp h
  have h₀ : (nucleus Pointers).init k₀ := ⟨bareImage, bareLinks, hk₀⟩
  exact reachable_execute hP (.init h₀) hr

theorem bareRun_reachable {P : Kernel Pointers → Entry → Bool} {es : List Entry}
    {k : Kernel Pointers} (h : bareRun P es = some k) :
    (@nucleus ramLayout Pointers _).Reachable k := by
  have hr : ((@nucleus ramLayout Pointers _).restrict fun _ _ => True).Reachable k :=
    bareRun_restrict (fun _ _ _ => trivial) h
  exact hr.of_restrict

end Concrete
end PandOSsh.Nucleus
