import PandOSsh.Nucleus.Runs

/-!
# Exceptions from user mode

In user mode every exception that is no interrupt is passed up to the support
level, or kills the process if it has no support structure. Which service a
system call asks for makes no difference to the Nucleus.
-/

namespace PandOSsh.Nucleus
open Kernel

section Decode
variable {s : ProcessorState}

/-- The cause is that of an ECALL. -/
def isSyscall (s : ProcessorState) : Prop :=
  s.cause &&& causeExcCodeMask = 8 ∨ s.cause &&& causeExcCodeMask = 11

instance (s : ProcessorState) : Decidable (isSyscall s) := inferInstanceAs (Decidable (_ ∨ _))

/-- A request for a service of the Nucleus is saved as a privileged instruction. -/
def userSaved (s : ProcessorState) : ProcessorState :=
  if isSyscall s ∧ s.regA0.toInt < 0 then
    { s with cause := (s.cause &&& 0xFFFFFF00) ||| (privInstr <<< causeShift) }
  else s

/-- The handler of the support level: the codes 24 to 28 are TLB exceptions. -/
def userIndex (s : ProcessorState) : Fin 2 :=
  if 24 ≤ s.cause &&& causeExcCodeMask ∧ s.cause &&& causeExcCodeMask ≤ 28 then pgFaultExcept
  else generalExcept

theorem isSyscall_not_tlb (h : isSyscall s) :
    ¬ (24 ≤ s.cause &&& causeExcCodeMask ∧ s.cause &&& causeExcCodeMask ≤ 28) := by
  rcases h with h | h
  · rw [h]
    decide
  · rw [h]
    decide

/-- A system call that is not negative asks for no service. -/
theorem service_of_nonneg (h : ¬ s.regA0.toInt < 0) : service s = .passUp generalExcept := by
  have hne : ∀ w : Word, w.toInt < 0 → s.regA0 ≠ w := fun w hw he => h (he ▸ hw)
  unfold service
  rw [if_neg (hne _ (by decide)), if_neg (hne _ (by decide)), if_neg (hne _ (by decide)),
    if_neg (hne _ (by decide)), if_neg (hne _ (by decide)), if_neg (hne _ (by decide)),
    if_neg (hne _ (by decide)), if_neg (hne _ (by decide)), if_neg (hne _ (by decide)),
    if_neg (hne _ (by decide))]

/-- In user mode an exception is passed up, whatever it asks for. -/
theorem decode_user (hi : causeIsInt s.cause = false)
    (hu : mstatusMppMask &&& s.status = mstatusMppU) :
    decode s = (.passUp (userIndex s), userSaved s) := by
  have hi' : ¬ causeIsInt s.cause = true := by simp [hi]
  unfold decode userIndex userSaved
  simp only [if_neg hi']
  by_cases hsys : isSyscall s
  · have hcode : s.cause &&& causeExcCodeMask = 8 ∨ s.cause &&& causeExcCodeMask = 11 := hsys
    rw [if_neg (isSyscall_not_tlb hsys), if_neg (isSyscall_not_tlb hsys), if_pos hcode]
    by_cases ha : s.regA0.toInt < 0
    · rw [if_pos ⟨ha, hu⟩, if_pos ⟨hsys, ha⟩]
      rfl
    · have hrange : ¬ (-10 ≤ s.regA0.toInt ∧ s.regA0.toInt ≤ -1) := fun h => ha (by omega)
      rw [if_neg fun h => ha h.1, if_neg hrange, if_neg fun h => ha h.2, service_of_nonneg ha]
  · have hcode : ¬ (s.cause &&& causeExcCodeMask = 8 ∨ s.cause &&& causeExcCodeMask = 11) := hsys
    have hsaved : ¬ (isSyscall s ∧ s.regA0.toInt < 0) := fun h => hsys h.1
    rw [if_neg hcode, if_neg hsaved]
    split
    · rfl
    · rfl

/-- Two requests are saved alike but for a0. -/
theorem userSaved_setA0 {v w : Word} (h : isSyscall s) (hv : v.toInt < 0)
    (hw : w.toInt < 0) : (userSaved (s.setA0 v)).setA0 0 = (userSaved (s.setA0 w)).setA0 0 := by
  have hsv : isSyscall (s.setA0 v) := h
  have hsw : isSyscall (s.setA0 w) := h
  unfold userSaved
  rw [if_pos ⟨hsv, hv⟩, if_pos ⟨hsw, hw⟩]
  simp [ProcessorState.setA0]

theorem userIndex_of_syscall (h : isSyscall s) : userIndex s = generalExcept :=
  if_neg (isSyscall_not_tlb h)

end Decode

section Exc
variable {Q : Type} [QueueApi Q] {f g : Kernel Q → Option (Kernel Q)} {x : ProcessorState}

def withExc (x : ProcessorState) (k : Kernel Q) : Kernel Q := { k with exc := x }

/-- The handler neither reads nor writes the exception state. -/
def IgnoresExc (f : Kernel Q → Option (Kernel Q)) : Prop :=
  ∀ x k, f (withExc x k) = (f k).map (withExc x)

omit [QueueApi Q] in
theorem IgnoresExc.bind (hf : IgnoresExc f) (hg : IgnoresExc g) :
    IgnoresExc fun k => (f k).bind g := by
  intro x k
  change (f (withExc x k)).bind g = Option.map (withExc x) ((f k).bind g)
  rw [hf, Option.map_bind, Option.bind_map]
  congr 1
  funext k₁
  exact hg x k₁

theorem dispatch_ignoresExc : IgnoresExc (dispatch (Q := Q)) := by
  intro x k
  unfold dispatch
  change (if QueueApi.emptyProcQ k.store then _ else _) = _
  split
  · change (if k.processCount = 0 then _ else if 0 < k.softBlockCount then _ else _) = _
    split
    · rfl
    · split
      · rfl
      · rfl
  · rw [Option.map_bind]
    congr 1
    funext r
    change Option.map _ r.2 = Option.map (withExc x) (Option.map _ r.2)
    rw [Option.map_map]
    rfl

theorem killChildren_ignoresExc {terminate : Pcb → Kernel Q → Option (Kernel Q)}
    (ht : ∀ p, IgnoresExc (terminate p)) (n : ℕ) (p : Pcb) :
    IgnoresExc (killChildren terminate n p) := by
  induction n with
  | zero =>
      intro x k
      rfl
  | succ n ih =>
      intro x k
      unfold killChildren
      rw [Option.map_bind]
      congr 1
      funext empty
      cases empty with
      | true => rfl
      | false =>
          change Option.bind _ _ = Option.map _ (Option.bind _ _)
          rw [Option.map_bind]
          congr 1
          funext r
          obtain ⟨s, child⟩ := r
          cases child with
          | none => exact ih x { k with store := s }
          | some c => exact (ht c).bind ih x { k with store := s }

variable [Layout]

theorem unlink_ignoresExc (p : Pcb) : IgnoresExc (unlink (Q := Q) p) := by
  intro x k
  have hcur : (withExc x k).currProc = k.currProc := rfl
  have hpcb : (withExc x k).pcb p = k.pcb p := rfl
  unfold unlink
  rw [hcur, hpcb]
  by_cases hp : some p = k.currProc
  · rw [if_pos hp, if_pos hp]
    rfl
  · rw [if_neg hp, if_neg hp]
    by_cases hs : (k.pcb p).pSemAdd ≠ null
    · rw [if_pos hs, if_pos hs, Option.map_map]
      congr 1
      funext r
      change (if isDeviceSemaphore (r.1.pcb p).pSemAdd = true then _ else _) =
        withExc x (if isDeviceSemaphore (r.1.pcb p).pSemAdd = true then _ else _)
      by_cases hd : isDeviceSemaphore (r.1.pcb p).pSemAdd = true
      · rw [if_pos hd, if_pos hd]
        rfl
      · rw [if_neg hd, if_neg hd]
        rfl
    · rw [if_neg hs, if_neg hs, Option.map_map]
      rfl

omit [Layout] in
theorem release_ignoresExc (p : Pcb) : IgnoresExc (release (Q := Q) p) := by
  intro x k
  unfold release
  rw [Option.map_bind]
  congr 1
  funext r
  change Option.map _ _ = Option.map _ (Option.map _ _)
  rw [Option.map_map]
  rfl

theorem terminateProcess_ignoresExc (n : ℕ) (p : Pcb) :
    IgnoresExc (terminateProcess (Q := Q) n p) := by
  induction n generalizing p with
  | zero =>
      intro x k
      rfl
  | succ n ih =>
      exact ((killChildren_ignoresExc ih _ p).bind (unlink_ignoresExc p)).bind (release_ignoresExc p)

/-- NSYS2 on the caller. -/
theorem nsys2_zero_ignoresExc : IgnoresExc (nsys2 (Q := Q) 0) := by
  intro x k
  unfold nsys2
  rw [if_pos rfl, if_pos rfl]
  cases hc : k.currProc with
  | none =>
      have hc' : (withExc x k).currProc = none := hc
      rw [hc']
      exact dispatch_ignoresExc x k
  | some p =>
      have hc' : (withExc x k).currProc = some p := hc
      rw [hc']
      exact (terminateProcess_ignoresExc _ p).bind dispatch_ignoresExc x k

/-- The state in which the current process asks for the service that `w` names. -/
theorem exceptionHandler_eq (k : Kernel Q) :
    exceptionHandler k = perform (decode k.exc).1 (withExc (decode k.exc).2 k) := by
  have hmem : (fun a => if isDeviceSemaphore a then k.mem a else k.mem a) = k.mem :=
    funext fun a => ite_self _
  have h := kernelEntry_eq ⟨k.exc, k.now, k.mem, k.dev, k.states, k.support⟩ k
  rw [kernelEntry, action, prepared, enter, enter, hmem] at h
  exact h

end Exc

section Confined
variable {Q : Type} [QueueApi Q] [Layout] {k : Kernel Q} {p : Pcb}

/-- Every exception of user mode goes to `passUpOrDie`. -/
theorem exceptionHandler_user (hi : causeIsInt k.exc.cause = false)
    (hu : mstatusMppMask &&& k.exc.status = mstatusMppU) :
    exceptionHandler k = passUpOrDie (userIndex k.exc) (withExc (userSaved k.exc) k) := by
  rw [exceptionHandler_eq, decode_user hi hu]
  rfl

/-- The state with a0 forgotten where the exception was saved. -/
def forgetA0 (sup : Word) (k : Kernel Q) : Kernel Q :=
  { k with
    exc := k.exc.setA0 0
    support := if sup = null then k.support else
      Function.update k.support sup { k.support sup with
        supExceptState := Function.update (k.support sup).supExceptState generalExcept
          (((k.support sup).supExceptState generalExcept).setA0 0) } }

/-- The exception state that the handler of the support level gets. -/
def savedIn (i : Fin 2) (x : ProcessorState) (s : Support) : Support :=
  { s with supExceptState := Function.update s.supExceptState i x }

theorem passUpOrDie_passUp {i : Fin 2} (x : ProcessorState) (hc : k.currProc = some p)
    (hs : (k.pcb p).pSupportStruct ≠ null) :
    passUpOrDie i (withExc x k) = some { k with
      exc := x
      support := Function.update k.support (k.pcb p).pSupportStruct
        (savedIn i x (k.support (k.pcb p).pSupportStruct))
      cpu := .context ((k.support (k.pcb p).pSupportStruct).supExceptContext i) } := by
  have hc' : (withExc x k).currProc = some p := hc
  unfold passUpOrDie
  rw [hc', ← hc]
  exact (congrArg (Option.bind · _) hc).trans (if_neg hs)

theorem passUpOrDie_die {i : Fin 2} (x : ProcessorState) (hc : k.currProc = some p)
    (hs : (k.pcb p).pSupportStruct = null) :
    passUpOrDie i (withExc x k) = nsys2 0 (withExc x k) := by
  have hc' : (withExc x k).currProc = some p := hc
  unfold passUpOrDie
  rw [hc']
  exact if_pos hs

/-- What an exception of user mode does when `p` is current. -/
structure Confined (p : Pcb) (k : Kernel Q) : Prop where
  passUp : (k.pcb p).pSupportStruct ≠ null →
    exceptionHandler k = some { k with
      exc := userSaved k.exc
      support := Function.update k.support (k.pcb p).pSupportStruct
        (savedIn (userIndex k.exc) (userSaved k.exc) (k.support (k.pcb p).pSupportStruct))
      cpu := .context
        ((k.support (k.pcb p).pSupportStruct).supExceptContext (userIndex k.exc)) }
  die : (k.pcb p).pSupportStruct = null →
    exceptionHandler k = nsys2 0 { k with exc := userSaved k.exc }
  indistinct : isSyscall k.exc → ∀ v w : Word, v.toInt < 0 → w.toInt < 0 →
    (exceptionHandler (k.setExcA0 v)).map (forgetA0 (k.pcb p).pSupportStruct) =
      (exceptionHandler (k.setExcA0 w)).map (forgetA0 (k.pcb p).pSupportStruct)

/-- Exception states that differ in a0 are passed up alike, and kill alike. -/
theorem passUpOrDie_forgetA0 {x y : ProcessorState} (hc : k.currProc = some p)
    (h : x.setA0 0 = y.setA0 0) :
    (passUpOrDie generalExcept (withExc x k)).map (forgetA0 (k.pcb p).pSupportStruct) =
      (passUpOrDie generalExcept (withExc y k)).map (forgetA0 (k.pcb p).pSupportStruct) := by
  by_cases hs : (k.pcb p).pSupportStruct = null
  · have hforget : (forgetA0 (k.pcb p).pSupportStruct ∘ withExc x : Kernel Q → Kernel Q) =
        forgetA0 (k.pcb p).pSupportStruct ∘ withExc y := by
      funext k'
      simp only [Function.comp, forgetA0, withExc, h]
    rw [passUpOrDie_die x hc hs, passUpOrDie_die y hc hs, nsys2_zero_ignoresExc,
      nsys2_zero_ignoresExc, Option.map_map, Option.map_map, hforget]
  · rw [passUpOrDie_passUp x hc hs, passUpOrDie_passUp y hc hs, Option.map_some, Option.map_some]
    congr 1
    unfold forgetA0 savedIn
    simp only [if_neg hs, Function.update_self, Function.update_idem, h]

theorem requests_indistinct (hc : k.currProc = some p) (hi : causeIsInt k.exc.cause = false)
    (hu : mstatusMppMask &&& k.exc.status = mstatusMppU) (hsys : isSyscall k.exc) {v w : Word}
    (hv : v.toInt < 0) (hw : w.toInt < 0) :
    (exceptionHandler (k.setExcA0 v)).map (forgetA0 (k.pcb p).pSupportStruct) =
      (exceptionHandler (k.setExcA0 w)).map (forgetA0 (k.pcb p).pSupportStruct) := by
  have huser : ∀ w : Word, exceptionHandler (k.setExcA0 w) =
      passUpOrDie generalExcept (withExc (userSaved (k.exc.setA0 w)) k) := by
    intro w
    have h := exceptionHandler_user (k := k.setExcA0 w) hi hu
    rwa [userIndex_of_syscall (s := (k.setExcA0 w).exc) hsys] at h
  rw [huser v, huser w]
  exact passUpOrDie_forgetA0 hc (userSaved_setA0 hsys hv hw)

/-- User mode reaches no service of the Nucleus. -/
theorem user_mode_confined (hc : k.currProc = some p) (hi : causeIsInt k.exc.cause = false)
    (hu : mstatusMppMask &&& k.exc.status = mstatusMppU) : Confined p k where
  passUp := fun hs => by
    rw [exceptionHandler_user hi hu]
    exact passUpOrDie_passUp _ hc hs
  die := fun hs => by
    rw [exceptionHandler_user hi hu]
    exact passUpOrDie_die _ hc hs
  indistinct := fun hsys _ _ hv hw => requests_indistinct hc hi hu hsys hv hw

end Confined

/-- NSYS2 asked for in user mode. -/
def userKill : ProcessorState :=
  { ProcessorState.zero with cause := 8, gpr := fun i => if i = 24 then termProcess else 0 }

/-- NSYS1 for a process with a support structure. -/
def createUser : Entry :=
  { request 0 createProcess 0 with exc := { machineState with gpr := fun i =>
      if i = 24 then createProcess else if i = 27 then 0x20003000 else 0 } }

/-- After the entries `es` a process for which `P` holds is current. -/
theorem current_after (P : Kernel Pointers → Pcb → Bool) (es : List Entry)
    (h : (bareRun (fun _ _ => true) es).any (fun k => k.currProc.any (P k)) = true) :
    ∃ k p, bareRun (fun _ _ => true) es = some k ∧ k.currProc = some p ∧ P k p = true := by
  obtain ⟨k, hk, hcur⟩ := Option.any_eq_true _ _ |>.mp h
  obtain ⟨p, hp, hP⟩ := Option.any_eq_true _ _ |>.mp hcur
  exact ⟨k, p, hk, hp, hP⟩

/-- The first process asks in user mode for its end, and so does its child, which has a support
structure. -/
theorem user_mode_confined_kill : letI := ramLayout
    ∃ k p k' p', bareRun (fun _ _ => true) [] = some k ∧ (k.pcb p).pSupportStruct = null ∧
      Confined p (withExc userKill k) ∧
      bareRun (fun _ _ => true) [createUser, request 0 yield 0] = some k' ∧
      (k'.pcb p').pSupportStruct ≠ null ∧ Confined p' (withExc userKill k') := by
  let := ramLayout
  have hi : causeIsInt userKill.cause = false := by decide
  have hu : mstatusMppMask &&& userKill.status = mstatusMppU := by decide
  obtain ⟨k, p, hk, hp, hs⟩ := current_after (fun k p => (k.pcb p).pSupportStruct = null) []
    (by decide +kernel)
  obtain ⟨k', p', hk', hp', hs'⟩ := current_after (fun k p => (k.pcb p).pSupportStruct ≠ null)
    [createUser, request 0 yield 0] (by decide +kernel)
  exact ⟨k, p, k', p', hk, of_decide_eq_true hs,
    user_mode_confined (k := withExc userKill k) hp hi hu, hk', of_decide_eq_true hs',
    user_mode_confined (k := withExc userKill k') hp' hi hu⟩

end PandOSsh.Nucleus
