import PandOSsh.Nucleus.Exceptions
import PandOSsh.Phase1.AslRefine

/-!
# The Nucleus on pointers simulates the Nucleus on lists

Both are the same program over the interface of phase 1, so the simulation of
each function follows from those of the phase 1 functions it calls. Everything
but the embedded lists is equal on the two sides.
-/

namespace PandOSsh
open Library

/-- Equal globals and related stores. -/
structure KernelRel (k : Kernel Pointers) (l : Kernel Lists) : Prop where
  data : k.toKernelData = l.toKernelData
  store : StoreRel k.store l.store

/-- Related kernels and the same returned value. -/
def KernelResultRel {β : Type} (x : Kernel Pointers × β) (y : Kernel Lists × β) : Prop :=
  KernelRel x.1 y.1 ∧ x.2 = y.2

namespace KernelRel
variable {k : Kernel Pointers} {l : Kernel Lists} {d : KernelData}
  {s : Store Pointers} {v : Store Lists}

theorem mk_store (h : StoreRel s v) : KernelRel ⟨d, s⟩ ⟨d, v⟩ := ⟨rfl, h⟩

theorem pcb (h : KernelRel k l) (p : Pcb) : k.pcb p = l.pcb p := h.store.pcb p

theorem pcb_eq (h : KernelRel k l) : k.pcb = l.pcb := funext h.pcb

theorem prio_eq (h : KernelRel k l) : k.prio = l.prio :=
  funext fun p => congrArg PcbFields.pPrio (h.pcb p)

/-- Related kernels differ in the lists only. -/
theorem destruct (h : KernelRel k l) :
    ∃ d s v, k = ⟨d, s⟩ ∧ l = ⟨d, v⟩ ∧ StoreRel s v := by
  obtain ⟨d, s⟩ := k
  obtain ⟨d', v⟩ := l
  obtain rfl : d = d' := h.data
  exact ⟨d, s, v, rfl, rfl, h.store⟩

theorem ite {p q : Prop} [Decidable p] [Decidable q] {k' : Kernel Pointers} {l' : Kernel Lists}
    (hpq : p ↔ q) (h : KernelRel k l) (h' : KernelRel k' l') :
    KernelRel (if p then k else k') (if q then l else l') := by
  by_cases hq : q
  · rwa [if_pos (hpq.mpr hq), if_pos hq]
  · rwa [if_neg (fun hp => hq (hpq.mp hp)), if_neg hq]

/-- The same change of the globals on both sides. -/
theorem update (h : KernelRel k l) (f : KernelData → KernelData) :
    KernelRel { toKernelData := f k.toKernelData, store := k.store }
      { toKernelData := f l.toKernelData, store := l.store } :=
  ⟨congrArg f h.data, h.store⟩

theorem withStore (h : KernelRel k l) (hs : StoreRel s v) :
    KernelRel { k with store := s } { l with store := v } := ⟨h.data, hs⟩

theorem setPcb (h : KernelRel k l) (p : Pcb) {f g : PcbFields} (hf : f = g) :
    KernelRel (k.setPcb p f) (l.setPcb p g) := ⟨h.data, h.store.setPcb p hf⟩

theorem saveState (h : KernelRel k l) (p : Pcb) : KernelRel (k.saveState p) (l.saveState p) :=
  h.setPcb p (by rw [h.pcb, h.data])

theorem chargeTime (h : KernelRel k l) (p : Pcb) : KernelRel (k.chargeTime p) (l.chargeTime p) :=
  h.setPcb p (by rw [h.pcb, h.data])

theorem setMem (h : KernelRel k l) (a w : Word) : KernelRel (k.setMem a w) (l.setMem a w) :=
  h.update fun d => { d with mem := Function.update d.mem a w }

theorem setDev (h : KernelRel k l) (a w : Word) : KernelRel (k.setDev a w) (l.setDev a w) :=
  h.update fun d => { d with dev := Function.update d.dev a w }

theorem ldst (h : KernelRel k l) : KernelRel k.ldst l.ldst :=
  h.update fun d => { d with cpu := .run d.exc }

theorem setExcA0 (h : KernelRel k l) (w : Word) : KernelRel (k.setExcA0 w) (l.setExcA0 w) :=
  h.update fun d => { d with exc := d.exc.setA0 w }

end KernelRel

namespace Nucleus
open KernelRel
variable {k : Kernel Pointers} {l : Kernel Lists}

theorem dispatch_refines (h : KernelRel k l) :
    Simulates KernelRel (dispatch k) (dispatch l) := by
  obtain ⟨d, s, v, rfl, rfl, hs⟩ := h.destruct
  unfold dispatch
  refine .ite (by rw [show QueueApi.emptyProcQ s = QueueApi.emptyProcQ v from hs.emptyProcQ])
    (fun _ => ?_) (fun _ => ?_)
  · refine .ite Iff.rfl (fun _ => .pure (mk_store hs)) fun _ => ?_
    exact .ite Iff.rfl (fun _ => .pure (mk_store hs)) fun _ => .pure (mk_store hs)
  · refine .bind hs.removeProcQ fun x y hxy => ?_
    rw [hxy.2]
    cases y.2 with
    | none => exact .none
    | some p =>
        refine .pure ⟨?_, hxy.1⟩
        simp [load, Kernel.pcb, hxy.1.pcb]

section Terminate

theorem killChildren_refines {f : Pcb → Kernel Pointers → Option (Kernel Pointers)}
    {g : Pcb → Kernel Lists → Option (Kernel Lists)}
    (hf : ∀ p k l, KernelRel k l → Simulates KernelRel (f p k) (g p l)) (n : ℕ) (p : Pcb)
    (h : KernelRel k l) :
    Simulates KernelRel (killChildren f n p k) (killChildren g n p l) := by
  induction n generalizing k l with
  | zero => exact .none
  | succ n ih =>
      refine .bind (h.store.emptyChild p) fun e e' he => ?_
      subst he
      refine .ite Iff.rfl (fun _ => .pure h) fun _ => ?_
      refine .bind (h.store.removeChild p) fun x y hxy => ?_
      rw [hxy.2]
      refine .bind ?_ fun _ _ hk => ih hk
      cases y.2 with
      | none => exact .pure (h.withStore hxy.1)
      | some c => exact hf c _ _ (h.withStore hxy.1)

theorem unlink_refines [Layout] (p : Pcb) (h : KernelRel k l) :
    Simulates KernelRel (unlink p k) (unlink p l) := by
  obtain ⟨d, s, v, rfl, rfl, hs⟩ := h.destruct
  unfold unlink
  refine .ite Iff.rfl (fun _ => .pure (mk_store hs)) fun _ => ?_
  refine .ite (by rw [(mk_store hs).pcb]) (fun _ => ?_) fun _ => ?_
  · refine .map (hs.outBlocked p) fun x y hxy => ?_
    exact .ite (by rw [(mk_store hxy.1).pcb]) (mk_store hxy.1) (mk_store hxy.1)
  · exact .map (hs.outProcQ p) fun x y hxy => mk_store hxy.1

theorem release_refines (p : Pcb) (h : KernelRel k l) :
    Simulates KernelRel (release p k) (release p l) := by
  obtain ⟨d, s, v, rfl, rfl, hs⟩ := h.destruct
  refine .bind (hs.outChild p) fun x y hxy => ?_
  exact .map (hxy.1.freePcb p) fun _ _ ht => mk_store ht

theorem terminateProcess_refines [Layout] (n : ℕ) (p : Pcb) (h : KernelRel k l) :
    Simulates KernelRel (terminateProcess n p k) (terminateProcess n p l) := by
  induction n generalizing p k l with
  | zero => exact .none
  | succ n ih =>
      refine .bind (.bind ?_ fun _ _ hk => unlink_refines p hk) fun _ _ hk => release_refines p hk
      exact killChildren_refines (fun p k l h => ih p h) treeBudget p h

end Terminate

section Search

/-- A search that stops at the first hit, over one list on both sides. -/
theorem findSome_refines {β : Type} {f g : Pcb → Option (Option β)} (ps : List Pcb)
    (h : ∀ p, Simulates Eq (f p) (g p)) :
    Simulates Eq (ps.findSomeM? f) (ps.findSomeM? g) := by
  induction ps with
  | nil => exact .pure rfl
  | cons p ps ih =>
      refine .bind (h p) fun x y hxy => ?_
      subst hxy
      cases x with
      | none => exact ih
      | some b => exact .pure rfl

theorem searchInTree_refines {s : Store Pointers} {v : Store Lists} (h : StoreRel s v)
    (pid : Word) (n : ℕ) (root : Pcb) :
    Simulates Eq (searchInTree pid n root s) (searchInTree pid n root v) := by
  induction n generalizing root with
  | zero => exact .none
  | succ n ih =>
      refine .ite (by rw [h.pcb]) (fun _ => .pure rfl) fun _ => ?_
      refine .bind (h.children root) fun cs cs' hcs => ?_
      subst hcs
      exact findSome_refines cs ih

theorem findPcbByPid_refines (pid : Word) (h : KernelRel k l) :
    Simulates Eq (findPcbByPid pid k) (findPcbByPid pid l) := by
  obtain ⟨d, s, v, rfl, rfl, hs⟩ := h.destruct
  have ht := searchInTree_refines hs pid treeBudget
  refine .bind (findSome_refines _ ht) fun x y hxy => ?_
  subst hxy
  cases x with
  | some p => exact .pure rfl
  | none =>
      refine .bind (R := Eq) (.bind (R := Eq) ?_ ?_) fun x y hxy => ?_
      · exact fun y hy => ⟨y, hs.ready.trans hy, rfl⟩
      · rintro ps _ rfl
        exact findSome_refines ps ht
      · subst hxy
        cases x with
        | some p => exact .pure rfl
        | none =>
            refine .map (R := Eq) (fun y hy => ⟨y, hs.blocked.trans hy, rfl⟩) ?_
            rintro ps _ rfl
            simp only [hs.pcb]

end Search

section Services

theorem nsys1_refines (a1 a2 a3 : Word) (h : KernelRel k l) :
    Simulates KernelResultRel (nsys1 a1 a2 a3 k) (nsys1 a1 a2 a3 l) := by
  obtain ⟨d, s, v, rfl, rfl, hs⟩ := h.destruct
  refine .bind hs.allocPcb fun x y hxy => ?_
  rw [hxy.2]
  cases y.2 with
  | none => exact .pure ⟨mk_store hxy.1, rfl⟩
  | some p =>
      have h1 := (mk_store (d := d) hxy.1).setPcb p
        (f := { x.1.pcb p with pS := d.states a1, pPrio := a2.toInt, pSupportStruct := a3 })
        (g := { y.1.pcb p with pS := d.states a1, pPrio := a2.toInt, pSupportStruct := a3 })
        (by rw [hxy.1.pcb])
      refine .bind (h1.store.insertProcQ p) fun s v ht => ?_
      refine .map (ht.insertChild d.currProc p) fun s v ht => ?_
      have h2 : StoreRel (s.setPcb p { s.pcb p with pTime := 0, pSemAdd := null })
          (v.setPcb p { v.pcb p with pTime := 0, pSemAdd := null }) :=
        ht.setPcb p (by rw [ht.pcb])
      exact ⟨mk_store h2, congrArg PcbFields.pPid (h2.pcb p)⟩

theorem nsys2_refines [Layout] (a1 : Word) (h : KernelRel k l) :
    Simulates KernelRel (nsys2 a1 k) (nsys2 a1 l) := by
  unfold nsys2
  refine .ite Iff.rfl (fun _ => .bind ?_ fun _ _ hk => dispatch_refines hk) fun _ => ?_
  · rw [congrArg KernelData.currProc h.data]
    cases l.currProc with
    | none => exact .pure h
    | some p => exact terminateProcess_refines _ p h
  · refine .bind (findPcbByPid_refines a1 h) fun x y hxy => ?_
    subst hxy
    cases x with
    | none => exact .pure (h.setExcA0 noProc).ldst
    | some p =>
        exact .bind (terminateProcess_refines _ p h) fun _ _ hk => dispatch_refines hk

/-- Functions of the current process. -/
theorem currProc_bind {β γ : Type} {R : β → γ → Prop} {f : Pcb → Option β} {g : Pcb → Option γ}
    (h : KernelRel k l) (hf : ∀ p, Simulates R (f p) (g p)) :
    Simulates R (k.currProc.bind f) (l.currProc.bind g) := by
  rw [congrArg KernelData.currProc h.data]
  cases l.currProc with
  | none => exact .none
  | some p => exact hf p

theorem currProc_map {f : Pcb → Kernel Pointers} {g : Pcb → Kernel Lists}
    (h : KernelRel k l) (hf : ∀ p, KernelRel (f p) (g p)) :
    Simulates KernelRel (k.currProc.map f) (l.currProc.map g) := by
  rw [congrArg KernelData.currProc h.data]
  cases l.currProc with
  | none => exact .none
  | some p => exact .pure (hf p)

theorem blockCurrent_refines (semAdd : Word) (h : KernelRel k l) :
    Simulates KernelRel (blockCurrent semAdd k) (blockCurrent semAdd l) := by
  refine currProc_bind h fun p => ?_
  have h1 := (h.saveState p).chargeTime p
  refine .map (h1.store.insertBlocked semAdd p) fun x y hxy => ?_
  exact (h1.withStore hxy.1).update fun d => { d with currProc := none }

theorem nsys3_refines (a1 : Word) (h : KernelRel k l) :
    Simulates KernelRel (nsys3 a1 k) (nsys3 a1 l) := by
  have hmem : k.mem = l.mem := congrArg KernelData.mem h.data
  unfold nsys3
  refine .ite (by rw [hmem]) (fun _ => .pure ?_) fun _ => ?_
  · rw [hmem]
    exact (h.setMem _ _).ldst
  · exact .bind (blockCurrent_refines a1 h) fun _ _ hk => dispatch_refines hk

theorem nsys4_refines (a1 : Word) (h : KernelRel k l) :
    Simulates KernelRel (nsys4 a1 k) (nsys4 a1 l) := by
  obtain ⟨d, s, v, rfl, rfl, hs⟩ := h.destruct
  refine .bind (hs.removeBlocked a1) fun x y hxy => ?_
  simp only [hxy.2]
  cases y.2 with
  | none => exact .pure (mk_store hxy.1)
  | some p => exact .map (hxy.1.insertProcQ p) fun _ _ ht => mk_store ht

theorem nsys5_refines [Layout] (a1 a2 : Word) (h : KernelRel k l) :
    Simulates KernelRel (nsys5 a1 a2 k) (nsys5 a1 a2 l) :=
  .bind (blockCurrent_refines _
      (h.update fun d => { d with softBlockCount := d.softBlockCount + 1 }))
    fun _ _ hk => dispatch_refines (hk.setDev a1 a2)

theorem nsys6_refines (h : KernelRel k l) : Simulates KernelRel (nsys6 k) (nsys6 l) := by
  refine currProc_map h fun p => ?_
  rw [h.pcb, congrArg KernelData.now h.data, congrArg KernelData.todStart h.data]
  exact h.setExcA0 _

theorem nsys7_refines [Layout] (h : KernelRel k l) : Simulates KernelRel (nsys7 k) (nsys7 l) :=
  .bind (blockCurrent_refines _
      (h.update fun d => { d with softBlockCount := d.softBlockCount + 1 }))
    fun _ _ hk => dispatch_refines hk

theorem nsys8_refines (h : KernelRel k l) : Simulates KernelRel (nsys8 k) (nsys8 l) := by
  refine currProc_map h fun p => ?_
  rw [h.pcb]
  exact h.setExcA0 _

theorem nsys9_refines (a1 : Word) (h : KernelRel k l) :
    Simulates KernelRel (nsys9 a1 k) (nsys9 a1 l) := by
  refine currProc_map h fun p => ?_
  rw [h.pcb_eq]
  refine .ite Iff.rfl (h.setExcA0 _) ?_
  cases (l.pcb p).pParent with
  | none => exact h.setExcA0 _
  | some q => exact h.setExcA0 _

theorem nsys10_refines (h : KernelRel k l) : Simulates KernelRel (nsys10 k) (nsys10 l) := by
  refine currProc_bind h fun p => ?_
  have h1 := (h.saveState p).chargeTime p
  refine .bind h1.store.removeProcQ fun x y hxy => ?_
  refine .bind (hxy.1.insertProcQ p) fun s v hs => ?_
  refine .bind (R := StoreRel) ?_ fun s v hs => ?_
  · rw [hxy.2]
    cases y.2 with
    | none => exact .pure hs
    | some q => exact hs.listAddReady q
  · exact dispatch_refines ((h1.withStore hs).update fun d => { d with currProc := none })

end Services

section Interrupts

theorem preempt_refines (p : Pcb) (h : KernelRel k l) :
    Simulates KernelRel (preempt p k) (preempt p l) := by
  have h1 := h.saveState p
  exact .map (h1.store.insertProcQ p) fun _ _ hs => h1.withStore hs

theorem pltInterruptHandler_refines (h : KernelRel k l) :
    Simulates KernelRel (pltInterruptHandler k) (pltInterruptHandler l) :=
  currProc_bind h fun p =>
    .bind (preempt_refines p (h.chargeTime p)) fun _ _ hk => dispatch_refines hk

theorem makeReady_refines (p : Pcb) (h : KernelRel k l) :
    Simulates KernelRel (makeReady p k) (makeReady p l) :=
  .map (h.store.insertProcQ p) fun _ _ hs =>
    (h.withStore hs).update fun d => { d with softBlockCount := d.softBlockCount - 1 }

theorem wakeAll_refines (semAdd : Word) (n : ℕ) (h : KernelRel k l) :
    Simulates KernelRel (wakeAll semAdd n k) (wakeAll semAdd n l) := by
  induction n generalizing k l with
  | zero => exact .none
  | succ n ih =>
      refine .bind (h.store.removeBlocked semAdd) fun x y hxy => ?_
      simp only [hxy.2]
      cases y.2 with
      | none => exact .pure (h.withStore hxy.1)
      | some p => exact .bind (makeReady_refines p (h.withStore hxy.1)) fun _ _ hk => ih hk

theorem resume_refines (h : KernelRel k l) : Simulates KernelRel (resume k) (resume l) := by
  unfold resume
  rw [congrArg KernelData.currProc h.data]
  cases l.currProc with
  | none => exact dispatch_refines h
  | some p => exact .pure h.ldst

variable [Layout]

theorem itInterruptHandler_refines (h : KernelRel k l) :
    Simulates KernelRel (itInterruptHandler k) (itInterruptHandler l) := by
  refine .bind (wakeAll_refines _ _ h) fun k l h => ?_
  have h1 := h.setMem (deviceSemaphore nSuppSem) 0
  refine .bind (R := KernelRel) ?_ fun _ _ hk => dispatch_refines hk
  simp only [congrArg KernelData.currProc h1.data]
  cases (l.setMem (deviceSemaphore nSuppSem) 0).currProc with
  | none => exact .pure h1
  | some p => exact preempt_refines p h1

theorem signal_refines (semaphoreIdx : ℕ) (status : Word) (h : KernelRel k l) :
    Simulates KernelRel (signal semaphoreIdx status k) (signal semaphoreIdx status l) := by
  obtain ⟨d, s, v, rfl, rfl, hs⟩ := h.destruct
  refine .bind (hs.removeBlocked _) fun x y hxy => ?_
  simp only [hxy.2]
  cases y.2 with
  | none => exact .pure (mk_store hxy.1)
  | some p =>
      have h1 := (mk_store (d := d) hxy.1)
      exact makeReady_refines p (h1.setPcb p (by rw [h1.pcb]))

theorem deviceInterruptHandler_refines (intLineNo : ℕ) (h : KernelRel k l) :
    Simulates KernelRel (deviceInterruptHandler intLineNo k)
      (deviceInterruptHandler intLineNo l) := by
  have hdev : k.dev = l.dev := congrArg KernelData.dev h.data
  unfold deviceInterruptHandler
  rw [hdev]
  cases devNo (l.dev (bitmapAddr intLineNo)) with
  | none => exact resume_refines h
  | some dev =>
      refine .ite Iff.rfl (fun _ => ?_) fun _ => ?_
      · refine .ite Iff.rfl (fun _ => ?_) fun _ => .ite Iff.rfl (fun _ => ?_) fun _ => ?_
        · exact .bind (signal_refines _ _ (h.setDev _ _)) fun _ _ hk => resume_refines hk
        · exact .bind (signal_refines _ _ (h.setDev _ _)) fun _ _ hk => resume_refines hk
        · exact resume_refines h
      · exact .bind (signal_refines _ _ (h.setDev _ _)) fun _ _ hk => resume_refines hk

theorem interruptHandler_refines (h : KernelRel k l) :
    Simulates KernelRel (interruptHandler k) (interruptHandler l) := by
  unfold interruptHandler
  rw [congrArg KernelData.exc h.data]
  refine .ite Iff.rfl (fun _ => pltInterruptHandler_refines h) fun _ => ?_
  refine .ite Iff.rfl (fun _ => itInterruptHandler_refines h) fun _ => ?_
  exact .ite Iff.rfl (fun _ => deviceInterruptHandler_refines _ h) fun _ => .none

end Interrupts

section Exceptions
variable [Layout]

theorem passUpOrDie_refines (t : Fin 2) (h : KernelRel k l) :
    Simulates KernelRel (passUpOrDie t k) (passUpOrDie t l) := by
  obtain ⟨d, s, v, rfl, rfl, hs⟩ := h.destruct
  refine currProc_bind (mk_store hs) fun p => ?_
  simp only [(mk_store hs).pcb]
  exact .ite Iff.rfl (fun _ => nsys2_refines 0 (mk_store hs)) fun _ => .pure (mk_store hs)

theorem syscallHandler_refines (h : KernelRel k l) :
    Simulates KernelRel (syscallHandler k) (syscallHandler l) := by
  obtain ⟨d, s, v, rfl, rfl, hs⟩ := h.destruct
  refine .ite Iff.rfl (fun _ => passUpOrDie_refines _ (mk_store hs)) fun _ => ?_
  have hk : KernelRel
      (if -10 ≤ d.exc.regA0.toInt ∧ d.exc.regA0.toInt ≤ -1 then
        { toKernelData := { d with exc := { d.exc with pcEpc := d.exc.pcEpc + wordLen } },
          store := s } else ⟨d, s⟩)
      (if -10 ≤ d.exc.regA0.toInt ∧ d.exc.regA0.toInt ≤ -1 then
        { toKernelData := { d with exc := { d.exc with pcEpc := d.exc.pcEpc + wordLen } },
          store := v } else ⟨d, v⟩) := .ite Iff.rfl (mk_store hs) (mk_store hs)
  refine .ite Iff.rfl (fun _ => .map (nsys1_refines _ _ _ hk) fun x y hxy => ?_) fun _ => ?_
  · rw [hxy.2]
    exact (hxy.1.setExcA0 _).ldst
  refine .ite Iff.rfl (fun _ => nsys2_refines _ hk) fun _ => ?_
  refine .ite Iff.rfl (fun _ => nsys3_refines _ hk) fun _ => ?_
  refine .ite Iff.rfl (fun _ => .map (nsys4_refines _ hk) fun _ _ h => h.ldst) fun _ => ?_
  refine .ite Iff.rfl (fun _ => nsys5_refines _ _ hk) fun _ => ?_
  refine .ite Iff.rfl (fun _ => .map (nsys6_refines hk) fun _ _ h => h.ldst) fun _ => ?_
  refine .ite Iff.rfl (fun _ => nsys7_refines hk) fun _ => ?_
  refine .ite Iff.rfl (fun _ => .map (nsys8_refines hk) fun _ _ h => h.ldst) fun _ => ?_
  refine .ite Iff.rfl (fun _ => .map (nsys9_refines _ hk) fun _ _ h => h.ldst) fun _ => ?_
  exact .ite Iff.rfl (fun _ => nsys10_refines hk) fun _ => passUpOrDie_refines _ hk

theorem exceptionHandler_refines (h : KernelRel k l) :
    Simulates KernelRel (exceptionHandler k) (exceptionHandler l) := by
  unfold exceptionHandler
  rw [congrArg KernelData.exc h.data]
  refine .ite Iff.rfl (fun _ => interruptHandler_refines h) fun _ => ?_
  refine .ite Iff.rfl (fun _ => passUpOrDie_refines _ h) fun _ => ?_
  exact .ite Iff.rfl (fun _ => syscallHandler_refines h) fun _ => passUpOrDie_refines _ h

theorem enter_refines (e : Entry) (h : KernelRel k l) : KernelRel (enter e k) (enter e l) :=
  h.update fun d => { d with
    exc := e.exc
    now := e.now
    mem := fun a => if isDeviceSemaphore a then d.mem a else e.mem a
    dev := e.dev
    states := e.states
    support := e.support }

/-- One kernel entry on pointers does what it does on lists. -/
theorem kernelEntry_refines (e : Entry) (h : KernelRel k l) :
    Simulates KernelRel (kernelEntry e k) (kernelEntry e l) :=
  exceptionHandler_refines (enter_refines e h)

omit [Layout] in
theorem allocFirstPcb_refines (st : ProcessorState) (h : KernelRel k l) :
    Simulates KernelResultRel (allocFirstPcb st k) (allocFirstPcb st l) := by
  refine .bind h.store.allocPcb fun x y hxy => ?_
  rw [hxy.2]
  cases y.2 with
  | none => exact .none
  | some p =>
      have h1 := h.withStore hxy.1
      exact .pure ⟨h1.setPcb p (by rw [h1.pcb]), rfl⟩

theorem main_refines (b : BootImage) (m : Pointers) (v : Lists) :
    Simulates KernelRel (main b m) (main b v) := by
  have hs : StoreRel (initLists (staticData b m).store) (initLists (staticData b v).store) :=
    storeRel_initLists rfl
  have h0 := mk_store (d := (staticData b m).toKernelData) hs
  unfold main
  refine .bind (allocFirstPcb_refines b.firstState h0) fun x y hxy => ?_
  rw [hxy.2]
  refine .bind (hxy.1.store.insertProcQ y.2) fun s v hs => ?_
  exact dispatch_refines ((hxy.1.withStore hs).update fun d =>
    { d with processCount := d.processCount + 1 })

end Exceptions
end Nucleus
end PandOSsh
