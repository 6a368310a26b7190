import PandOSsh.Library.Partial
import PandOSsh.Nucleus.Runs

/-!
# PIDs

Only `initPcb` writes a `p_pid`, with the next value of a 32-bit counter. So the
PIDs that NSYS1 returns are those that the counter runs through, and they name
the processes until it leaves the positive numbers.
-/

namespace PandOSsh.Nucleus
open Library

/-- `next_pid`, and the `p_pid` of every entry of `pcbFree_table`. -/
def pids (s : Store Pointers) : Word × (Pcb → Word) := (s.nextPid, fun q => (s.pcb q).pPid)

section Stores
variable {s : Store Pointers} {p : Pcb} {f : PcbFields}

theorem pids_setPcb (h : f.pPid = (s.pcb p).pPid) : pids (s.setPcb p f) = pids s := by
  refine Prod.ext rfl ?_
  funext q
  change ((s.setPcb p f).pcb q).pPid = _
  rw [Store.setPcb_pcb]
  split
  · next hq => rw [h, hq]; rfl
  · rfl

theorem freePcb_pids : Ensures (fun s' => pids s' = pids s) (Pointer.freePcb p s) := .pure rfl

theorem insertProcQ_pids (head : Link) :
    Ensures (fun s' => pids s' = pids s) (Pointer.insertProcQ head p s) :=
  .map .any fun _ _ => rfl

theorem removeProcQ_pids (head : Link) :
    Ensures (fun r => pids r.1 = pids s) (Pointer.removeProcQ head s) := by
  unfold Pointer.removeProcQ
  split
  · exact .pure rfl
  · exact .map .any fun _ _ => rfl

theorem outProcQ_pids (head : Link) :
    Ensures (fun r => pids r.1 = pids s) (Pointer.outProcQ head p s) := by
  refine .map .any fun curr _ => ?_
  split
  · rfl
  · rfl

theorem insertChild_pids (prnt : Option Pcb) :
    Ensures (fun s' => pids s' = pids s) (Pointer.insertChild prnt p s) := by
  unfold Pointer.insertChild
  split
  · exact .pure rfl
  · exact .pure (pids_setPcb rfl)

theorem removeChild_pids : Ensures (fun r => pids r.1 = pids s) (Pointer.removeChild p s) := by
  unfold Pointer.removeChild
  split
  · exact .pure rfl
  · refine .map .any fun _ _ => ?_
    exact pids_setPcb rfl

theorem outChild_pids : Ensures (fun r => pids r.1 = pids s) (Pointer.outChild p s) := by
  unfold Pointer.outChild
  split
  · exact .pure rfl
  · exact .pure (pids_setPcb rfl)

theorem insertBlocked_pids (semAdd : Word) :
    Ensures (fun r => pids r.1 = pids s) (Pointer.insertBlocked semAdd p s) := by
  refine .bind .any fun _ _ => ?_
  split
  · exact .pure (pids_setPcb rfl)
  · split
    · exact .pure rfl
    · refine .map .any fun _ _ => ?_
      exact pids_setPcb rfl

theorem releaseIfEmpty_pids (d : Semd) : pids (Pointer.releaseIfEmpty d s) = pids s := by
  unfold Pointer.releaseIfEmpty
  split
  · rfl
  · rfl

theorem removeBlocked_pids (semAdd : Word) :
    Ensures (fun r => pids r.1 = pids s) (Pointer.removeBlocked semAdd s) := by
  refine .bind .any fun _ _ => ?_
  split
  · exact .pure rfl
  · refine .bind .any fun _ _ => ?_
    refine .map .any fun _ _ => ?_
    exact releaseIfEmpty_pids _

theorem outBlocked_pids : Ensures (fun r => pids r.1 = pids s) (Pointer.outBlocked p s) := by
  refine .map .any fun _ _ => ?_
  split
  · rfl
  · exact releaseIfEmpty_pids _

/-- The PCB that leaves the free list gets the value of the counter. -/
theorem allocPcb_pids : Ensures (fun r => pids r.1 = r.2.elim (pids s) fun p =>
      (s.nextPid + 1, Function.update (pids s).2 p s.nextPid)) (Pointer.allocPcb s) := by
  unfold Pointer.allocPcb
  split
  · exact .pure rfl
  · refine .map .any fun p _ => ?_
    refine Prod.ext rfl ?_
    funext q
    change ((Store.setPcb _ p _).pcb q).pPid = Function.update (pids s).2 p s.nextPid q
    rw [Store.setPcb_pcb, Function.update_apply]
    split
    · rfl
    · rfl

end Stores

section Handlers
variable {k : Kernel Pointers} {p : Pcb}

/-- The handler leaves all PIDs as they are. -/
def KeepsPids (k : Kernel Pointers) (o : Option (Kernel Pointers)) : Prop :=
  Ensures (fun k' => pids k'.store = pids k.store) o

namespace KeepsPids

theorem pure {k' : Kernel Pointers} (h : pids k'.store = pids k.store) : KeepsPids k (some k') :=
  Ensures.pure h

theorem congr {k₁ : Kernel Pointers} {o : Option (Kernel Pointers)} (h : KeepsPids k₁ o)
    (hk : pids k₁.store = pids k.store) : KeepsPids k o :=
  Ensures.mono h fun _ hk' => hk'.trans hk

theorem bind {o : Option (Kernel Pointers)} {f : Kernel Pointers → Option (Kernel Pointers)}
    (h : KeepsPids k o) (hf : ∀ k₁, KeepsPids k₁ (f k₁)) : KeepsPids k (o.bind f) :=
  Ensures.bind h fun k₁ hk₁ => (hf k₁).congr hk₁

theorem map {o : Option (Kernel Pointers)} {f : Kernel Pointers → Kernel Pointers}
    (h : KeepsPids k o) (hf : ∀ k₁, pids (f k₁).store = pids k₁.store) :
    KeepsPids k (o.map f) := Ensures.map h fun k₁ hk₁ => (hf k₁).trans hk₁

/-- An operation of phase 1 whose result replaces the store. -/
theorem store {α : Type} {o : Option (Store Pointers × α)}
    {f : Store Pointers × α → Option (Kernel Pointers)}
    (h : Ensures (fun r => pids r.1 = pids k.store) o)
    (hf : ∀ r, pids r.1 = pids k.store → KeepsPids { k with store := r.1 } (f r)) :
    KeepsPids k (o.bind f) :=
  Ensures.bind h fun r hr => (hf r hr).congr hr

end KeepsPids

theorem setPcb_pids {f : PcbFields} (h : f.pPid = (k.pcb p).pPid) :
    pids (k.setPcb p f).store = pids k.store := pids_setPcb h

theorem saveState_pids : pids (k.saveState p).store = pids k.store := pids_setPcb rfl

theorem chargeTime_pids : pids (k.chargeTime p).store = pids k.store := pids_setPcb rfl

theorem dispatch_pids (k : Kernel Pointers) : KeepsPids k (dispatch k) := by
  unfold dispatch
  split
  · split
    · exact .pure rfl
    · split
      · exact .pure rfl
      · exact .pure rfl
  · refine .store (removeProcQ_pids _) fun r _ => ?_
    exact Ensures.map .any fun _ _ => rfl

theorem preempt_pids (p : Pcb) (k : Kernel Pointers) : KeepsPids k (preempt p k) :=
  Ensures.map (insertProcQ_pids _) fun _ hs => hs.trans saveState_pids

theorem pltInterruptHandler_pids (k : Kernel Pointers) : KeepsPids k (pltInterruptHandler k) :=
  Ensures.bind .any fun p _ =>
    ((preempt_pids p _).bind dispatch_pids).congr chargeTime_pids

theorem makeReady_pids (p : Pcb) (k : Kernel Pointers) : KeepsPids k (makeReady p k) :=
  Ensures.map (insertProcQ_pids _) fun _ hs => hs

theorem wakeAll_pids (semAdd : Word) (n : ℕ) (k : Kernel Pointers) :
    KeepsPids k (wakeAll semAdd n k) := by
  induction n generalizing k with
  | zero => exact Ensures.none
  | succ n ih =>
      refine .store (removeBlocked_pids semAdd) fun r _ => ?_
      cases r.2 with
      | none => exact .pure rfl
      | some p => exact (makeReady_pids p _).bind ih

theorem resume_pids (k : Kernel Pointers) : KeepsPids k (resume k) := by
  unfold resume
  cases k.currProc with
  | none => exact dispatch_pids k
  | some p => exact .pure rfl

theorem blockCurrent_pids (semAdd : Word) (k : Kernel Pointers) :
    KeepsPids k (blockCurrent semAdd k) := by
  refine Ensures.bind .any fun p _ => ?_
  refine Ensures.map (insertBlocked_pids semAdd) fun r hr => ?_
  exact hr.trans (chargeTime_pids.trans saveState_pids)

section Kill

theorem killChildren_pids {terminate : Pcb → Kernel Pointers → Option (Kernel Pointers)}
    (ht : ∀ p k, KeepsPids k (terminate p k)) (n : ℕ) (p : Pcb) (k : Kernel Pointers) :
    KeepsPids k (killChildren terminate n p k) := by
  induction n generalizing k with
  | zero => exact Ensures.none
  | succ n ih =>
      refine Ensures.bind .any fun empty _ => ?_
      cases empty with
      | true => exact .pure rfl
      | false =>
          refine KeepsPids.store (removeChild_pids (p := p)) fun r _ => ?_
          cases r.2 with
          | none => exact ih _
          | some c => exact (ht c _).bind ih

variable [Layout]

theorem unlink_pids (p : Pcb) (k : Kernel Pointers) : KeepsPids k (unlink p k) := by
  unfold unlink
  split
  · exact .pure rfl
  · split
    · refine Ensures.map outBlocked_pids fun r hr => ?_
      dsimp only
      split
      · exact hr
      · exact hr
    · exact Ensures.map (outProcQ_pids _) fun r hr => hr

omit [Layout] in
theorem release_pids (p : Pcb) (k : Kernel Pointers) : KeepsPids k (release p k) :=
  .store outChild_pids fun _ _ => Ensures.map freePcb_pids fun _ hs => hs

theorem terminateProcess_pids (n : ℕ) (p : Pcb) (k : Kernel Pointers) :
    KeepsPids k (terminateProcess n p k) := by
  induction n generalizing p k with
  | zero => exact Ensures.none
  | succ n ih =>
      exact ((killChildren_pids ih _ p k).bind (unlink_pids p)).bind (release_pids p)

end Kill

section Services
variable [Layout]

theorem nsys2_pids (a1 : Word) (k : Kernel Pointers) : KeepsPids k (nsys2 a1 k) := by
  unfold nsys2
  split
  · refine KeepsPids.bind ?_ dispatch_pids
    cases k.currProc with
    | none => exact .pure rfl
    | some p => exact terminateProcess_pids _ p k
  · refine Ensures.bind .any fun found _ => ?_
    cases found with
    | none => exact .pure rfl
    | some p => exact (terminateProcess_pids _ p k).bind dispatch_pids

omit [Layout] in
theorem nsys3_pids (a1 : Word) (k : Kernel Pointers) : KeepsPids k (nsys3 a1 k) := by
  unfold nsys3
  split
  · exact .pure rfl
  · exact (blockCurrent_pids a1 k).bind dispatch_pids

omit [Layout] in
theorem nsys4_pids (a1 : Word) (k : Kernel Pointers) : KeepsPids k (nsys4 a1 k) := by
  refine .store (removeBlocked_pids a1) fun r _ => ?_
  cases r.2 with
  | none => exact .pure rfl
  | some p => exact Ensures.map (insertProcQ_pids _) fun _ hs => hs

omit [Layout] in
theorem nsys10_pids (k : Kernel Pointers) : KeepsPids k (nsys10 k) := by
  refine Ensures.bind .any fun p _ => ?_
  have hk : pids ((k.saveState p).chargeTime p).store = pids k.store :=
    chargeTime_pids.trans saveState_pids
  refine KeepsPids.congr ?_ hk
  refine Ensures.bind (removeProcQ_pids _) fun r hr => ?_
  refine Ensures.bind (insertProcQ_pids _) fun s hs => ?_
  refine Ensures.bind (P := fun s' => pids s' = pids s) ?_ fun s' hs' => ?_
  · cases r.2 with
    | none => exact .pure rfl
    | some oldHead => exact .pure rfl
  · exact (dispatch_pids _).congr (hs'.trans (hs.trans hr))

theorem signal_pids (i : ℕ) (status : Word) (k : Kernel Pointers) :
    KeepsPids k (signal i status k) := by
  refine .store (removeBlocked_pids _) fun r _ => ?_
  cases r.2 with
  | none => exact .pure rfl
  | some p => exact (makeReady_pids p _).congr (pids_setPcb rfl)

theorem itInterruptHandler_pids (k : Kernel Pointers) : KeepsPids k (itInterruptHandler k) := by
  refine (wakeAll_pids _ _ k).bind fun k₁ => ?_
  refine KeepsPids.bind ?_ dispatch_pids
  cases (k₁.setMem (deviceSemaphore nSuppSem) 0).currProc with
  | none => exact .pure rfl
  | some p => exact (preempt_pids p _).congr rfl

theorem deviceInterruptHandler_pids (n : ℕ) (k : Kernel Pointers) :
    KeepsPids k (deviceInterruptHandler n k) := by
  rw [deviceInterruptHandler_eq]
  cases served n k.dev with
  | none => exact resume_pids k
  | some x => exact ((signal_pids _ _ _).bind resume_pids).congr rfl

theorem passUpOrDie_pids (t : Fin 2) (k : Kernel Pointers) : KeepsPids k (passUpOrDie t k) := by
  refine Ensures.bind .any fun p _ => ?_
  refine Ensures.ite (fun _ => nsys2_pids 0 k) fun _ => ?_
  exact .pure rfl

/-- Every action but NSYS1 leaves the PIDs alone. -/
theorem perform_pids {a : Action} (ha : ∀ a1 a2 a3, a ≠ .createProcess a1 a2 a3)
    (k : Kernel Pointers) : KeepsPids k (perform a k) := by
  cases a with
  | plt => exact pltInterruptHandler_pids k
  | it => exact itInterruptHandler_pids k
  | device n => exact deviceInterruptHandler_pids n k
  | unknown => exact Ensures.none
  | createProcess a1 a2 a3 => exact absurd rfl (ha a1 a2 a3)
  | termProcess a1 => exact nsys2_pids a1 k
  | passeren a1 => exact nsys3_pids a1 k
  | verhogen a1 => exact (nsys4_pids a1 k).map fun _ => rfl
  | doio a1 a2 =>
      have hd : ∀ k₁ : Kernel Pointers, KeepsPids k₁ (dispatch (k₁.setDev a1 a2)) :=
        fun k₁ => (dispatch_pids (k₁.setDev a1 a2)).congr rfl
      exact ((blockCurrent_pids _ _).bind hd).congr rfl
  | getTime => exact Ensures.map (Ensures.map .any fun _ _ => rfl) fun _ hk => hk
  | clockWait => exact ((blockCurrent_pids _ _).bind dispatch_pids).congr rfl
  | getSupportPtr => exact Ensures.map (Ensures.map .any fun _ _ => rfl) fun _ hk => hk
  | getProcessId a1 =>
      refine KeepsPids.map (Ensures.map .any fun p _ => ?_) fun _ => rfl
      split
      · rfl
      · split
        · rfl
        · rfl
  | yield => exact nsys10_pids k
  | passUp t => exact passUpOrDie_pids t k

omit [Layout] in
/-- NSYS1 returns the value of the counter, which goes to the PCB that `allocPcb` returns. -/
theorem nsys1_pids (a1 a2 a3 : Word) (k : Kernel Pointers) {s : Store Pointers}
    (ha : Pointer.allocPcb k.store = some (s, some p)) :
    Ensures (fun r => r.2 = k.store.nextPid ∧
      pids r.1.store = (k.store.nextPid + 1, Function.update (pids k.store).2 p k.store.nextPid))
      (nsys1 a1 a2 a3 k) := by
  have hs := allocPcb_pids (s, some p) ha
  have ha' : QueueApi.allocPcb k.store = some (s, some p) := ha
  rw [nsys1, ha', Option.bind_some]
  dsimp only
  refine Ensures.bind (insertProcQ_pids _) fun s₁ hs₁ => ?_
  refine Ensures.map (insertChild_pids _) fun s₂ hs₂ => ?_
  have hs₀ : pids s₁ = pids s := hs₁.trans (setPcb_pids rfl)
  have hnew : pids s₂ = (k.store.nextPid + 1, Function.update (pids k.store).2 p k.store.nextPid) :=
    hs₂.trans (hs₀.trans hs)
  have hp : (s₂.pcb p).pPid = k.store.nextPid :=
    (congrFun (congrArg Prod.snd hnew) p).trans (Function.update_self ..)
  constructor
  · dsimp only
    rw [Kernel.setPcb_pcb, if_pos rfl]
    exact hp
  · refine Eq.trans (setPcb_pids (p := p) ?_) hnew
    rfl

end Services
end Handlers

section Runs
variable {k k' : Kernel Pointers} {e : Entry} {p q : Pcb} {n : ℕ}

/-- The PCB that a successful NSYS1 creates. -/
def spawned (k : Kernel Pointers) (e : Entry) : Option Pcb :=
  match action e with
  | .createProcess _ _ _ => (Pointer.allocPcb k.store).bind Prod.snd
  | _ => none

/-- The PID that NSYS1 has returned for `p` is positive and names nobody else. -/
structure Identifies (p : Pcb) (k' : Kernel Pointers) : Prop where
  returned : ∃ s, k'.cpu = .run s ∧ s.regA0 = (k'.pcb p).pPid
  positive : 0 < (k'.pcb p).pPid.toInt
  unique : ∀ q, q ≠ p → (k'.pcb q).pPid ≠ (k'.pcb p).pPid

theorem spawned_eq_some (h : spawned k e = some p) : ∃ a1 a2 a3 s,
    action e = .createProcess a1 a2 a3 ∧ Pointer.allocPcb k.store = some (s, some p) := by
  unfold spawned at h
  split at h
  · next a1 a2 a3 ha =>
    obtain ⟨⟨s, r⟩, hs, hr⟩ := Option.bind_eq_some_iff.mp h
    have hr' : r = some p := hr
    exact ⟨a1, a2, a3, s, ha, by rw [hs, hr']⟩
  · cases h

variable [Layout]

/-- What an entry does to the counter and to the PIDs. -/
theorem kernelEntry_pids (h : kernelEntry e k = some k') : pids k'.store =
    (spawned k e).elim (pids k.store) fun p =>
      (k.store.nextPid + 1, Function.update (pids k.store).2 p k.store.nextPid) := by
  rw [kernelEntry_eq] at h
  cases hs : spawned k e with
  | some p =>
      obtain ⟨a1, a2, a3, s, ha, halloc⟩ := spawned_eq_some hs
      rw [ha] at h
      obtain ⟨r, hr, rfl⟩ := Option.map_eq_some_iff.mp h
      exact (nsys1_pids a1 a2 a3 (prepared e k) halloc r hr).2
  | none =>
      by_cases hc : ∃ a1 a2 a3, action e = .createProcess a1 a2 a3
      · obtain ⟨a1, a2, a3, ha⟩ := hc
        rw [ha] at h
        obtain ⟨r, hr, rfl⟩ := Option.map_eq_some_iff.mp h
        obtain ⟨⟨s, found⟩, halloc, hrest⟩ := Option.bind_eq_some_iff.mp hr
        have halloc' : Pointer.allocPcb k.store = some (s, found) := halloc
        have hfound : found = none := by
          unfold spawned at hs
          simp only [ha, halloc'] at hs
          exact hs
        have hpids := allocPcb_pids _ halloc'
        subst hfound
        rw [← Option.some.inj hrest]
        exact hpids
      · have hkeep := perform_pids (fun a1 a2 a3 ha => hc ⟨a1, a2, a3, ha⟩) (prepared e k)
        exact hkeep k' h

/-- The runs of the Nucleus with the number of processes that NSYS1 has created. -/
def spawnRuns : System (Kernel Pointers × ℕ) Entry :=
  (nucleus Pointers).withHistory (fun _ => 0) fun k e _ n => n + (spawned k e).toList.length

/-- NSYS1 creates a process only if fewer than 2^31 - 2 have been created before. -/
def InRange (x : Kernel Pointers × ℕ) (e : Entry) : Prop :=
  (spawned x.1 e).isSome → x.2 < 2 ^ 31 - 2

/-- The counter has not left the positive numbers, and is beyond all PIDs. -/
structure CountsPids (k : Kernel Pointers) (n : ℕ) : Prop where
  nextPid : k.store.nextPid.toNat = n + 2
  small : n + 2 ≤ 2 ^ 31
  below : ∀ q, (k.pcb q).pPid.toNat < n + 2

theorem init_countsPids (h : (nucleus Pointers).init k) : CountsPids k 0 := by
  obtain ⟨b, q, hm⟩ := h
  obtain ⟨l, hl, hb⟩ := main_spec b Lists.boot
  obtain ⟨k₁, hk₁, hr⟩ := main_refines b q Lists.boot l hl
  rw [hm, Option.some.injEq] at hk₁
  subst hk₁
  constructor
  · have hn : k.store.nextPid = 2 := (congrArg PcbData.nextPid hr.store.data).trans hb.nextPid
    rw [hn]
    rfl
  · decide
  · intro q
    rw [hr.pcb_eq, hb.pcb]
    split
    · exact (by decide : (1 : Word).toNat < 0 + 2)
    · exact (by decide : (0 : Word).toNat < 0 + 2)

/-- In the positive numbers the counter only grows. -/
theorem CountsPids.step (h : CountsPids k n) (hk : kernelEntry e k = some k')
    (hn : (spawned k e).isSome → n < 2 ^ 31 - 2) :
    CountsPids k' (n + (spawned k e).toList.length) := by
  have hp := kernelEntry_pids hk
  cases hs : spawned k e with
  | none =>
      rw [hs] at hp
      have hnext : k'.store.nextPid = k.store.nextPid := congrArg Prod.fst hp
      have hpid : ∀ q, (k'.pcb q).pPid = (k.pcb q).pPid := fun q => congrFun (congrArg Prod.snd hp) q
      constructor
      · rw [hnext]
        exact h.nextPid
      · exact h.small
      · intro q
        rw [hpid]
        exact h.below q
  | some p =>
      rw [hs] at hp
      have hlt : n < 2 ^ 31 - 2 := hn (by rw [hs]; rfl)
      have hnext : k'.store.nextPid = k.store.nextPid + 1 := congrArg Prod.fst hp
      have hpid : ∀ q, (k'.pcb q).pPid =
          Function.update (fun q => (k.pcb q).pPid) p k.store.nextPid q :=
        fun q => congrFun (congrArg Prod.snd hp) q
      have hold := h.nextPid
      constructor
      · rw [hnext, BitVec.toNat_add, hold]
        have h1 : (1 : Word).toNat = 1 := rfl
        rw [h1, Nat.mod_eq_of_lt (by omega)]
        rfl
      · change n + 1 + 2 ≤ 2 ^ 31
        omega
      · intro q
        change _ < n + 1 + 2
        rw [hpid, Function.update_apply]
        split
        · omega
        · have hq := h.below q
          omega

/-- The new process gets the value of the counter, which nobody has. -/
theorem CountsPids.identifies (h : CountsPids k n) (hs : spawned k e = some p)
    (hk : kernelEntry e k = some k') (hn : n < 2 ^ 31 - 2) : Identifies p k' := by
  have hp := kernelEntry_pids hk
  rw [hs] at hp
  have hpid : ∀ q, (k'.pcb q).pPid =
      Function.update (fun q => (k.pcb q).pPid) p k.store.nextPid q :=
    fun q => congrFun (congrArg Prod.snd hp) q
  have hself : (k'.pcb p).pPid = k.store.nextPid := (hpid p).trans (Function.update_self ..)
  have hold := h.nextPid
  constructor
  · obtain ⟨a1, a2, a3, s, ha, halloc⟩ := spawned_eq_some hs
    rw [kernelEntry_eq, ha] at hk
    obtain ⟨r, hr, rfl⟩ := Option.map_eq_some_iff.mp hk
    have hret := (nsys1_pids a1 a2 a3 (prepared e k) halloc r hr).1
    have ha0 : ∀ s : ProcessorState, (s.setA0 r.2).regA0 = r.2 :=
      fun s => Function.update_self (β := fun _ => Word) 24 r.2 s.gpr
    exact ⟨_, rfl, (ha0 _).trans (hret.trans hself.symm)⟩
  · rw [hself, BitVec.toInt_eq_toNat_of_lt (by omega)]
    omega
  · intro q hq he
    rw [hself, hpid, Function.update_of_ne hq] at he
    have hb := h.below q
    rw [he, hold] at hb
    exact lt_irrefl _ hb

/-- In a run with fewer than 2^31 - 2 creations every PID that NSYS1 returns identifies
the new process. -/
theorem pids_identify {x : Kernel Pointers × ℕ} (h : (spawnRuns.restrict InRange).Reachable x)
    (hx : InRange x e) (hs : spawned x.1 e = some p) (hk : kernelEntry e x.1 = some k') :
    Identifies p k' := by
  have hcount : CountsPids x.1 x.2 := by
    refine h.invariant (I := fun x => CountsPids x.1 x.2) (fun x hx => ?_) fun x e x' _ ih hs => ?_
    · rw [hx.2]
      exact init_countsPids hx.1
    · rw [hs.2.2]
      exact ih.step hs.2.1.2 hs.1
  exact hcount.identifies hs hk (hx (by rw [hs]; rfl))

end Runs

section Rounds
variable {l l' : Kernel Lists} {p c : Pcb}

/-- A process without children is alone on the machine. -/
structure Alone (p : Pcb) (l : Kernel Lists) : Prop where
  sound : Sound l
  cpu : l.cpu.isRunning = true
  curr : l.currProc = some p
  ready : l.lists.ready = []
  child : l.lists.child p = []
  free : l.lists.free ≠ []

def spawn : Entry := request 0 createProcess 0
def stepAside : Entry := request 0 yield 0
def exit : Entry := request 0 termProcess 0

theorem action_spawn : action spawn = .createProcess 0 0 0 := by decide
theorem action_stepAside : action stepAside = .yield := by decide
theorem action_exit : action exit = .termProcess 0 := by decide

variable [Layout]

/-- The child of a lone process is the only ready one. -/
structure Spawned (p c : Pcb) (l l' : Kernel Lists) : Prop where
  sound : Sound l'
  cpu : l'.cpu.isRunning = true
  curr : l'.currProc = some p
  ready : l'.lists.ready = [c]
  child : l'.lists.child p = [c] ∧ l'.lists.child c = []
  nextPid : l'.store.nextPid = l.store.nextPid + 1

theorem Alone.spawn (h : Alone p l) : ∃ l' c, kernelEntry spawn l = some l' ∧ Spawned p c l l' := by
  have hp : Possible l Nucleus.spawn := possible_of_running h.cpu (by decide)
  obtain ⟨l', hl', he⟩ := kernelEntry_spec h.sound hp (.of_victim (by rw [action_spawn]; rfl))
  have hs := h.sound.step hp he
  rw [action_spawn] at he
  cases he with
  | createFull hf => exact absurd hf h.free
  | create hc =>
      rename_i k₁ c q
      obtain rfl : q = p := Option.some.inj (hc.curr.symm.trans h.curr)
      have hcq : c ≠ q := by
        intro he
        exact h.sound.wf.not_free h.curr (he ▸ (hc.free ▸ List.mem_cons_self :))
      have hready := hc.ready
      rw [show (prepared Nucleus.spawn l).lists.ready = [] from h.ready,
        List.perm_singleton] at hready
      refine ⟨_, c, hl', hs, rfl, ?_, hready, ⟨?_, ?_⟩, hc.nextPid⟩
      · exact (congrArg KernelData.currProc hc.data).trans h.curr
      · refine (hc.child q).trans ?_
        rw [if_pos rfl, show (prepared Nucleus.spawn l).lists.child q = [] from h.child]
      · exact (hc.child c).trans (by rw [if_neg hcq, if_pos rfl])

/-- The child has the CPU, its parent waits for it. -/
structure HandedOver (p c : Pcb) (l l' : Kernel Lists) : Prop where
  sound : Sound l'
  cpu : l'.cpu.isRunning = true
  curr : l'.currProc = some c
  ready : l'.lists.ready = [p]
  child : l'.lists.child p = [c] ∧ l'.lists.child c = []
  nextPid : l'.store.nextPid = l.store.nextPid + 1

theorem Spawned.stepAside (h : Spawned p c l l') :
    ∃ l'', kernelEntry stepAside l' = some l'' ∧ HandedOver p c l l'' := by
  have hp : Possible l' Nucleus.stepAside := possible_of_running h.cpu (by decide)
  obtain ⟨l'', hl'', he⟩ := kernelEntry_spec h.sound hp (.of_victim (by rw [action_stepAside]; rfl))
  have hs := h.sound.step hp he
  have hw : WF (prepared Nucleus.stepAside l') := h.sound.wf.data rfl rfl
  obtain ⟨k₁, hrun, hq, hready⟩ := nsys10_spec hw (p := p) h.curr
  rw [show (prepared Nucleus.stepAside l').lists.ready = [c] from h.ready] at hready
  have hd : kernelEntry Nucleus.stepAside l' = dispatch k₁ := by
    rw [kernelEntry_eq, action_stepAside]
    exact hrun
  have hfront : k₁.lists.ready = c :: [p] := hready
  have hload := dispatch_load hfront
  have hl : l'' = load c (k₁.setLists { k₁.lists with ready := [p] }) :=
    Option.some.inj (hl''.symm.trans (hd.trans hload))
  have hchild : k₁.lists.child = l'.lists.child := by rw [hq.frame]; rfl
  subst hl
  refine ⟨_, hl'', hs, rfl, rfl, rfl, ?_, hq.nextPid.trans h.nextPid⟩
  change k₁.lists.child p = [c] ∧ k₁.lists.child c = []
  rw [hchild]
  exact h.child

theorem HandedOver.exit (h : HandedOver p c l l') :
    ∃ l'', kernelEntry exit l' = some l'' ∧ Alone p l'' ∧
      l''.store.nextPid = l.store.nextPid + 1 := by
  have hp : Possible l' Nucleus.exit := possible_of_running h.cpu (by decide)
  have hbelow : ∀ {q}, Descendant l'.lists c q → q = c := by
    intro q hq
    induction hq with
    | refl => rfl
    | tail _ hstep ih =>
        rw [ih, h.child.2] at hstep
        cases hstep
  have hkill : KillsByPlace l' Nucleus.exit := by
    intro q hv r hr hc
    have hv' : l'.currProc = some q := by
      rw [action_exit] at hv
      exact hv
    obtain rfl : c = q := Option.some.inj (h.curr.symm.trans hv')
    rw [hbelow (h.sound.wf.inSubtree_iff.mp hr)] at hc
    exact absurd h.curr hc
  obtain ⟨l'', hl'', he⟩ := kernelEntry_spec h.sound hp hkill
  have hs := h.sound.step hp he
  rw [action_exit] at he
  cases he with
  | termUnknown h0 => exact absurd rfl h0
  | term hv hk hd =>
      rename_i k₁ q D
      rw [if_pos rfl] at hv
      obtain rfl : c = q := Option.some.inj (h.curr.symm.trans hv)
      have hD : ∀ q, q ∈ D ↔ q = c := by
        intro q
        rw [hk.mem_iff]
        constructor
        · exact hbelow
        · rintro rfl
          exact .refl
      have hpc : p ∉ D := by
        rw [hD]
        intro he
        have hn := h.sound.wf.not_queued h.curr
        rw [← he] at hn
        exact hn (by simp [Lists.queued, h.ready])
      have hready : k₁.lists.ready = [p] := by
        rw [hk.ready, show (prepared Nucleus.exit l').lists.ready = [p] from h.ready]
        simp [hpc]
      have hchild : k₁.lists.child p = [] := by
        rw [hk.child, show (prepared Nucleus.exit l').lists.child p = [c] from h.child.1]
        simp [hD]
      have hfree : c ∈ k₁.lists.free := hk.mem_free.mpr (.inl ((hD c).mpr rfl))
      cases hd with
      | idle hi =>
          rw [hready] at hi
          cases hi
      | load p' ps hl =>
          rw [hready] at hl
          obtain ⟨rfl, rfl⟩ := List.cons.inj hl
          refine ⟨_, hl'', ⟨hs, rfl, rfl, rfl, hchild, ?_⟩, hk.nextPid.trans h.nextPid⟩
          exact List.ne_nil_of_mem hfree

end Rounds

section Wrap
variable [Layout]

theorem spawned_of_nextPid {k k' : Kernel Pointers} {e : Entry} (hk : kernelEntry e k = some k')
    (hn : k'.store.nextPid = k.store.nextPid + 1) : ∃ p, spawned k e = some p := by
  cases hs : spawned k e with
  | some p => exact ⟨p, rfl⟩
  | none =>
      have hp := kernelEntry_pids hk
      rw [hs] at hp
      have hsame : k'.store.nextPid = k.store.nextPid := congrArg Prod.fst hp
      rw [hsame] at hn
      exact absurd hn (by simp)

omit [Layout] in
theorem spawned_stepAside (k : Kernel Pointers) : spawned k stepAside = none := by
  rw [spawned, action_stepAside]

omit [Layout] in
theorem spawned_exit (k : Kernel Pointers) : spawned k exit = none := by
  rw [spawned, action_exit]

/-- A step on lists from related states, in a run on pointers that counts. -/
theorem spawnRuns_step {k : Kernel Pointers} {l l' : Kernel Lists} {e : Entry} {n : ℕ}
    (h : spawnRuns.Reachable (k, n)) (hr : KernelRel k l) (hrun : l.cpu.isRunning = true)
    (he : action e ≠ .unknown) (hl : kernelEntry e l = some l') :
    ∃ k', kernelEntry e k = some k' ∧ KernelRel k' l' ∧
      spawnRuns.Reachable (k', n + (spawned k e).toList.length) := by
  obtain ⟨k', hk, hr'⟩ := kernelEntry_refines e hr l' hl
  have hcpu : k.cpu.isRunning = true := by
    rw [congrArg KernelData.cpu hr.data]
    exact hrun
  exact ⟨k', hk, hr', .step h ⟨⟨possible_of_running hcpu he, hk⟩, rfl⟩⟩

/-- After any number of rounds the machine is as after the boot, but for the counter. -/
theorem rounds (n : ℕ) : ∃ k l, spawnRuns.Reachable (k, n) ∧ KernelRel k l ∧
    Alone firstPcb l ∧ k.store.nextPid = BitVec.ofNat 32 (n + 2) := by
  induction n with
  | zero =>
      obtain ⟨l, hl, hb⟩ := main_spec bareImage Lists.boot
      obtain ⟨k, hk, hr⟩ := main_refines bareImage bareLinks Lists.boot l hl
      refine ⟨k, l, .init ⟨⟨bareImage, bareLinks, hk⟩, rfl⟩, hr, ?_, ?_⟩
      · constructor
        · exact hb.sound
        · rw [congrArg KernelData.cpu hb.data]
          rfl
        · exact congrArg KernelData.currProc hb.data
        · exact hb.ready
        · exact hb.child _
        · intro hf
          have hlen := congrArg List.length hb.free
          rw [hf] at hlen
          exact absurd hlen (by decide)
      · exact (congrArg PcbData.nextPid hr.store.data).trans hb.nextPid
  | succ n ih =>
      obtain ⟨k, l, hk, hr, ha, hn⟩ := ih
      obtain ⟨l₁, c, hl₁, hs₁⟩ := ha.spawn
      obtain ⟨k₁, hk₁, hr₁, hreach₁⟩ := spawnRuns_step hk hr ha.cpu (by decide) hl₁
      obtain ⟨l₂, hl₂, hs₂⟩ := hs₁.stepAside
      obtain ⟨k₂, hk₂, hr₂, hreach₂⟩ := spawnRuns_step hreach₁ hr₁ hs₁.cpu (by decide) hl₂
      obtain ⟨l₃, hl₃, ha₃, hn₃⟩ := hs₂.exit
      obtain ⟨k₃, hk₃, hr₃, hreach₃⟩ := spawnRuns_step hreach₂ hr₂ hs₂.cpu (by decide) hl₃
      have hpid : ∀ {k : Kernel Pointers} {l : Kernel Lists}, KernelRel k l →
          k.store.nextPid = l.store.nextPid := fun h => congrArg PcbData.nextPid h.store.data
      have hstep : k₁.store.nextPid = k.store.nextPid + 1 := by
        rw [hpid hr₁, hpid hr, hs₁.nextPid]
      obtain ⟨p, hp⟩ := spawned_of_nextPid hk₁ hstep
      rw [spawned_exit, spawned_stepAside, hp] at hreach₃
      refine ⟨k₃, l₃, hreach₃, hr₃, ha₃, ?_⟩
      rw [hpid hr₃, hn₃, ← hpid hr, hn]
      exact (BitVec.ofNat_add (n + 2) 1).symm

end Wrap

/-- After 2^31 - 2 creations the next PID is negative. -/
theorem pids_wrap : ¬ ∀ (_ : Layout) (x : Kernel Pointers × ℕ) (e : Entry) (p : Pcb)
    (k' : Kernel Pointers), spawnRuns.Reachable x → spawned x.1 e = some p →
    kernelEntry e x.1 = some k' → Identifies p k' := by
  intro hall
  let := ramLayout
  obtain ⟨k, l, hk, hr, ha, hn⟩ := rounds (2 ^ 31 - 2)
  obtain ⟨l₁, c, hl₁, hs₁⟩ := ha.spawn
  obtain ⟨k₁, hk₁, hr₁, -⟩ := spawnRuns_step hk hr ha.cpu (by decide) hl₁
  have hstep : k₁.store.nextPid = k.store.nextPid + 1 := by
    rw [show k₁.store.nextPid = l₁.store.nextPid from congrArg PcbData.nextPid hr₁.store.data,
      show k.store.nextPid = l.store.nextPid from congrArg PcbData.nextPid hr.store.data,
      hs₁.nextPid]
  obtain ⟨p, hp⟩ := spawned_of_nextPid hk₁ hstep
  have hid := hall ramLayout (k, 2 ^ 31 - 2) spawn p k₁ hk hp hk₁
  have hpids := kernelEntry_pids hk₁
  rw [hp] at hpids
  have hself : (k₁.pcb p).pPid = k.store.nextPid :=
    (congrFun (congrArg Prod.snd hpids) p).trans (Function.update_self ..)
  have hpos := hid.positive
  rw [hself, hn] at hpos
  exact absurd hpos (by decide)

/-- The first process that NSYS1 creates. -/
theorem pids_identify_first : letI := ramLayout
    ∃ k k' p, bareRun (fun _ _ => true) [] = some k ∧ spawned k spawn = some p ∧
      kernelEntry spawn k = some k' ∧ Identifies p k' := by
  let := ramLayout
  have hrun : (bareRun (fun _ _ => true) []).any (fun k =>
      (spawned k spawn).isSome && (kernelEntry spawn k).isSome) = true := by decide +kernel
  obtain ⟨k, hk, hsome⟩ := Option.any_eq_true _ _ |>.mp hrun
  obtain ⟨hs, hstep⟩ := Bool.and_eq_true_iff.mp hsome
  obtain ⟨p, hp⟩ := Option.isSome_iff_exists.mp hs
  obtain ⟨k', hk'⟩ := Option.isSome_iff_exists.mp hstep
  have hinit : (nucleus Pointers).init k := by
    obtain ⟨k₀, hk₀, he⟩ := Option.bind_eq_some_iff.mp hk
    exact ⟨bareImage, bareLinks, hk₀.trans he⟩
  have hreach : (spawnRuns.restrict InRange).Reachable (k, 0) := .init ⟨hinit, rfl⟩
  have h₀ : 0 < 2 ^ 31 - 2 := by decide
  exact ⟨k, k', p, hk, hp, hk', pids_identify hreach (fun _ => h₀) hp hk'⟩

end PandOSsh.Nucleus
