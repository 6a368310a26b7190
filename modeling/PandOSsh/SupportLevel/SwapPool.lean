import PandOSsh.SupportLevel.SwapMutex

/-!
# The Swap Pool in every run

What holds of the tables at each statement of the pager, of `sys2` and of `sys6`,
and that no other process disturbs it: the holder of `swapSemaphore` is the only
one who changes the Swap Pool, and a page becomes present in the pager of its own
U-proc only.
-/

namespace PandOSsh.SupportLevel
open Library Coherent

/-- The saved EntryHi of a page fault names a page that is not present. -/
def Faulted (vm : Vm) (a : Asid) (entryHi : Word) : Prop :=
  ∃ k, entryHi = pteHI a k ∧ ¬ Present vm a k

/-- What the holder of the Swap Pool is doing once its U-proc is here. -/
def Control.busy (c : Control) (b : Busy) : Busy :=
  match c with
  | .pager _ _ (.write i _ _) => .evicting i
  | .pager _ _ (.read i) => .loading i
  | .pager _ _ .clearFlagFailed | .pager _ _ .clearFlag => .idle
  | _ => b

/-- The pager has taken a frame out of use. -/
def Control.working : Control → Bool
  | .pager _ _ (.write ..) | .pager _ _ (.read _) | .pager _ _ (.record _) |
    .pager _ _ (.install _) => true
  | _ => false

/-- `sys2` has freed the frames. -/
def Control.swept : Control → Bool
  | sys2 pt =>
      match pt with
      | .verhogen | .term => true
      | .checkFlag | .releaseMutex | .signal | .passeren | .sweep => false
  | run _ | pager _ _ _ | sys6 _ _ => false

/-- What holds when the U-proc with this ASID is here. -/
def Stage (vm : Vm) (vacant : Set Asid) (busy : Busy) (a : Asid) : Control → Prop
  | .pager hi _ pt =>
      match pt with
      | .cause true => True
      | .cause false | .passeren | .setFlag | .choose => Faulted vm a hi
      | .evict _ => Faulted vm a hi ∧ busy = .idle
      | .write i x y => Faulted vm a hi ∧ busy = .evicting i ∧
          ∃ b l, b ∉ vacant ∧ vm.swapPool i = entry b l ∧ x = b.num ∧ y = pageNo l
      | .read i => Faulted vm a hi ∧ busy = .loading i ∧ Recorded vm vacant i
      | .record i => Faulted vm a hi ∧ busy = .loading i
      | .install i => Faulted vm a hi ∧ busy = .loading i ∧ (vm.swapPool i).swAsid = a.num ∧
          (vm.swapPool i).swPageNo = missingPage hi
      | .clearFlagFailed | .verhogenFailed | .clearFlag | .verhogen => True
  | .sys2 .verhogen | .sys2 .term => Swept vm a
  | .sys6 child .create => Built vm child
  | _ => True

/-- A step of the run reloads no evicted frame without success. -/
def Reloads (s : State) (e : Event) : Prop :=
  ∀ a hi back i w, s.uproc e.1 = some (a, .pager hi back (.read i)) → e.2 = .status w →
    (s.vm.swapPool i).swAsid ≠ -1 → w = 1

/-- The registers of the flash device of a U-proc. -/
def flashReg (a : Asid) : Word :=
  startDevReg + (flashLineNo - 3) * 0x80 + BitVec.ofInt 32 (a.num - 1) * 0x10

/-- The flash block of the page with index k. -/
def blockOf (k : PageIdx) : BitVec 24 := BitVec.ofNat 24 k

section Transfer
variable {vm : Vm} {a : Asid} {k : PageIdx} {i : Frame} {w op : Word}

theorem getFlashRegister_num (a : Asid) : getFlashRegister a.num = some (flashReg a) := by
  have ha := a.isLt
  have hpos := num_pos a
  have hlt : ¬ (a.num - 1 < 0 ∨ (uprocMax : ℤ) ≤ a.num - 1) := by
    simp only [Asid.num]
    omega
  simp only [getFlashRegister, if_neg hlt, flashReg]

/-- The command holds the block and the operation. -/
theorem command_read : ∀ k : PageIdx,
    (BitVec.ofInt 32 k.val <<< 8 ||| flashRead).extractLsb' 8 24 = blockOf k ∧
      (BitVec.ofInt 32 k.val <<< 8 ||| flashRead) &&& 0xFF = flashRead := by
  decide

theorem command_write : ∀ k : PageIdx,
    (BitVec.ofInt 32 k.val <<< 8 ||| flashWrite).extractLsb' 8 24 = blockOf k ∧
      (BitVec.ofInt 32 k.val <<< 8 ||| flashWrite) &&& 0xFF = flashWrite := by
  decide

theorem readWriteFlashdrive_pageNo :
    vm.readWriteFlashdrive a.num (pageNo k) (physicalFrame i) op w =
      (vm.flashDevice (flashReg a) (physicalFrame i) (BitVec.ofInt 32 k.val <<< 8 ||| op) w, w) := by
  have hk := k.isLt
  rw [Vm.readWriteFlashdrive, getFlashRegister_num, getFlashBlock_pageNo]
  simp only
  rw [if_neg (by omega)]

/-- The transfer of a page of a U-proc returns what the device returns. -/
theorem readWriteFlashdrive_status :
    (vm.readWriteFlashdrive a.num (pageNo k) (physicalFrame i) op w).2 = w := by
  rw [readWriteFlashdrive_pageNo]

theorem readWriteFlashdrive_read :
    (vm.readWriteFlashdrive a.num (pageNo k) (physicalFrame i) flashRead w).1 =
      if w = 1 then vm.setRam (pfn (physicalFrame i)) (vm.flash (flashReg a) (blockOf k)) else vm := by
  obtain ⟨hb, hop⟩ := command_read k
  rw [readWriteFlashdrive_pageNo]
  simp only [Vm.flashDevice, hb, hop, if_true]

theorem readWriteFlashdrive_write :
    (vm.readWriteFlashdrive a.num (pageNo k) (physicalFrame i) flashWrite w).1 =
      if w = 1 then vm.setFlash (flashReg a) (blockOf k) (vm.ram (pfn (physicalFrame i))) else vm := by
  obtain ⟨hb, hop⟩ := command_write k
  have hne : flashWrite ≠ flashRead := by decide
  rw [readWriteFlashdrive_pageNo]
  simp only [Vm.flashDevice, hb, hop, if_true, if_neg hne]

end Transfer

section Moves
variable {exact : Prop} {a b : Asid} {vm vm' : Vm} {vacant vacant' : Set Asid} {busy busy' : Busy}
  {c c' d : Control} {inp : Input} {svc : Service} {k : PageIdx} {hi : Word}

theorem Faulted.congr (h : Faulted vm a hi) (hp : ∀ k, Present vm' a k → Present vm a k) :
    Faulted vm' a hi := by
  obtain ⟨k, hk, hn⟩ := h
  exact ⟨k, hk, fun hp' => hn (hp k hp')⟩

theorem present_congr (h : vm'.privatePgTbl = vm.privatePgTbl) (hp : Present vm' a k) :
    Present vm a k := by
  rw [Present, h] at hp
  exact hp

theorem present_of_evict {i : Frame} (hp : Present (vm.evict i) a k) : Present vm a k := by
  rw [Present, Vm.evict] at hp
  split at hp
  · next x l hx =>
    simp only [Vm.tlbUpdate_table] at hp
    by_cases hne : (a, k) = (x, l)
    · simp only [Prod.mk.injEq] at hne
      rw [hne.1, hne.2, Vm.setLO_self, isValid_clear] at hp
      exact absurd hp (by simp)
    · rw [Vm.setLO_of_ne hne] at hp
      exact hp
  · exact hp

theorem pteAt_fst {x : Asid × PageIdx} {n : ℤ} (h : pteAt a n = some x) : x.1 = a := by
  unfold pteAt at h
  split at h
  · simp only [Option.some.injEq] at h
    rw [← h]
  · exact absurd h (by simp)

theorem install_table_other {n : ℤ} {i : Frame} (hb : b ≠ a) :
    (vm.install a n i).privatePgTbl b = vm.privatePgTbl b := by
  unfold Vm.install
  cases h : pteAt a (getFlashBlock n) with
  | none => rfl
  | some x =>
      simp only [Vm.tlbUpdate_table]
      exact Function.update_of_ne (fun he => hb (he.trans (pteAt_fst h))) ..

/-- A page becomes present in the pager of its own U-proc only. -/
theorem Changes.present (h : Changes a vm vm') (hb : b ≠ a) (hp : Present vm' b k) :
    Present vm b k := by
  cases h with
  | same | refill | flag | record => exact hp
  | store hv =>
      obtain ⟨_, _, _, rfl⟩ := Vm.store_eq hv
      exact hp
  | choose => exact present_congr Vm.chooseFrame_table hp
  | evict => exact present_of_evict hp
  | transfer => exact present_congr Vm.readWriteFlashdrive_frame.1 hp
  | install =>
      rw [Present, install_table_other hb] at hp
      exact hp
  | sweep =>
      have hpr := sweep_shrinks.present b k hp
      rw [Present, hpr] at hp
      exact hp
  | init child =>
      by_cases hc : b = child
      · subst hc
        simp [Present, Vm.initPageTable, isValid, dirtyOn, validOn] at hp
      · rw [Present, Vm.initPageTable] at hp
        simp only [Function.update_of_ne hc] at hp
        exact hp

theorem Built.congr (h : Built vm b) (ht : vm'.privatePgTbl = vm.privatePgTbl) : Built vm' b := by
  intro l
  rw [ht]
  exact h l

theorem Built.install {n : ℤ} {i : Frame} (hb : Built vm b) : Built (vm.install a n i) b := by
  intro l
  unfold Vm.install
  cases pteAt a (getFlashBlock n) with
  | none => exact hb l
  | some x =>
      simp only [Vm.tlbUpdate_table, Vm.setLO_entryHI, Vm.setSwap_table]
      exact hb l

/-- A page table keeps belonging to its U-proc. -/
theorem Changes.built (h : Changes a vm vm') (hb : Built vm b) : Built vm' b := by
  cases h with
  | same | refill | flag | record => exact hb
  | store hv =>
      obtain ⟨_, _, _, rfl⟩ := Vm.store_eq hv
      exact hb
  | choose => exact hb.congr Vm.chooseFrame_table
  | evict => exact evict_built hb
  | transfer => exact hb.congr Vm.readWriteFlashdrive_frame.1
  | install => exact hb.install
  | sweep =>
      intro l
      rw [sweep_shrinks.entryHI]
      exact hb l
  | init child =>
      by_cases hc : b = child
      · subst hc
        exact init_built
      · intro l
        simp only [Vm.initPageTable, Function.update_of_ne hc]
        exact hb l

theorem install_swAsid {n : ℤ} {i j : Frame} :
    ((vm.install a n j).swapPool i).swAsid = (vm.swapPool i).swAsid := by
  have hset : ∀ pte, ((vm.setSwap j { vm.swapPool j with swPte := pte }).swapPool i).swAsid =
      (vm.swapPool i).swAsid := by
    intro pte
    by_cases hj : i = j
    · subst hj
      simp
    · rw [Vm.setSwap_of_ne hj]
  unfold Vm.install
  cases pteAt a (getFlashBlock n) with
  | none => exact hset none
  | some x =>
      simp only [Vm.tlbUpdate_swapPool, Vm.setLO_swapPool]
      exact hset (some x)

/-- A frame is freed, or recorded for the U-proc that takes the step. -/
theorem Changes.swAsid (h : Changes a vm vm') (i : Frame) :
    (vm'.swapPool i).swAsid = (vm.swapPool i).swAsid ∨ (vm'.swapPool i).swAsid = a.num ∨
      (vm'.swapPool i).swAsid = -1 := by
  cases h with
  | same | refill | flag | init => exact .inl rfl
  | store hv =>
      obtain ⟨_, _, _, rfl⟩ := Vm.store_eq hv
      exact .inl rfl
  | choose => rw [Vm.chooseFrame_swapPool]; exact .inl rfl
  | evict => rw [Vm.evict_swapPool]; exact .inl rfl
  | transfer => rw [Vm.readWriteFlashdrive_frame.2.1]; exact .inl rfl
  | record n j =>
      by_cases hj : i = j
      · subst hj
        exact .inr (.inl (by simp [Vm.recordPage]))
      · left
        rw [Vm.recordPage, Vm.setSwap_of_ne hj]
  | install => exact .inl install_swAsid
  | sweep =>
      rw [sweep_swapPool]
      split
      · exact .inr (.inr rfl)
      · exact .inl rfl

/-- Outside the critical section nobody touches the Swap Pool. -/
theorem Moves.outside (h : Moves a vm c inp c' vm' svc) (hc : c.past .swapSemaphore = false) :
    vm'.swapPool = vm.swapPool ∧ c'.busy busy = busy := by
  cases h with
  | store _ hv =>
      obtain ⟨_, _, _, rfl⟩ := Vm.store_eq hv
      exact ⟨rfl, rfl⟩
  | choose | evict | evictFree | write | read | readFailed | clearFlagFailed | record | install |
    clearFlag | sweep | setFlag | verhogen | verhogenFailed | releaseMutex | sys2Verhogen =>
      simp [Control.past] at hc
  | code | refill | fault | trap | terminate | terminal | execute | codePasseren | codeVerhogen |
    cause | causeMod | passeren | checkHeld | check | signal | sys2Passeren | term | init |
    create | createFailed | sys6Passeren => exact ⟨rfl, rfl⟩

theorem tlbUpdate_none {hi' lo : Word} (h : vm.tlb hi = none) : (vm.tlbUpdate hi' lo).tlb hi = none := by
  unfold Vm.tlbUpdate
  split
  · next hs =>
    have hne : hi ≠ hi' := fun he => by rw [← he, h] at hs; exact absurd hs (by simp)
    simp only [Function.update_of_ne hne]
    exact h
  · exact h

/-- The TLB gets entries of the U-proc that takes the step only. -/
theorem Changes.tlb_none (h : Changes a vm vm') (ha : Built vm a) (hb : b ≠ a)
    (hn : vm.tlb (pteHI b k) = none) : vm'.tlb (pteHI b k) = none := by
  cases h with
  | same | flag | record | init => exact hn
  | store hv =>
      obtain ⟨_, _, _, rfl⟩ := Vm.store_eq hv
      exact hn
  | refill va replaced =>
      have hne : pteHI b k ≠ (vm.privatePgTbl a (Vm.refillIndex va)).entryHI := by
        rw [ha]
        exact fun he => hb (pteHI_injective he).1
      simp only [Vm.uTLB_RefillHandler, Vm.tlbWr, Function.update_of_ne hne]
      cases replaced with
      | none => exact hn
      | some r =>
          simp only [Option.elim_some]
          by_cases hr : pteHI b k = r
          · rw [hr, Function.update_self]
          · rw [Function.update_of_ne hr]
            exact hn
  | choose => rw [Vm.chooseFrame_tlb]; exact hn
  | evict =>
      unfold Vm.evict
      split
      · exact tlbUpdate_none hn
      · exact hn
  | install n =>
      unfold Vm.install
      cases pteAt a (getFlashBlock n) with
      | none => exact hn
      | some x => exact tlbUpdate_none hn
  | transfer => rw [Vm.readWriteFlashdrive_frame.2.2.2]; exact hn
  | sweep => rfl

theorem tlb_congr_choose (h : Coherent exact vm vacant busy) :
    Coherent exact vm.chooseFrame.2 vacant busy :=
  h.congr Vm.chooseFrame_table Vm.chooseFrame_swapPool Vm.chooseFrame_tlb

theorem transfer_coherent {asid vpn : ℤ} {data0 op w : Word} (h : Coherent exact vm vacant busy) :
    Coherent exact (vm.readWriteFlashdrive asid vpn data0 op w).1 vacant busy :=
  h.congr Vm.readWriteFlashdrive_frame.1 Vm.readWriteFlashdrive_frame.2.1
    Vm.readWriteFlashdrive_frame.2.2.2

theorem Recorded.congr {i : Frame} (h : Recorded vm vacant i) (hs : vm'.swapPool = vm.swapPool) :
    Recorded vm' vacant i := by
  rw [Recorded, hs]
  exact h

theorem Recorded.free {i : Frame} (h : Recorded vm vacant i) (hi : (vm.swapPool i).swAsid = -1) :
    vm.swapPool i = Vm.freeEntry := by
  rcases h with hf | ⟨b, l, _, hs⟩
  · exact hf
  · rw [hs] at hi
    exact absurd hi (entry_swAsid_ne b l)

/-- A page fault that the TLB raises is one of the page table. -/
theorem faulted_of_pageFaults {va : Word} (h : Coherent exact vm vacant busy)
    (hf : vm.pageFaults a va = true) : Faulted vm a (accessHI a va) := by
  unfold Vm.pageFaults at hf
  split at hf
  · next lo hlo =>
    obtain ⟨b, k, _, hhi, rfl⟩ := h.tlb _ _ hlo
    obtain rfl := eq_of_accessHI hhi
    refine ⟨k, hhi, fun hp => ?_⟩
    rw [hp] at hf
    exact absurd hf (by simp)
  · exact absurd hf (by simp)

/-- Every step of a U-proc keeps the tables coherent and reaches its next stage. -/
theorem Moves.coherent (h : Moves a vm c inp c' vm' svc) (hc : Coherent exact vm vacant busy)
    (ha : a ∉ vacant) (hst : Stage vm vacant busy a c)
    (hidle : c.past .swapSemaphore = true → c.working = false → busy = .idle)
    (hchild : ∀ child, c = .sys6 child .init → child ∈ vacant)
    (hrel : exact → ∀ hi back i w, c = .pager hi back (.read i) → inp = .status w →
      (vm.swapPool i).swAsid ≠ -1 → w = 1) :
    Coherent exact vm' vacant (c'.busy busy) ∧ Stage vm' vacant (c'.busy busy) a c' := by
  cases h with
  | store _ hv =>
      obtain ⟨_, _, _, rfl⟩ := Vm.store_eq hv
      exact ⟨hc.congr rfl rfl rfl, trivial⟩
  | refill => exact ⟨hc.refill ha _ _, trivial⟩
  | @fault code va mod ht hf =>
      refine ⟨hc, ?_⟩
      cases mod with
      | true => trivial
      | false => exact faulted_of_pageFaults hc (by simpa using hf)
  | cause => exact ⟨hc, hst⟩
  | passeren => exact ⟨hc, hst⟩
  | setFlag => exact ⟨hc.congr rfl rfl rfl, hst⟩
  | choose =>
      refine ⟨tlb_congr_choose hc, Faulted.congr hst fun k hp => ?_, hidle (by simp [Control.past]) rfl⟩
      exact present_congr Vm.chooseFrame_table hp
  | evictFree hf =>
      obtain ⟨hfault, rfl⟩ := hst
      exact ⟨hc.take hf, hfault, rfl, hc.recorded _ (by simp)⟩
  | @evict hi back i hf =>
      obtain ⟨hfault, rfl⟩ := hst
      rcases hc.recorded i (by simp) with hfree | ⟨b, l, hb, hs⟩
      · exact absurd (congrArg SwapEntry.swAsid hfree) hf
      · refine ⟨hc.evict hb hs, hfault.congr fun k => present_of_evict, rfl, b, l, hb, ?_, ?_, ?_⟩
        · rw [Vm.evict_swapPool, hs]
        · rw [hs]
          rfl
        · rw [hs]
          rfl
  | write =>
      obtain ⟨hfault, rfl, b, l, hb, hs, rfl, rfl⟩ := hst
      refine ⟨transfer_coherent hc.written, ?_, rfl, Recorded.congr (.inr ⟨b, l, hb, hs⟩) ?_⟩
      · exact hfault.congr fun k => present_congr Vm.readWriteFlashdrive_frame.1
      · exact Vm.readWriteFlashdrive_frame.2.1
  | read =>
      obtain ⟨hfault, rfl, _⟩ := hst
      refine ⟨transfer_coherent hc, ?_, rfl⟩
      exact hfault.congr fun k => present_congr Vm.readWriteFlashdrive_frame.1
  | @readFailed hi back i w hr =>
      obtain ⟨⟨k, rfl, _⟩, rfl, hrec⟩ := hst
      refine ⟨transfer_coherent (hc.giveBack hrec fun he => hrec.free ?_), trivial⟩
      by_contra hne
      rw [missingPage_pteHI, readWriteFlashdrive_status] at hr
      exact hr (hrel he _ _ _ _ rfl rfl hne)
  | @record hi back i =>
      obtain ⟨⟨k, rfl, hn⟩, rfl⟩ := hst
      simp only [missingPage_pteHI]
      refine ⟨hc.record hn, ⟨k, rfl, hn⟩, rfl, ?_, ?_⟩
      · simp [Vm.recordPage]
      · simp [Vm.recordPage, missingPage_pteHI]
  | @install hi back i =>
      obtain ⟨⟨k, rfl, hn⟩, rfl, h1, h2⟩ := hst
      rw [missingPage_pteHI] at h2 ⊢
      exact ⟨hc.install ha hn h1 h2, trivial⟩
  | clearFlagFailed | clearFlag =>
      obtain rfl := hidle (by simp [Control.past]) rfl
      exact ⟨hc.congr rfl rfl rfl, trivial⟩
  | checkHeld => exact ⟨hc.congr rfl rfl rfl, trivial⟩
  | sweep =>
      obtain rfl := hidle (by simp [Control.past]) rfl
      exact ⟨hc.sweep, sweep_swept⟩
  | sys2Verhogen | term => exact ⟨hc, hst⟩
  | init => exact ⟨hc.init (hchild _ rfl), init_built⟩
  | code | trap | terminate | terminal | execute | codePasseren | codeVerhogen | causeMod |
    verhogenFailed | verhogen | check | releaseMutex | signal | sys2Passeren | create |
    createFailed | sys6Passeren => exact ⟨hc, trivial⟩

/-- The stage of another U-proc survives: if it depends on the Swap Pool, the step was
taken outside the critical section. -/
theorem Stage.other (hst : Stage vm vacant busy b d) (h : Moves a vm c inp c' vm' svc)
    (ha : Built vm a) (hb : b ≠ a)
    (hout : d.past .swapSemaphore = true → d.entering = false → c.past .swapSemaphore = false) :
    Stage vm' vacant (c'.busy busy) b d := by
  have hfault : ∀ {hi}, Faulted vm b hi → Faulted vm' b hi := fun hf =>
    hf.congr fun k hp => h.changes.present hb hp
  have hswept : Swept vm b → Swept vm' b := by
    intro hs
    constructor
    · intro i hi
      rcases h.changes.swAsid i with he | he | he
      · exact hs.1 i (he ▸ hi)
      · exact hb (num_injective (hi.symm.trans he))
      · rw [he] at hi
        have := num_pos b
        omega
    · intro k
      exact h.changes.tlb_none ha hb (hs.2 k)
  cases d with
  | run code => trivial
  | sys2 pt =>
      cases pt with
      | verhogen | term => exact hswept hst
      | checkFlag | releaseMutex | signal | passeren | sweep => trivial
  | sys6 child pt =>
      cases pt with
      | create => exact h.changes.built hst
      | init | passeren => trivial
  | pager hi back pt =>
      cases pt with
      | cause mod =>
          cases mod with
          | true => trivial
          | false => exact hfault hst
      | passeren | setFlag | choose => exact hfault hst
      | evict i =>
          obtain ⟨_, hbusy⟩ := h.outside  (hout (by simp [Control.past]) rfl)
          rw [hbusy]
          exact ⟨hfault hst.1, hst.2⟩
      | write i x y =>
          obtain ⟨hsame, hbusy⟩ := h.outside  (hout (by simp [Control.past]) rfl)
          rw [hbusy, Stage, hsame]
          exact ⟨hfault hst.1, hst.2⟩
      | read i =>
          obtain ⟨hsame, hbusy⟩ := h.outside  (hout (by simp [Control.past]) rfl)
          rw [hbusy]
          exact ⟨hfault hst.1, hst.2.1, hst.2.2.congr hsame⟩
      | record i =>
          obtain ⟨_, hbusy⟩ := h.outside  (hout (by simp [Control.past]) rfl)
          rw [hbusy]
          exact ⟨hfault hst.1, hst.2⟩
      | install i =>
          obtain ⟨hsame, hbusy⟩ := h.outside  (hout (by simp [Control.past]) rfl)
          rw [hbusy, Stage, hsame]
          exact ⟨hfault hst.1, hst.2⟩
      | clearFlagFailed | verhogenFailed | clearFlag | verhogen => trivial

/-- An ASID becomes vacant when nothing is left of it. -/
theorem Stage.vacancy (hst : Stage vm vacant busy b d)
    (hv : ∀ x, x ∉ vacant → x ∉ vacant' ∨ Swept vm x) : Stage vm vacant' busy b d := by
  have hent : ∀ {i x l}, x ∉ vacant → vm.swapPool i = entry x l → x ∉ vacant' := by
    intro i x l hx hi
    rcases hv x hx with h | h
    · exact h
    · exact absurd (by rw [hi]; rfl) (h.1 i)
  cases d with
  | run code => trivial
  | sys2 pt => cases pt <;> exact hst
  | sys6 child pt => cases pt <;> exact hst
  | pager hi back pt =>
      cases pt with
      | write i x y =>
          obtain ⟨hf, hbusy, c, l, hc, hs, hx⟩ := hst
          exact ⟨hf, hbusy, c, l, hent hc hs, hs, hx⟩
      | read i =>
          obtain ⟨hf, hbusy, hfree | ⟨c, l, hc, hs⟩⟩ := hst
          · exact ⟨hf, hbusy, .inl hfree⟩
          · exact ⟨hf, hbusy, .inr ⟨c, l, hent hc hs, hs⟩⟩
      | cause mod => cases mod <;> exact hst
      | passeren | setFlag | choose | evict | record | install | clearFlagFailed | verhogenFailed |
        clearFlag | verhogen => exact hst

/-- Once the pager has taken a frame, it goes on or gives the frame back. -/
theorem Moves.working (h : Moves a vm c inp c' vm' svc) (hw : c.working = true) :
    c'.working = true ∨ c'.busy busy = .idle := by
  cases h <;> simp_all [Control.working, Control.busy]

theorem Control.busy_eq (h : c.working = false) : c.busy busy = .idle ∨ c.busy busy = busy := by
  cases c with
  | run code | sys2 pt | sys6 child pt => exact .inr rfl
  | pager hi back pt =>
      cases pt with
      | write | read | record | install => exact absurd h (by simp [Control.working])
      | clearFlagFailed | clearFlag => exact .inl rfl
      | cause | passeren | setFlag | choose | evict | verhogenFailed | verhogen => exact .inr rfl

end Moves
end PandOSsh.SupportLevel
