import PandOSsh.SupportLevel.SwapPool

/-!
# Page numbers, page table indices and flash blocks

`uTLB_RefillHandler` reduces a page number modulo 32, the pager subtracts the
number of the first page, and neither looks at the entry it finds. For which of
the page numbers that a program can form do the two agree with the page table.
-/

namespace PandOSsh.SupportLevel
open Coherent

section Words
variable {a : Asid} {k : PageIdx} {va : Word}

theorem and_pageMask (va : Word) : va &&& (getShareFlag ||| getPageNo) = va >>> 12 <<< 12 := by
  rw [BitVec.shiftLeft_ushiftRight]
  rfl

theorem missingPage_eq (hi : Word) : missingPage hi = (hi >>> 12).toNat := by
  rw [missingPage, and_pageMask]
  congr 1
  simp only [vpnShift, BitVec.toNat_ushiftRight, BitVec.toNat_shiftLeft, Nat.shiftRight_eq_div_pow,
    Nat.shiftLeft_eq]
  omega

/-- The virtual page number of an address, which is that of EntryHI. -/
theorem missingPage_accessHI : missingPage (accessHI a va) = (va >>> 12).toNat := by
  have hnum : ∀ a : Asid, (BitVec.ofInt 32 a.num <<< asidShift &&& (getShareFlag ||| getPageNo)) = 0 := by
    decide
  have hidem : va &&& (getShareFlag ||| getPageNo) &&& (getShareFlag ||| getPageNo) =
      va &&& (getShareFlag ||| getPageNo) := by
    rw [BitVec.and_assoc, BitVec.and_self]
  have hor : ∀ x : Word, x ||| 0 = x := fun x => by simp
  rw [← missingPage_eq, missingPage, missingPage, accessHI, BitVec.and_or_distrib_right, hnum,
    hidem, hor]

theorem pteHI_eq : ∀ a k, pteHI a k =
    BitVec.ofInt 32 (pageNo k) <<< 12 ||| BitVec.ofInt 32 a.num <<< asidShift := by
  decide

/-- An access hits the entry of its own page number and no other. -/
theorem accessHI_eq_pteHI : accessHI a va = pteHI a k ↔ ((va >>> 12).toNat : ℤ) = pageNo k := by
  constructor
  · intro h
    rw [← missingPage_pteHI a k, ← h, missingPage_accessHI]
  · intro h
    rw [pteHI_eq, ← h, accessHI, and_pageMask, BitVec.ofInt_natCast, BitVec.ofNat_toNat,
      BitVec.setWidth_eq]

/-- The index that the refill handler computes. -/
theorem refillIndex_val : (Vm.refillIndex va).val = (va >>> 12).toNat % 32 := by
  have hmask : (getPageNo >>> 12).toNat = 2 ^ 18 - 1 := by decide
  simp only [Vm.refillIndex, vpnShift, BitVec.ushiftRight_and_distrib, BitVec.toNat_and, hmask,
    Nat.and_two_pow_sub_one_eq_mod, maxPages]
  omega

end Words

section Refill
variable {a : Asid} {vm : Vm} {va : Word} {replaced : Option Word} {code : Code}

/-- The page has an entry in the page table: the text and data pages and the page of
the stack. -/
def Mapped (va : Word) : Prop :=
  0x80000 ≤ (va >>> 12).toNat ∧ (va >>> 12).toNat ≤ 0x8001E ∨ (va >>> 12).toNat = 0xBFFFF

theorem mapped_iff : Mapped va ↔ accessHI a va = pteHI a (Vm.refillIndex va) := by
  rw [accessHI_eq_pteHI, pageNo, refillIndex_val, Mapped]
  unfold maxPages
  split <;> omega

/-- The handler gets the access further: it will hit the TLB when it is retried, or
the U-proc is on its way out. -/
def Progress (a : Asid) (vm : Vm) (code : Code) (va : Word) (replaced : Option Word) : Prop :=
  ∀ c' vm' svc, next a vm (.run code) (.refill va replaced) = some (c', vm', svc) →
    (∃ lo, vm'.tlb (accessHI a va) = some lo) ∨ ∃ pt, c' = .sys2 pt

theorem refill_tlb (hb : Built vm a) (hm : vm.tlb (accessHI a va) = none) :
    (∃ lo, (vm.uTLB_RefillHandler a va replaced).tlb (accessHI a va) = some lo) ↔ Mapped va := by
  rw [mapped_iff]
  simp only [Vm.uTLB_RefillHandler, Vm.tlbWr, hb _]
  constructor
  · rintro ⟨lo, hlo⟩
    by_contra hne
    rw [Function.update_of_ne hne] at hlo
    cases replaced with
    | none =>
        rw [Option.elim_none, hm] at hlo
        exact absurd hlo (by simp)
    | some r =>
        rw [Option.elim_some] at hlo
        by_cases hr : accessHI a va = r
        · rw [hr, Function.update_self] at hlo
          exact absurd hlo (by simp)
        · rw [Function.update_of_ne hr, hm] at hlo
          exact absurd hlo (by simp)
  · intro h
    rw [h]
    exact ⟨_, Function.update_self ..⟩

/-- A TLB-Refill event makes progress exactly for the page numbers of the page table. -/
theorem refill_progress_iff (hb : Built vm a) (ht : code.touches va = true)
    (hm : vm.tlb (accessHI a va) = none) : Progress a vm code va replaced ↔ Mapped va := by
  have hstep : next a vm (.run code) (.refill va replaced) =
      some (.run code, vm.uTLB_RefillHandler a va replaced, .none) := by
    simp only [next, runStep, refillStep, ht, hm, Option.isNone_none, Bool.and_self, if_true]
  rw [Progress, hstep, ← refill_tlb hb hm]
  constructor
  · intro h
    rcases h _ _ _ rfl with h | ⟨pt, hpt⟩
    · exact h
    · exact absurd hpt (by simp)
  · rintro h c' vm' svc he
    simp only [Option.some.injEq, Prod.mk.injEq] at he
    rw [← he.2.1]
    exact .inl h

/-- The stack page of a U-proc that has just been created. -/
theorem refill_progress_stack :
    Progress 0 (startVm fun _ _ _ => 0) .user 0xBFFFF004 none ∧ Mapped 0xBFFFF004 := by
  have hmapped : Mapped 0xBFFFF004 := by
    right
    decide
  exact ⟨(refill_progress_iff (fun _ => rfl) rfl rfl).mpr hmapped, hmapped⟩

/-- Page 0x80020 gets the entry of page 0x80000 over and over again. -/
theorem refill_stuck :
    ¬ Progress 0 (startVm fun _ _ _ => 0) .user 0x80020000 none ∧
      next 0 (startVm fun _ _ _ => 0) (.run .user) (.refill 0x80020000 none) =
        some (.run .user, (startVm fun _ _ _ => 0).uTLB_RefillHandler 0 0x80020000 none, .none) := by
  have hstep : next 0 (startVm fun _ _ _ => 0) (.run .user) (.refill 0x80020000 none) =
      some (.run .user, (startVm fun _ _ _ => 0).uTLB_RefillHandler 0 0x80020000 none, .none) := rfl
  refine ⟨fun h => ?_, hstep⟩
  rcases h _ _ _ hstep with ⟨lo, hlo⟩ | ⟨pt, hpt⟩
  · have hnone : ((startVm fun _ _ _ => 0).uTLB_RefillHandler 0 0x80020000 none).tlb
        (accessHI 0 0x80020000) = none := by
      have hne : accessHI 0 0x80020000 ≠ pteHI 0 (Vm.refillIndex 0x80020000) := by decide
      simp only [Vm.uTLB_RefillHandler, Vm.tlbWr]
      rw [Function.update_of_ne]
      · rfl
      · exact hne
    rw [hnone] at hlo
    exact absurd hlo (by simp)
  · exact absurd hpt (by simp)

end Refill

section Pager
variable {a : Asid} {vm : Vm} {i : Frame} {hi hi' : Word}

/-- The pager gets past its FLASHREAD when the device is ready: it does not terminate
the U-proc. -/
def Accepts (a : Asid) (vm : Vm) (i : Frame) (hi : Word) : Prop :=
  ∃ vm₁, next a vm (.pager hi .user (.read i)) (.status 1) =
    some (.pager hi .user (.record i), vm₁, .none)

/-- The missing page is served: its own block is read, its own entry becomes valid, the
one that the refill handler takes, and it shares them with no other page number. -/
structure ServesMissing (a : Asid) (vm : Vm) (i : Frame) (hi : Word) : Prop where
  entry : ∃ k, pteAt a (getFlashBlock (missingPage hi)) = some (a, k) ∧
    isValid ((vm.install a (missingPage hi) i).privatePgTbl a k).entryLO = true ∧
    missingPage ((vm.install a (missingPage hi) i).privatePgTbl a k).entryHI = missingPage hi ∧
    k = Vm.refillIndex hi
  block : ∃ k, pageNo k = missingPage hi ∧
    (vm.readWriteFlashdrive a.num (missingPage hi) (physicalFrame i) flashRead 1).1 =
      vm.setRam (pfn (physicalFrame i)) (vm.flash (flashReg a) (blockOf k))
  alone : ∀ hi', Accepts a vm i hi' →
    getFlashBlock (missingPage hi') = getFlashBlock (missingPage hi) →
    missingPage hi' = missingPage hi

/-- The range check is made on the block. -/
theorem accepts_iff : Accepts a vm i hi ↔
    0x80000 ≤ missingPage hi ∧ missingPage hi ≤ 0x8001F ∨ missingPage hi = 0xBFFFF := by
  have hstatus : (vm.readWriteFlashdrive a.num (missingPage hi) (physicalFrame i) flashRead 1).2 =
      if getFlashBlock (missingPage hi) < 0 ∨ (maxPages : ℤ) ≤ getFlashBlock (missingPage hi) then -1
      else 1 := by
    rw [Vm.readWriteFlashdrive, getFlashRegister_num]
    simp only
    split <;> rfl
  have hacc : Accepts a vm i hi ↔ ¬ (getFlashBlock (missingPage hi) < 0 ∨
      (maxPages : ℤ) ≤ getFlashBlock (missingPage hi)) := by
    simp only [Accepts, next, pagerStep, Input.status?, Option.map_some, hstatus]
    split <;> simp_all
  rw [hacc, getFlashBlock]
  unfold maxPages
  split <;> omega

/-- The index of a text or data page. -/
theorem pageNo_of_text {v : ℤ} (h0 : 0x80000 ≤ v) (h1 : v ≤ 0x8001E) : ∃ k : PageIdx, pageNo k = v := by
  have hlt : (v - 0x80000).toNat < maxPages := by
    unfold maxPages
    omega
  refine ⟨⟨(v - 0x80000).toNat, hlt⟩, ?_⟩
  simp only [pageNo]
  unfold maxPages
  split <;> omega

/-- The pager serves the page that was missed, unless the page number is that of the
stack page or the one behind the data pages: these two share an entry and a block. -/
theorem pager_serves_iff (hb : Built vm a) :
    (Accepts a vm i hi → ServesMissing a vm i hi) ↔
      missingPage hi ≠ 0x8001F ∧ missingPage hi ≠ 0xBFFFF := by
  constructor
  · intro h
    constructor
    · intro hv
      obtain ⟨k, hk, _, hhi, _⟩ := (h (accepts_iff.mpr (by omega))).entry
      have hblock : getFlashBlock (missingPage hi) = 31 := by
        rw [hv]
        decide
      rw [hblock] at hk
      have hstack : pageNo k = 0xBFFFF := by
        have hlast := pteAt_pageNo a 31
        rw [getFlashBlock_pageNo] at hlast
        have hsame : some (a, (31 : PageIdx)) = some (a, k) := hlast.symm.trans hk
        simp only [Option.some.injEq, Prod.mk.injEq, true_and] at hsame
        rw [← hsame]
        rfl
      rw [hb.install k, missingPage_pteHI, hstack, hv] at hhi
      exact absurd hhi (by decide)
    · intro hv
      have hacc : Accepts a vm i 0x8001F000 := accepts_iff.mpr (by decide)
      have halone := (h (accepts_iff.mpr (by omega))).alone 0x8001F000 hacc (by rw [hv]; decide)
      rw [hv] at halone
      exact absurd halone (by decide)
  · rintro ⟨h1, h2⟩ hacc
    have hrange := accepts_iff.mp hacc
    obtain ⟨k, hk⟩ := pageNo_of_text (v := missingPage hi) (by omega) (by omega)
    have hne : pageNo k ≠ 0xBFFFF := by omega
    constructor
    · refine ⟨k, ?_, ?_, ?_, ?_⟩
      · rw [← hk]
        exact pteAt_pageNo a k
      · rw [← hk, install_entryLO]
        exact isValid_loOf i
      · rw [hb.install k, missingPage_pteHI, hk]
      · apply Fin.ext
        rw [refillIndex_val]
        rw [missingPage_eq] at hk
        have hlt := k.isLt
        simp only [pageNo] at hk
        unfold maxPages at hk hlt
        split at hk <;> omega
    · refine ⟨k, hk, ?_⟩
      rw [← hk, readWriteFlashdrive_read, if_pos rfl]
    · intro hi' hacc' hsame
      have hrange' := accepts_iff.mp hacc'
      simp only [getFlashBlock, if_neg h2] at hsame
      split at hsame <;> omega

/-- Page 0xBFFFF of a new U-proc would share its entry; page 0x80002 is served. -/
theorem pager_serves_text :
    missingPage 0x80002040 ≠ 0x8001F ∧
      (Accepts 0 (startVm fun _ _ _ => 0) 0 0x80002040 → ServesMissing 0 (startVm fun _ _ _ => 0) 0 0x80002040) :=
  ⟨by decide, (pager_serves_iff fun _ => rfl).mpr (by decide)⟩

/-- The pager accepts page 0x8001F and makes the entry of the stack page valid for it. -/
theorem pager_serves_stack_entry :
    Accepts 0 (startVm fun _ _ _ => 0) 0 0x8001F040 ∧ ¬ ServesMissing 0 (startVm fun _ _ _ => 0) 0 0x8001F040 := by
  have hacc : ∀ hi, missingPage hi = 0x8001F ∨ missingPage hi = 0xBFFFF →
      Accepts 0 (startVm fun _ _ _ => 0) 0 hi := fun hi h => accepts_iff.mpr (by omega)
  refine ⟨hacc _ (.inl (by decide)), fun h => ?_⟩
  have halone := h.alone 0xBFFFF040 (hacc _ (.inr (by decide))) (by decide)
  exact absurd halone (by decide)

end Pager
end PandOSsh.SupportLevel
