import PandOSsh.SupportLevel.Vm

/-!
# Page tables, TLB and Swap Pool

The words that the Support Level computes decode to what they were computed
from. On top of that, the relation between the page tables, the TLB and the Swap
Pool that every operation of the pager and of `freeSwapFrames` preserves. While
a frame is being refilled the relation leaves the frame out.
-/

namespace PandOSsh.SupportLevel

instance : NeZero uprocMax := ⟨by decide⟩
instance : NeZero maxPages := ⟨by decide⟩

section Words

/-- EntryHI of the entry with index k in the page table of a U-proc. -/
def pteHI (a : Asid) (k : PageIdx) : Word := makePrivateEntryHI (Vm.pageAddress k) a.num

/-- The page number of the entry with index k. -/
def pageNo (k : PageIdx) : ℤ := if k.val < maxPages - 1 then 0x80000 + k.val else 0xBFFFF

/-- EntryLO of a page that is present in frame i. -/
def loOf (i : Frame) : Word := physicalFrame i ||| dirtyOn ||| validOn

/-- What the Swap Pool says of a frame that holds the page. -/
def entry (a : Asid) (k : PageIdx) : SwapEntry := ⟨a.num, pageNo k, some (a, k)⟩

def asidOfHI (hi : Word) : Word := hi >>> asidShift &&& 0x3F

theorem num_injective {a b : Asid} (h : a.num = b.num) : a = b := by
  simp only [Asid.num] at h
  exact Fin.ext (by omega)

theorem num_pos (a : Asid) : 0 < a.num := by
  simp only [Asid.num]
  omega

theorem asidOfHI_pteHI : ∀ a k, asidOfHI (pteHI a k) = BitVec.ofInt 32 a.num := by
  decide

theorem ofInt_num_injective : ∀ a b : Asid,
    BitVec.ofInt 32 a.num = BitVec.ofInt 32 b.num → a = b := by
  decide

theorem missingPage_pteHI : ∀ a k, missingPage (pteHI a k) = pageNo k := by
  decide

theorem getFlashBlock_pageNo : ∀ k, getFlashBlock (pageNo k) = k.val := by
  decide

theorem pageNo_injective {k l : PageIdx} (h : pageNo k = pageNo l) : k = l := by
  have hk := getFlashBlock_pageNo k
  rw [h, getFlashBlock_pageNo l] at hk
  exact Fin.ext (by omega)

theorem pteHI_injective {a b : Asid} {k l : PageIdx} (h : pteHI a k = pteHI b l) :
    a = b ∧ k = l := by
  constructor
  · apply ofInt_num_injective
    rw [← asidOfHI_pteHI a k, ← asidOfHI_pteHI b l, h]
  · apply pageNo_injective
    rw [← missingPage_pteHI a k, ← missingPage_pteHI b l, h]

theorem entry_injective {a b : Asid} {k l : PageIdx} (h : entry a k = entry b l) :
    a = b ∧ k = l := by
  simp only [entry, SwapEntry.mk.injEq, Option.some.injEq, Prod.mk.injEq] at h
  exact h.2.2

theorem entry_swAsid_ne (a : Asid) (k : PageIdx) : (entry a k).swAsid ≠ -1 := by
  have := num_pos a
  simp only [entry, ne_eq]
  omega

theorem pteAt_pageNo (a : Asid) (k : PageIdx) : pteAt a (getFlashBlock (pageNo k)) = some (a, k) := by
  have hk := k.isLt
  rw [getFlashBlock_pageNo, pteAt, dif_pos ⟨by omega, by omega⟩]
  simp

theorem loOf_injective {i j : Frame} (h : loOf i = loOf j) : i = j := by
  revert i j
  decide

theorem isValid_loOf : ∀ i, isValid (loOf i) = true := by
  decide

theorem pfn_loOf : ∀ i, pfn (loOf i) = pfn (physicalFrame i) := by
  decide

theorem pfn_injective {i j : Frame} (h : pfn (physicalFrame i) = pfn (physicalFrame j)) :
    i = j := by
  revert i j
  decide

/-- Clearing the bit V makes an entry not valid. -/
theorem isValid_clear (lo : Word) : isValid (lo &&& ~~~validOn) = false := by
  have hz : lo &&& ~~~validOn &&& validOn = 0 := by
    rw [BitVec.and_assoc]
    simp [validOn]
  simp [isValid, hz]

/-- EntryHI of an access carries the ASID of the U-proc. -/
theorem asidOfHI_accessHI (a : Asid) (va : Word) :
    asidOfHI (accessHI a va) = BitVec.ofInt 32 a.num := by
  have hlow : (getShareFlag ||| getPageNo) >>> asidShift &&& (0x3F : Word) = 0 := by decide
  have hnum : ∀ a : Asid, BitVec.ofInt 32 a.num <<< asidShift >>> asidShift &&& (0x3F : Word) =
      BitVec.ofInt 32 a.num := by decide
  have hva : (va &&& (getShareFlag ||| getPageNo)) >>> asidShift &&& (0x3F : Word) = 0 := by
    rw [BitVec.ushiftRight_and_distrib, BitVec.and_assoc, hlow]
    simp
  rw [asidOfHI, accessHI, BitVec.ushiftRight_or_distrib, BitVec.and_or_distrib_right, hva, hnum]
  simp

theorem eq_of_accessHI {a b : Asid} {k : PageIdx} {va : Word} (h : accessHI a va = pteHI b k) :
    a = b := by
  apply ofInt_num_injective
  rw [← asidOfHI_accessHI a va, h, asidOfHI_pteHI]

end Words

/-- What the holder of the Swap Pool is doing: nothing yet, writing back the page that
frame i records, or refilling frame i. -/
inductive Busy where
  | idle
  | evicting (i : Frame)
  | loading (i : Frame)
deriving DecidableEq, Repr

/-- The frame that is out of use. -/
def Busy.at (i : Frame) : Busy → Bool
  | idle => false
  | evicting j | loading j => i == j

/-- The entries of the page table belong to the U-proc. -/
def Built (vm : Vm) (a : Asid) : Prop := ∀ k, (vm.privatePgTbl a k).entryHI = pteHI a k

/-- The page is present. -/
def Present (vm : Vm) (a : Asid) (k : PageIdx) : Prop :=
  isValid (vm.privatePgTbl a k).entryLO = true

/-- What frame i records is nothing, or a page of a U-proc. -/
def Recorded (vm : Vm) (vacant : Set Asid) (i : Frame) : Prop :=
  vm.swapPool i = Vm.freeEntry ∨ ∃ a k, a ∉ vacant ∧ vm.swapPool i = entry a k

/-- Page tables, TLB and Swap Pool agree. The last two fields hold when, in addition,
no refill of an evicted frame has failed. -/
structure Coherent (exact : Prop) (vm : Vm) (vacant : Set Asid) (busy : Busy) : Prop where
  built : ∀ a, a ∉ vacant → Built vm a
  tlb : ∀ hi lo, vm.tlb hi = some lo →
    ∃ a k, a ∉ vacant ∧ hi = pteHI a k ∧ lo = (vm.privatePgTbl a k).entryLO
  mapped : ∀ a k, Present vm a k → ∃ i, (vm.privatePgTbl a k).entryLO = loOf i ∧
    vm.swapPool i = entry a k ∧ busy.at i = false
  recorded : ∀ i, busy ≠ .loading i → Recorded vm vacant i
  used : exact → ∀ i a k, busy.at i = false → vm.swapPool i = entry a k →
    (vm.privatePgTbl a k).entryLO = loOf i
  stale : exact → ∀ i a k, busy.at i = true → (vm.swapPool i).swAsid = a.num →
    (vm.swapPool i).swPageNo = pageNo k → ¬ Present vm a k

namespace Coherent
variable {exact : Prop} {vm vm' : Vm} {vacant vacant' : Set Asid} {busy : Busy} {a b : Asid}
  {k : PageIdx} {i j : Frame}

/-- Only the three tables matter. -/
theorem congr (h : Coherent exact vm vacant busy) (ht : vm'.privatePgTbl = vm.privatePgTbl)
    (hs : vm'.swapPool = vm.swapPool) (hl : vm'.tlb = vm.tlb) : Coherent exact vm' vacant busy := by
  constructor
  · intro a ha k
    rw [ht]
    exact h.built a ha k
  · intro hi lo hlo
    rw [hl] at hlo
    rw [ht]
    exact h.tlb hi lo hlo
  · intro a k hp
    rw [Present, ht] at hp
    rw [ht, hs]
    exact h.mapped a k hp
  · intro i hi
    rw [Recorded, hs]
    exact h.recorded i hi
  · intro he i a k hb hi
    rw [hs] at hi
    rw [ht]
    exact h.used he i a k hb hi
  · intro he i a k hb h1 h2
    rw [hs] at h1 h2
    rw [Present, ht]
    exact h.stale he i a k hb h1 h2

/-- A page that is present is recorded in the frame that its entry points to. -/
theorem swapPool_of_lo (h : Coherent exact vm vacant busy) (hp : Present vm a k)
    (hlo : (vm.privatePgTbl a k).entryLO = loOf i) :
    vm.swapPool i = entry a k ∧ busy.at i = false := by
  obtain ⟨j, hj, hs, hb⟩ := h.mapped a k hp
  rw [hlo] at hj
  rw [loOf_injective hj]
  exact ⟨hs, hb⟩

/-- Frames record no page of a vacant ASID. -/
theorem not_recorded (h : Coherent exact vm vacant busy) (ha : a ∈ vacant) (hi : busy ≠ .loading i) :
    vm.swapPool i ≠ entry a k := by
  intro hs
  rcases h.recorded i hi with hf | ⟨c, m, hc, hm⟩
  · rw [hs] at hf
    exact absurd (congrArg SwapEntry.swAsid hf) (entry_swAsid_ne a k)
  · rw [hs] at hm
    obtain ⟨rfl, rfl⟩ := entry_injective hm
    exact hc ha

theorem refill (h : Coherent exact vm vacant busy) (ha : a ∉ vacant) (va : Word)
    (replaced : Option Word) : Coherent exact (vm.uTLB_RefillHandler a va replaced) vacant busy := by
  refine { h with tlb := fun hi lo hlo => ?_ }
  simp only [Vm.uTLB_RefillHandler, Vm.tlbWr] at hlo ⊢
  by_cases hhi : hi = (vm.privatePgTbl a (Vm.refillIndex va)).entryHI
  · subst hhi
    rw [Function.update_self, Option.some.injEq] at hlo
    exact ⟨a, _, ha, h.built a ha _, hlo.symm⟩
  · rw [Function.update_of_ne hhi] at hlo
    cases replaced with
    | none => exact h.tlb hi lo hlo
    | some r =>
        simp only [Option.elim_some] at hlo
        by_cases hr : hi = r
        · rw [hr, Function.update_self] at hlo
          exact absurd hlo (by simp)
        · rw [Function.update_of_ne hr] at hlo
          exact h.tlb hi lo hlo

/-- EntryLO of a page changes, in the page table and in the TLB. -/
theorem tlb_setLO (h : Coherent exact vm vacant busy) (ha : a ∉ vacant) (lo : Word) :
    let vm₁ := vm.setLO a k lo
    let vm₂ := vm₁.tlbUpdate (vm₁.privatePgTbl a k).entryHI (vm₁.privatePgTbl a k).entryLO
    ∀ hi lo, vm₂.tlb hi = some lo →
      ∃ b l, b ∉ vacant ∧ hi = pteHI b l ∧ lo = (vm₂.privatePgTbl b l).entryLO := by
  intro vm₁ vm₂ hi lo' hlo
  have hhi : (vm₁.privatePgTbl a k).entryHI = pteHI a k := by
    rw [Vm.setLO_entryHI]
    exact h.built a ha k
  have htab : vm₂.privatePgTbl = vm₁.privatePgTbl := Vm.tlbUpdate_table
  rw [htab]
  simp only [vm₂, Vm.tlbUpdate, hhi] at hlo
  by_cases hk : hi = pteHI a k
  · subst hk
    split at hlo
    · simp only [Function.update_self, Option.some.injEq] at hlo
      exact ⟨a, k, ha, rfl, hlo.symm⟩
    · next hs => exact absurd (by rw [hlo]; rfl) hs
  · have hold : vm.tlb hi = some lo' := by
      split at hlo
      · simp only [Function.update_of_ne hk] at hlo
        exact hlo
      · exact hlo
    obtain ⟨b, l, hb, rfl, rfl⟩ := h.tlb hi lo' hold
    refine ⟨b, l, hb, rfl, ?_⟩
    rw [Vm.setLO_of_ne fun he => hk ?_]
    simp only [Prod.mk.injEq] at he
    rw [he.1, he.2]

theorem evict_eq (hi : vm.swapPool i = entry a k) :
    vm.evict i =
      let vm₁ := vm.setLO a k ((vm.privatePgTbl a k).entryLO &&& ~~~validOn)
      vm₁.tlbUpdate (vm₁.privatePgTbl a k).entryHI (vm₁.privatePgTbl a k).entryLO := by
  rw [Vm.evict, hi]
  rfl

theorem evict_table_of_ne (hi : vm.swapPool i = entry a k) {l : PageIdx} (hne : (b, l) ≠ (a, k)) :
    (vm.evict i).privatePgTbl b l = vm.privatePgTbl b l := by
  rw [evict_eq hi]
  simp only [Vm.tlbUpdate_table]
  exact Vm.setLO_of_ne hne

theorem evict_not_present (hi : vm.swapPool i = entry a k) : ¬ Present (vm.evict i) a k := by
  rw [Present, evict_eq hi]
  simp only [Vm.tlbUpdate_table, Vm.setLO_self, isValid_clear]
  exact Bool.false_ne_true

theorem evict_built (hb : Built vm b) : Built (vm.evict i) b := by
  intro l
  rw [Vm.evict]
  split
  · simp only [Vm.tlbUpdate_table]
    rw [Vm.setLO_entryHI]
    exact hb l
  · exact hb l

theorem evict (h : Coherent exact vm vacant .idle) (ha : a ∉ vacant)
    (hi : vm.swapPool i = entry a k) : Coherent exact (vm.evict i) vacant (.evicting i) := by
  have hne : ∀ b l, Present (vm.evict i) b l → (b, l) ≠ (a, k) := by
    intro b l hp he
    simp only [Prod.mk.injEq] at he
    rw [he.1, he.2] at hp
    exact evict_not_present hi hp
  constructor
  · intro b hb
    exact evict_built (h.built b hb)
  · intro hi' lo hlo
    rw [evict_eq hi] at hlo ⊢
    exact h.tlb_setLO ha _ hi' lo hlo
  · intro b l hp
    have hbl := hne b l hp
    rw [Present, evict_table_of_ne hi hbl] at hp
    obtain ⟨j, hj, hs, _⟩ := h.mapped b l hp
    refine ⟨j, ?_, ?_, ?_⟩
    · rw [evict_table_of_ne hi hbl, hj]
    · rw [Vm.evict_swapPool, hs]
    · simp only [Busy.at, beq_eq_false_iff_ne, ne_eq]
      intro he
      rw [he, hi] at hs
      obtain ⟨rfl, rfl⟩ := entry_injective hs
      exact hbl rfl
  · intro j _
    rw [Recorded, Vm.evict_swapPool]
    exact h.recorded j (by simp)
  · intro he j b l hb hj
    rw [Vm.evict_swapPool] at hj
    have hlo := h.used he j b l rfl hj
    rw [evict_table_of_ne hi, hlo]
    intro heq
    simp only [Prod.mk.injEq] at heq
    rw [heq.1, heq.2, h.used he i a k rfl hi] at hlo
    simp only [Busy.at, beq_eq_false_iff_ne, ne_eq] at hb
    exact hb (loOf_injective hlo).symm
  · intro _ j b l hb h1 h2
    simp only [Busy.at, beq_iff_eq] at hb
    subst hb
    rw [Vm.evict_swapPool, hi] at h1 h2
    obtain rfl := num_injective h1
    obtain rfl := pageNo_injective h2
    exact evict_not_present hi

theorem written (h : Coherent exact vm vacant (.evicting i)) :
    Coherent exact vm vacant (.loading i) := by
  refine { h with recorded := fun j _ => h.recorded j (by simp) }

/-- A frame that records nothing needs no eviction. -/
theorem take (h : Coherent exact vm vacant .idle) (hi : (vm.swapPool i).swAsid = -1) :
    Coherent exact vm vacant (.loading i) := by
  have hne : ∀ j a k, vm.swapPool j = entry a k → j ≠ i := by
    intro j a k hj he
    rw [he] at hj
    rw [hj] at hi
    exact entry_swAsid_ne a k hi
  refine { h with mapped := ?_, recorded := ?_, used := ?_, stale := ?_ }
  · intro b l hp
    obtain ⟨j, hj, hs, _⟩ := h.mapped b l hp
    refine ⟨j, hj, hs, ?_⟩
    simp only [Busy.at, beq_eq_false_iff_ne, ne_eq]
    exact hne j b l hs
  · intro j _
    exact h.recorded j (by simp)
  · intro he j b l _ hj
    exact h.used he j b l rfl hj
  · intro _ j b l hb h1
    simp only [Busy.at, beq_iff_eq] at hb
    subst hb
    rw [hi] at h1
    have := num_pos b
    omega

/-- The refill failed: the frame is back in use as it was recorded. -/
theorem giveBack (h : Coherent exact vm vacant (.loading i)) (hr : Recorded vm vacant i)
    (hf : exact → vm.swapPool i = Vm.freeEntry) : Coherent exact vm vacant .idle := by
  refine { h with mapped := ?_, recorded := ?_, used := ?_, stale := ?_ }
  · intro b l hp
    obtain ⟨j, hj, hs, _⟩ := h.mapped b l hp
    exact ⟨j, hj, hs, rfl⟩
  · intro j _
    by_cases hj : j = i
    · rw [hj]
      exact hr
    · exact h.recorded j (by simpa using Ne.symm hj)
  · intro he j b l _ hj
    by_cases hji : j = i
    · rw [hji, hf he] at hj
      exact absurd (congrArg SwapEntry.swAsid hj).symm (entry_swAsid_ne b l)
    · exact h.used he j b l (by simpa [Busy.at] using hji) hj
  · intro _ j b l hb
    exact absurd hb (by simp [Busy.at])

/-- The frame now records the page that is about to be present. -/
theorem record (h : Coherent exact vm vacant (.loading i)) (hp : ¬ Present vm a k) :
    Coherent exact (vm.recordPage a (pageNo k) i) vacant (.loading i) := by
  have hne : ∀ j, j ≠ i → (vm.recordPage a (pageNo k) i).swapPool j = vm.swapPool j := fun j hj =>
    Vm.setSwap_of_ne hj
  refine { h with mapped := ?_, recorded := ?_, used := ?_, stale := ?_ }
  · intro b l hpr
    obtain ⟨j, hj, hs, hb⟩ := h.mapped b l hpr
    refine ⟨j, hj, ?_, hb⟩
    rw [hne j (by simpa [Busy.at] using hb), hs]
  · intro j hj
    rw [Recorded, hne j (by simpa using Ne.symm hj)]
    exact h.recorded j hj
  · intro he j b l hb hj
    rw [hne j (by simpa [Busy.at] using hb)] at hj
    exact h.used he j b l hb hj
  · intro _ j b l hb h1 h2
    simp only [Busy.at, beq_iff_eq] at hb
    subst hb
    simp only [Vm.recordPage, Vm.setSwap_self] at h1 h2
    obtain rfl := num_injective h1
    obtain rfl := pageNo_injective h2
    exact hp

theorem install_eq (a : Asid) (k : PageIdx) (i : Frame) (vm : Vm) :
    vm.install a (pageNo k) i =
      let vm₁ := (vm.setSwap i { vm.swapPool i with swPte := some (a, k) }).setLO a k (loOf i)
      vm₁.tlbUpdate (vm₁.privatePgTbl a k).entryHI (vm₁.privatePgTbl a k).entryLO := by
  simp only [Vm.install, pteAt_pageNo]
  rfl

theorem install_table_of_ne {l : PageIdx} (hne : (b, l) ≠ (a, k)) :
    (vm.install a (pageNo k) i).privatePgTbl b l = vm.privatePgTbl b l := by
  rw [install_eq]
  simp only [Vm.tlbUpdate_table]
  exact Vm.setLO_of_ne hne

theorem install_entryLO :
    ((vm.install a (pageNo k) i).privatePgTbl a k).entryLO = loOf i := by
  rw [install_eq]
  simp only [Vm.tlbUpdate_table, Vm.setLO_self]

theorem install_swapPool_of_ne (hne : j ≠ i) :
    (vm.install a (pageNo k) i).swapPool j = vm.swapPool j := by
  rw [install_eq]
  simp only [Vm.tlbUpdate_swapPool, Vm.setLO_swapPool]
  exact Vm.setSwap_of_ne hne

theorem install_swapPool_self (h1 : (vm.swapPool i).swAsid = a.num)
    (h2 : (vm.swapPool i).swPageNo = pageNo k) :
    (vm.install a (pageNo k) i).swapPool i = entry a k := by
  rw [install_eq]
  simp only [Vm.tlbUpdate_swapPool, Vm.setLO_swapPool, Vm.setSwap_self, entry, h1, h2]

theorem install_built (hb : Built vm b) : Built (vm.install a (pageNo k) i) b := by
  intro l
  rw [install_eq]
  simp only [Vm.tlbUpdate_table, Vm.setLO_entryHI, Vm.setSwap_table]
  exact hb l

/-- The page becomes present in the frame. -/
theorem install (h : Coherent exact vm vacant (.loading i)) (ha : a ∉ vacant)
    (hp : ¬ Present vm a k) (h1 : (vm.swapPool i).swAsid = a.num)
    (h2 : (vm.swapPool i).swPageNo = pageNo k) :
    Coherent exact (vm.install a (pageNo k) i) vacant .idle := by
  have hself := install_swapPool_self h1 h2
  constructor
  · intro b hb
    exact install_built (h.built b hb)
  · intro hi lo hlo
    have hc : Coherent False (vm.setSwap i { vm.swapPool i with swPte := some (a, k) }) vacant
        (.loading i) := by
      constructor
      · exact h.built
      · exact h.tlb
      · intro b l hpr
        obtain ⟨j, hj, hs, hb⟩ := h.mapped b l hpr
        refine ⟨j, hj, ?_, hb⟩
        rw [Vm.setSwap_of_ne (by simpa [Busy.at] using hb), hs]
      · intro j hj
        rw [Recorded, Vm.setSwap_of_ne (by simpa using Ne.symm hj)]
        exact h.recorded j hj
      · exact False.elim
      · exact False.elim
    rw [install_eq] at hlo ⊢
    exact hc.tlb_setLO ha _ hi lo hlo
  · intro b l hpr
    by_cases hbl : (b, l) = (a, k)
    · simp only [Prod.mk.injEq] at hbl
      obtain ⟨rfl, rfl⟩ := hbl
      exact ⟨i, install_entryLO, hself, rfl⟩
    · rw [Present, install_table_of_ne hbl] at hpr
      obtain ⟨j, hj, hs, hb⟩ := h.mapped b l hpr
      refine ⟨j, ?_, ?_, rfl⟩
      · rw [install_table_of_ne hbl, hj]
      · rw [install_swapPool_of_ne (by simpa [Busy.at] using hb), hs]
  · intro j _
    by_cases hj : j = i
    · rw [Recorded, hj, hself]
      exact .inr ⟨a, k, ha, rfl⟩
    · rw [Recorded, install_swapPool_of_ne hj]
      exact h.recorded j (by simpa using Ne.symm hj)
  · intro he j b l _ hj
    by_cases hji : j = i
    · rw [hji, hself] at hj
      obtain ⟨rfl, rfl⟩ := entry_injective hj
      rw [hji]
      exact install_entryLO
    · rw [install_swapPool_of_ne hji] at hj
      have hlo := h.used he j b l (by simpa [Busy.at] using hji) hj
      rw [install_table_of_ne, hlo]
      intro heq
      simp only [Prod.mk.injEq] at heq
      rw [heq.1, heq.2] at hlo
      rw [Present, hlo, isValid_loOf] at hp
      exact hp rfl
  · intro _ j b l hb
    exact absurd hb (by simp [Busy.at])

/-- The page table of a U-proc that is about to be created. -/
theorem init (h : Coherent exact vm vacant busy) (ha : a ∈ vacant) :
    Coherent exact (vm.initPageTable a) vacant busy := by
  have hne : ∀ b, b ≠ a → (vm.initPageTable a).privatePgTbl b = vm.privatePgTbl b := fun b hb =>
    Function.update_of_ne hb ..
  have hself : ∀ l, ¬ Present (vm.initPageTable a) a l := by
    intro l
    simp [Present, Vm.initPageTable, isValid, dirtyOn, validOn]
  have hpne : ∀ b l, Present (vm.initPageTable a) b l → b ≠ a := by
    intro b l hp he
    rw [he] at hp
    exact hself l hp
  constructor
  · intro b hb l
    rw [hne b fun he => hb (he ▸ ha)]
    exact h.built b hb l
  · intro hi lo hlo
    obtain ⟨b, l, hb, h1, h2⟩ := h.tlb hi lo hlo
    refine ⟨b, l, hb, h1, ?_⟩
    rw [hne b fun he => hb (he ▸ ha)]
    exact h2
  · intro b l hp
    have hb := hpne b l hp
    rw [Present, hne b hb] at hp
    rw [hne b hb]
    exact h.mapped b l hp
  · exact h.recorded
  · intro he i b l hbusy hi
    change vm.swapPool i = entry b l at hi
    have hb : b ≠ a := by
      rintro rfl
      exact h.not_recorded ha (fun hl => by rw [hl] at hbusy; simp [Busy.at] at hbusy) hi
    rw [hne b hb]
    exact h.used he i b l hbusy hi
  · intro he i b l hbusy h1 h2 hp
    have hb := hpne b l hp
    rw [Present, hne b hb] at hp
    exact h.stale he i b l hbusy h1 h2 hp

theorem init_built : Built (vm.initPageTable a) a := by
  intro k
  simp [Vm.initPageTable, pteHI]

/-- A vacant ASID is given to a U-proc. -/
theorem create (h : Coherent exact vm vacant busy) (hb : Built vm a) :
    Coherent exact vm (vacant \ {a}) busy := by
  have hsub : ∀ b, b ∉ vacant → b ∉ vacant \ {a} := fun b hb h => hb h.1
  refine { h with built := ?_, tlb := ?_, recorded := ?_ }
  · intro b hv
    by_cases he : b = a
    · rw [he]
      exact hb
    · exact h.built b fun hv' => hv ⟨hv', he⟩
  · intro hi lo hlo
    obtain ⟨b, l, hb, hr⟩ := h.tlb hi lo hlo
    exact ⟨b, l, hsub b hb, hr⟩
  · intro i hi
    rcases h.recorded i hi with hf | ⟨b, l, hb, hr⟩
    · exact .inl hf
    · exact .inr ⟨b, l, hsub b hb, hr⟩

/-- Neither the Swap Pool nor the TLB knows the ASID. -/
def Swept (vm : Vm) (a : Asid) : Prop :=
  (∀ i, (vm.swapPool i).swAsid ≠ a.num) ∧ ∀ k, vm.tlb (pteHI a k) = none

/-- A U-proc whose frames are free gives its ASID back. -/
theorem vacate (h : Coherent exact vm vacant busy) (hs : Swept vm a)
    (hv : ∀ b, b ∈ vacant' → b ∈ vacant ∨ b = a) (hv' : ∀ b, b ∈ vacant → b ∈ vacant') :
    Coherent exact vm vacant' busy := by
  have hsub : ∀ b, b ∉ vacant → b ≠ a → b ∉ vacant' := by
    intro b hb hne hin
    rcases hv b hin with h1 | h1
    · exact hb h1
    · exact hne h1
  refine { h with built := ?_, tlb := ?_, recorded := ?_ }
  · intro b hb
    exact h.built b fun hin => hb (hv' b hin)
  · intro hi lo hlo
    obtain ⟨b, l, hb, rfl, hr⟩ := h.tlb hi lo hlo
    refine ⟨b, l, hsub b hb fun he => ?_, rfl, hr⟩
    rw [he, hs.2 l] at hlo
    exact absurd hlo (by simp)
  · intro i hi
    rcases h.recorded i hi with hf | ⟨b, l, hb, hr⟩
    · exact .inl hf
    · refine .inr ⟨b, l, hsub b hb fun he => hs.1 i ?_, hr⟩
      rw [hr, he]
      rfl

section Sweep
variable {asid : ℤ}

/-- Entries may become not valid, and nothing else. -/
structure Shrinks (vm vm' : Vm) : Prop where
  entryHI : ∀ b l, (vm'.privatePgTbl b l).entryHI = (vm.privatePgTbl b l).entryHI
  present : ∀ b l, Present vm' b l → vm'.privatePgTbl b l = vm.privatePgTbl b l

theorem Shrinks.refl : Shrinks vm vm := ⟨fun _ _ => rfl, fun _ _ _ => rfl⟩

theorem Shrinks.trans {vm₁ : Vm} (h : Shrinks vm vm₁) (h' : Shrinks vm₁ vm') : Shrinks vm vm' := by
  constructor
  · intro b l
    rw [h'.entryHI, h.entryHI]
  · intro b l hp
    have h1 := h'.present b l hp
    rw [h1]
    rw [Present, h1] at hp
    exact h.present b l hp

theorem Shrinks.not_present (h : Shrinks vm vm') (hp : ¬ Present vm a k) : ¬ Present vm' a k := by
  intro hp'
  have h1 := h.present a k hp'
  rw [Present, h1] at hp'
  exact hp hp'

/-- What one round of the sweep does to the page tables. -/
theorem freeFrame_table (j : Frame) :
    (vm.freeFrame asid j).privatePgTbl =
      if (vm.swapPool j).swAsid = asid then
        (vm.swapPool j).swPte.elim vm.privatePgTbl fun x =>
          (vm.setLO x.1 x.2 ((vm.privatePgTbl x.1 x.2).entryLO &&& ~~~validOn)).privatePgTbl
      else vm.privatePgTbl := by
  unfold Vm.freeFrame
  split
  · cases (vm.swapPool j).swPte <;> rfl
  · rfl

theorem freeFrame_swapPool (i j : Frame) :
    (vm.freeFrame asid j).swapPool i =
      if i = j ∧ (vm.swapPool j).swAsid = asid then Vm.freeEntry else vm.swapPool i := by
  unfold Vm.freeFrame
  by_cases hj : (vm.swapPool j).swAsid = asid
  · by_cases hi : i = j
    · subst hi
      simp [hj]
    · simp only [hj, if_true, hi, false_and, if_false]
      rw [Vm.setSwap_of_ne hi]
      cases (vm.swapPool j).swPte <;> rfl
  · simp [hj]

theorem freeFrame_shrinks (j : Frame) : Shrinks vm (vm.freeFrame asid j) := by
  have hself : ∀ x l, Shrinks vm (vm.setLO x l ((vm.privatePgTbl x l).entryLO &&& ~~~validOn)) := by
    intro x l
    constructor
    · exact Vm.setLO_entryHI
    · intro b m hp
      refine Vm.setLO_of_ne fun he => ?_
      simp only [Prod.mk.injEq] at he
      rw [he.1, he.2, Present, Vm.setLO_self, isValid_clear] at hp
      exact Bool.false_ne_true hp
  have htab : (vm.freeFrame asid j).privatePgTbl = _ := freeFrame_table j
  split at htab
  · cases hx : (vm.swapPool j).swPte with
    | some x =>
        rw [hx, Option.elim_some] at htab
        constructor
        · intro b m
          rw [htab]
          exact (hself x.1 x.2).entryHI b m
        · intro b m hp
          rw [Present, htab] at hp
          rw [htab]
          exact (hself x.1 x.2).present b m hp
    | none =>
        rw [hx, Option.elim_none] at htab
        exact ⟨fun b m => by rw [htab], fun b m _ => by rw [htab]⟩
  · exact ⟨fun b m => by rw [htab], fun b m _ => by rw [htab]⟩

theorem foldl_freeFrame_shrinks (js : List Frame) (vm : Vm) :
    Shrinks vm (js.foldl (Vm.freeFrame asid) vm) := by
  induction js generalizing vm with
  | nil => exact .refl
  | cons j js ih => exact (freeFrame_shrinks j).trans (ih _)

theorem foldl_freeFrame_swapPool (h : asid ≠ -1) (js : List Frame) (vm : Vm) (i : Frame) :
    (js.foldl (Vm.freeFrame asid) vm).swapPool i =
      if i ∈ js ∧ (vm.swapPool i).swAsid = asid then Vm.freeEntry else vm.swapPool i := by
  induction js generalizing vm with
  | nil => simp
  | cons j js ih =>
      rw [List.foldl_cons, ih, freeFrame_swapPool]
      by_cases hij : i = j
      · subst hij
        by_cases hi : (vm.swapPool i).swAsid = asid
        · have hfree : Vm.freeEntry.swAsid ≠ asid := fun he => h he.symm
          simp [hi, hfree]
        · simp [hi]
      · simp [hij]

/-- The pages that the swept frames record are not present afterwards. -/
theorem foldl_freeFrame_not_present (js : List Frame) (vm : Vm) (hj : j ∈ js)
    (h1 : (vm.swapPool j).swAsid = asid) (h2 : (vm.swapPool j).swPte = some (a, k)) :
    ¬ Present (js.foldl (Vm.freeFrame asid) vm) a k := by
  induction js generalizing vm with
  | nil => exact absurd hj List.not_mem_nil
  | cons i js ih =>
      rw [List.foldl_cons]
      by_cases hij : j = i
      · subst hij
        refine (foldl_freeFrame_shrinks js _).not_present ?_
        rw [Present, freeFrame_table]
        simp only [h1, if_true, h2, Option.elim_some, Vm.setLO_self, isValid_clear]
        exact Bool.false_ne_true
      · have hjs : j ∈ js := by simpa [hij] using hj
        have hsame : (vm.freeFrame asid i).swapPool j = vm.swapPool j := by
          rw [freeFrame_swapPool, if_neg fun he => hij he.1]
        exact ih _ hjs (hsame ▸ h1) (hsame ▸ h2)

/-- The page tables of other U-procs are not swept. -/
theorem foldl_freeFrame_table (js : List Frame) (vm : Vm)
    (hp : ∀ j, (vm.swapPool j).swAsid = asid → ∀ x l, (vm.swapPool j).swPte = some (x, l) → x = a)
    (hb : b ≠ a) : (js.foldl (Vm.freeFrame asid) vm).privatePgTbl b = vm.privatePgTbl b := by
  induction js generalizing vm with
  | nil => rfl
  | cons i js ih =>
      rw [List.foldl_cons, ih]
      · rw [freeFrame_table]
        split
        · next hi =>
          cases hx : (vm.swapPool i).swPte with
          | some x =>
              have hxa := hp i hi x.1 x.2 hx
              exact Function.update_of_ne (fun he => hb (he.trans hxa)) ..
          | none => rfl
        · rfl
      · intro j hj x l hx
        rw [freeFrame_swapPool] at hj hx
        split at hj
        · next hc => simp [hc, Vm.freeEntry] at hx
        · next hc =>
          rw [if_neg hc] at hx
          exact hp j hj x l hx

end Sweep

theorem sweep_swapPool (i : Frame) :
    (vm.freeSwapFrames a.num).swapPool i =
      if (vm.swapPool i).swAsid = a.num then Vm.freeEntry else vm.swapPool i := by
  have hne : a.num ≠ -1 := by
    have := num_pos a
    omega
  have h := foldl_freeFrame_swapPool hne (List.finRange poolSize) vm i
  simp only [List.mem_finRange, true_and] at h
  exact h

theorem sweep_swept : Swept (vm.freeSwapFrames a.num) a := by
  constructor
  · intro i hi
    rw [sweep_swapPool] at hi
    split at hi
    · have := num_pos a
      simp only [Vm.freeEntry] at hi
      omega
    · next h => exact h hi
  · intro k
    rfl

theorem sweep_shrinks : Shrinks vm (vm.freeSwapFrames a.num) :=
  ⟨(foldl_freeFrame_shrinks _ vm).entryHI, (foldl_freeFrame_shrinks _ vm).present⟩

/-- The page tables of other U-procs are not swept. -/
theorem sweep_table (h : Coherent exact vm vacant .idle) (hb : b ≠ a) :
    (vm.freeSwapFrames a.num).privatePgTbl b = vm.privatePgTbl b := by
  refine foldl_freeFrame_table _ vm (fun j hj x l hx => ?_) hb
  rcases h.recorded j (by simp) with hf | ⟨c, m, _, hm⟩
  · rw [hf] at hx
    exact absurd hx (by simp [Vm.freeEntry])
  · rw [hm] at hj hx
    simp only [entry, Option.some.injEq, Prod.mk.injEq] at hj hx
    rw [← hx.1]
    exact num_injective hj

/-- `freeSwapFrames` takes the pages of one U-proc out of the three tables. -/
theorem sweep (h : Coherent exact vm vacant .idle) :
    Coherent exact (vm.freeSwapFrames a.num) vacant .idle := by
  have htab : ∀ b, b ≠ a → (vm.freeSwapFrames a.num).privatePgTbl b = vm.privatePgTbl b :=
    fun b hb => h.sweep_table hb
  have hgone : ∀ k, ¬ Present (vm.freeSwapFrames a.num) a k := by
    intro k hp
    have hpr := sweep_shrinks.present a k hp
    rw [Present, hpr] at hp
    obtain ⟨j, _, hs, _⟩ := h.mapped a k hp
    rw [← hpr] at hp
    exact foldl_freeFrame_not_present (List.finRange poolSize) vm (List.mem_finRange j)
      (show (vm.swapPool j).swAsid = a.num by rw [hs]; rfl) (by rw [hs]; rfl) hp
  have hkeep : ∀ i b l, b ≠ a → vm.swapPool i = entry b l →
      (vm.freeSwapFrames a.num).swapPool i = entry b l := by
    intro i b l hb hi
    rw [sweep_swapPool, hi, if_neg]
    exact fun he => hb (num_injective he)
  constructor
  · intro b hb k
    rw [sweep_shrinks.entryHI]
    exact h.built b hb k
  · intro hi lo hlo
    exact absurd hlo (by simp [Vm.freeSwapFrames, Vm.tlbClr])
  · intro b l hp
    have hb : b ≠ a := fun he => hgone l (he ▸ hp)
    rw [Present, htab b hb] at hp
    obtain ⟨i, hi, hs, hbusy⟩ := h.mapped b l hp
    refine ⟨i, ?_, hkeep i b l hb hs, hbusy⟩
    rw [htab b hb, hi]
  · intro i _
    rw [Recorded, sweep_swapPool]
    split
    · exact .inl rfl
    · exact h.recorded i (by simp)
  · intro he i b l hbusy hi
    rw [sweep_swapPool] at hi
    split at hi
    · exact absurd (congrArg SwapEntry.swAsid hi).symm (entry_swAsid_ne b l)
    · next hne =>
      have hb : b ≠ a := by
        intro heq
        rw [hi, heq] at hne
        exact hne rfl
      rw [htab b hb]
      exact h.used he i b l hbusy hi
  · intro _ i b l hbusy
    exact absurd hbusy (by simp [Busy.at])

end Coherent
end PandOSsh.SupportLevel
