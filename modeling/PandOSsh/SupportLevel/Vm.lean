import PandOSsh.Headers.Types

/-!
# Virtual memory of the U-procs (phase3 vmSupport.c, helpers.c)

The page tables inside `supportPool`, the Swap Pool table, the TLB, the frames
and the flash devices, and what the functions of the Support Level do to them.
An ASID is kept as an index into `supportPool`, one below its number; a pointer
to a page table entry is the pair of such an index and the index of the entry.
-/

namespace PandOSsh.SupportLevel

def uprocMax : ℕ := 8
def maxPages : ℕ := 32

/-- `POOLSIZE` -/
def poolSize : ℕ := uprocMax * 2

instance : NeZero poolSize := ⟨by decide⟩

def maxStrLeng : ℤ := 128
def pageSize : Word := 4096
def kuseg : Word := 0x80000000
def userStackTop : Word := 0xC0000000
def ramStart : Word := 0x20000000
def osFrames : Word := 32
def flashPoolStart : Word := ramStart + osFrames * pageSize
def dirtyOn : Word := 0x400
def validOn : Word := 0x200
def getPageNo : Word := 0x3FFFF000
def getShareFlag : Word := 0xC0000000
def vpnShift : ℕ := 12
def asidShift : ℕ := 6
def sharedSegFlag : ℕ := 30
def segPrivate : Word := 2
def flashRead : Word := 2
def flashWrite : Word := 3
def flashLineNo : Word := 4

abbrev Asid := Fin uprocMax
abbrev Frame := Fin poolSize
abbrev PageIdx := Fin maxPages
abbrev Byte := BitVec 8

/-- A block of 4K, by offset. -/
abbrev Page := BitVec 12 → Byte

/-- `sup_asid` of the support structure. -/
def Asid.num (a : Asid) : ℤ := a.val + 1

/-- `SHELL_ASID` -/
def shellAsid : ℤ := 1

/-- `pteEntry_t` -/
structure PteEntry where
  entryHI : Word
  entryLO : Word
deriving DecidableEq, Repr

/-- `swap_t` -/
structure SwapEntry where
  swAsid : ℤ
  swPageNo : ℤ
  swPte : Option (Asid × PageIdx)
deriving DecidableEq, Repr

structure Vm where
  /-- `supportPool[asid - 1].sup_privatePgTbl` -/
  privatePgTbl : Asid → PageIdx → PteEntry
  swapPool : Frame → SwapEntry
  fifoCont : Frame
  holdingSwapMutex : Asid → Bool
  /-- The EntryLO that is cached for an EntryHI. -/
  tlb : Word → Option Word
  /-- Pages of RAM by physical page number. -/
  ram : BitVec 20 → Page
  /-- Blocks of a flash device, which is known by the address of its registers. -/
  flash : Word → BitVec 24 → Page

section Words

def isValid (entryLO : Word) : Bool := entryLO &&& validOn != 0
def isDirty (entryLO : Word) : Bool := entryLO &&& dirtyOn != 0

/-- The physical page number of an address or of an EntryLO. -/
def pfn (w : Word) : BitVec 20 := w.extractLsb' 12 20

def offset (va : Word) : BitVec 12 := va.extractLsb' 0 12

/-- EntryHI as the hardware builds it for an access of the U-proc. -/
def accessHI (a : Asid) (va : Word) : Word :=
  va &&& (getShareFlag ||| getPageNo) ||| BitVec.ofInt 32 a.num <<< asidShift

def makePrivateEntryHI (virtualAddress : Word) (asid : ℤ) : Word :=
  virtualAddress &&& getPageNo ||| segPrivate <<< sharedSegFlag ||| BitVec.ofInt 32 asid <<< asidShift

/-- The address of the frame with index i. -/
def physicalFrame (i : Frame) : Word := flashPoolStart + BitVec.ofNat 32 i * pageSize

/-- The missing page number, from the saved EntryHi. -/
def missingPage (entryHi : Word) : ℤ := ((entryHi &&& (getShareFlag ||| getPageNo)) >>> vpnShift).toNat

def getFlashBlock (vpn : ℤ) : ℤ := if vpn = 0xBFFFF then 31 else vpn - 0x80000

def getFlashRegister (asid : ℤ) : Option Word :=
  let devNo := asid - 1
  if devNo < 0 ∨ (uprocMax : ℤ) ≤ devNo then none
  else some (startDevReg + (flashLineNo - 3) * 0x80 + BitVec.ofInt 32 devNo * 0x10)

/-- `&sup_privatePgTbl[pageIdx]`, when there is such an entry. -/
def pteAt (a : Asid) (pageIdx : ℤ) : Option (Asid × PageIdx) :=
  if h : pageIdx.toNat < maxPages ∧ 0 ≤ pageIdx then some (a, ⟨pageIdx.toNat, h.1⟩) else none

end Words

namespace Vm
variable (vm : Vm)

def setPte (a : Asid) (k : PageIdx) (e : PteEntry) : Vm :=
  { vm with privatePgTbl :=
      Function.update vm.privatePgTbl a (Function.update (vm.privatePgTbl a) k e) }

def setLO (a : Asid) (k : PageIdx) (lo : Word) : Vm :=
  vm.setPte a k { vm.privatePgTbl a k with entryLO := lo }

def setSwap (i : Frame) (e : SwapEntry) : Vm :=
  { vm with swapPool := Function.update vm.swapPool i e }

def setFlag (a : Asid) (b : Bool) : Vm :=
  { vm with holdingSwapMutex := Function.update vm.holdingSwapMutex a b }

def setRam (n : BitVec 20) (page : Page) : Vm :=
  { vm with ram := Function.update vm.ram n page }

def setFlash (reg : Word) (block : BitVec 24) (page : Page) : Vm :=
  { vm with flash := Function.update vm.flash reg (Function.update (vm.flash reg) block page) }

section Hardware

/-- What a load of the U-proc reads when the TLB translates the address. -/
def load (a : Asid) (va : Word) : Option Byte :=
  match vm.tlb (accessHI a va) with
  | some lo => if isValid lo then some (vm.ram (pfn lo) (offset va)) else none
  | none => none

def store (a : Asid) (va : Word) (b : Byte) : Option Vm :=
  match vm.tlb (accessHI a va) with
  | some lo =>
      if isValid lo && isDirty lo then
        some (vm.setRam (pfn lo) (Function.update (vm.ram (pfn lo)) (offset va) b))
      else none
  | none => none

/-- A matching entry with V clear raises the page fault. -/
def pageFaults (a : Asid) (va : Word) : Bool :=
  match vm.tlb (accessHI a va) with
  | some lo => !isValid lo
  | none => false

/-- TLBP, and TLBWI if the entry is there. -/
def tlbUpdate (hi lo : Word) : Vm :=
  if (vm.tlb hi).isSome then { vm with tlb := Function.update vm.tlb hi (some lo) } else vm

def tlbClr : Vm := { vm with tlb := fun _ => none }

/-- TLBWR, which may replace another entry. -/
def tlbWr (hi lo : Word) (replaced : Option Word) : Vm :=
  let kept := replaced.elim vm.tlb fun h => Function.update vm.tlb h none
  { vm with tlb := Function.update kept hi (some lo) }

/-- A flash command that ended with the status READY has copied one block between
the frame at DATA0 and the block in the high-order bytes of the command. -/
def flashDevice (reg data0 command status : Word) : Vm :=
  let block := command.extractLsb' 8 24
  if status = 1 then
    if command &&& 0xFF = flashRead then
      vm.setRam (pfn data0) (vm.flash reg block)
    else if command &&& 0xFF = flashWrite then vm.setFlash reg block (vm.ram (pfn data0))
    else vm
  else vm

end Hardware

/-- The page table index of a missing page is its number modulo `MAXPAGES`. -/
def refillIndex (va : Word) : PageIdx :=
  ⟨((va &&& getPageNo) >>> vpnShift).toNat % maxPages, Nat.mod_lt _ (by decide)⟩

def uTLB_RefillHandler (a : Asid) (va : Word) (replaced : Option Word) : Vm :=
  let e := vm.privatePgTbl a (refillIndex va)
  vm.tlbWr e.entryHI e.entryLO replaced

/-- The virtual address of the page with index k in a page table. -/
def pageAddress (k : PageIdx) : Word :=
  if k.val < maxPages - 1 then kuseg + BitVec.ofNat 32 k * pageSize else userStackTop - pageSize

def initPageTable (a : Asid) : Vm :=
  { vm with privatePgTbl := Function.update vm.privatePgTbl a fun k =>
      ⟨makePrivateEntryHI (pageAddress k) a.num, dirtyOn⟩ }

def freeEntry : SwapEntry := ⟨-1, -1, none⟩

def initSwapPool : Vm := { vm with swapPool := fun _ => freeEntry }

/-- One round of the loop of `freeSwapFrames`. -/
def freeFrame (asid : ℤ) (vm : Vm) (j : Frame) : Vm :=
  if (vm.swapPool j).swAsid = asid then
    let vm := match (vm.swapPool j).swPte with
      | some (x, k) => vm.setLO x k ((vm.privatePgTbl x k).entryLO &&& ~~~validOn)
      | none => vm
    vm.setSwap j freeEntry
  else vm

/-- The part of `freeSwapFrames` with interrupts disabled. -/
def freeSwapFrames (asid : ℤ) : Vm :=
  ((List.finRange poolSize).foldl (freeFrame asid) vm).tlbClr

/-- The transfer with the status that the device returns, and the result. -/
def readWriteFlashdrive (asid vpn : ℤ) (physicalFrame op status : Word) : Vm × Word :=
  let block := getFlashBlock vpn
  match getFlashRegister asid with
  | none => (vm, -1)
  | some reg =>
      if block < 0 ∨ (maxPages : ℤ) ≤ block then (vm, -1)
      else (vm.flashDevice reg physicalFrame (BitVec.ofInt 32 block <<< 8 ||| op) status, status)

/-- The first unoccupied frame, else the next one in the order of `fifoCont`. -/
def chooseFrame : Frame × Vm :=
  match (List.finRange poolSize).find? fun j => (vm.swapPool j).swAsid == -1 with
  | some j => (j, vm)
  | none => (vm.fifoCont, { vm with fifoCont := vm.fifoCont + 1 })

/-- Marks the entry that frame i records as not valid, in the page table and in
the TLB. -/
def evict (i : Frame) : Vm :=
  match (vm.swapPool i).swPte with
  | some (x, k) =>
      let vm := vm.setLO x k ((vm.privatePgTbl x k).entryLO &&& ~~~validOn)
      vm.tlbUpdate (vm.privatePgTbl x k).entryHI (vm.privatePgTbl x k).entryLO
  | none => vm

def recordPage (a : Asid) (missingPageNo : ℤ) (i : Frame) : Vm :=
  vm.setSwap i { vm.swapPool i with swAsid := a.num, swPageNo := missingPageNo }

/-- Points frame i to the entry of the page and makes the entry valid, in the page
table and in the TLB. -/
def install (a : Asid) (missingPageNo : ℤ) (i : Frame) : Vm :=
  let pte := pteAt a (getFlashBlock missingPageNo)
  let vm := vm.setSwap i { vm.swapPool i with swPte := pte }
  match pte with
  | some (x, k) =>
      let vm := vm.setLO x k (physicalFrame i ||| dirtyOn ||| validOn)
      vm.tlbUpdate (vm.privatePgTbl x k).entryHI (vm.privatePgTbl x k).entryLO
  | none => vm

section Fields
variable {vm : Vm} {a : Asid} {k : PageIdx} {i : Frame} {e : PteEntry} {lo hi reg va : Word}
  {b : Bool} {n : BitVec 20} {block : BitVec 24} {page : Page} {sw : SwapEntry}
  {replaced : Option Word} {asid vpn : ℤ} {op data0 command status : Word}

@[simp] theorem setLO_swapPool : (vm.setLO a k lo).swapPool = vm.swapPool := rfl
@[simp] theorem setLO_flag : (vm.setLO a k lo).holdingSwapMutex = vm.holdingSwapMutex := rfl
@[simp] theorem setLO_tlb : (vm.setLO a k lo).tlb = vm.tlb := rfl
@[simp] theorem setLO_ram : (vm.setLO a k lo).ram = vm.ram := rfl
@[simp] theorem setLO_flash : (vm.setLO a k lo).flash = vm.flash := rfl
@[simp] theorem setSwap_table : (vm.setSwap i sw).privatePgTbl = vm.privatePgTbl := rfl
@[simp] theorem setSwap_flag : (vm.setSwap i sw).holdingSwapMutex = vm.holdingSwapMutex := rfl
@[simp] theorem setSwap_tlb : (vm.setSwap i sw).tlb = vm.tlb := rfl
@[simp] theorem setSwap_ram : (vm.setSwap i sw).ram = vm.ram := rfl
@[simp] theorem setSwap_flash : (vm.setSwap i sw).flash = vm.flash := rfl
@[simp] theorem setFlag_table : (vm.setFlag a b).privatePgTbl = vm.privatePgTbl := rfl
@[simp] theorem setFlag_swapPool : (vm.setFlag a b).swapPool = vm.swapPool := rfl
@[simp] theorem setFlag_tlb : (vm.setFlag a b).tlb = vm.tlb := rfl
@[simp] theorem setFlag_ram : (vm.setFlag a b).ram = vm.ram := rfl
@[simp] theorem setFlag_flash : (vm.setFlag a b).flash = vm.flash := rfl

theorem setLO_self :
    (vm.setLO a k lo).privatePgTbl a k = { vm.privatePgTbl a k with entryLO := lo } := by
  simp [setLO, setPte]

theorem setLO_of_ne {a' : Asid} {k' : PageIdx} (h : (a', k') ≠ (a, k)) :
    (vm.setLO a k lo).privatePgTbl a' k' = vm.privatePgTbl a' k' := by
  by_cases ha : a' = a
  · subst ha
    have hk : k' ≠ k := fun hk => h (by rw [hk])
    simp [setLO, setPte, hk]
  · simp [setLO, setPte, ha]

theorem setLO_entryHI (a' : Asid) (k' : PageIdx) :
    ((vm.setLO a k lo).privatePgTbl a' k').entryHI = (vm.privatePgTbl a' k').entryHI := by
  by_cases h : (a', k') = (a, k)
  · simp only [Prod.mk.injEq] at h
    rw [h.1, h.2, setLO_self]
  · rw [setLO_of_ne h]

@[simp] theorem setSwap_self : (vm.setSwap i sw).swapPool i = sw := Function.update_self ..

theorem setSwap_of_ne {j : Frame} (h : j ≠ i) : (vm.setSwap i sw).swapPool j = vm.swapPool j :=
  Function.update_of_ne h ..

@[simp] theorem tlbUpdate_table : (vm.tlbUpdate hi lo).privatePgTbl = vm.privatePgTbl := by
  unfold tlbUpdate
  split <;> rfl

@[simp] theorem tlbUpdate_swapPool : (vm.tlbUpdate hi lo).swapPool = vm.swapPool := by
  unfold tlbUpdate
  split <;> rfl

@[simp] theorem tlbUpdate_flag : (vm.tlbUpdate hi lo).holdingSwapMutex = vm.holdingSwapMutex := by
  unfold tlbUpdate
  split <;> rfl

@[simp] theorem tlbUpdate_ram : (vm.tlbUpdate hi lo).ram = vm.ram := by
  unfold tlbUpdate
  split <;> rfl

@[simp] theorem tlbUpdate_flash : (vm.tlbUpdate hi lo).flash = vm.flash := by
  unfold tlbUpdate
  split <;> rfl

/-- A store changes the RAM and nothing else. -/
theorem store_eq {vm' : Vm} {b : Byte} (h : vm.store a va b = some vm') :
    ∃ lo, vm.tlb (accessHI a va) = some lo ∧ isValid lo = true ∧
      vm' = vm.setRam (pfn lo) (Function.update (vm.ram (pfn lo)) (offset va) b) := by
  unfold store at h
  split at h
  · next lo hlo =>
    split at h
    · next hv =>
      rw [Bool.and_eq_true] at hv
      simp only [Option.some.injEq] at h
      exact ⟨lo, hlo, hv.1, h.symm⟩
    · exact absurd h (by simp)
  · exact absurd h (by simp)

@[simp] theorem flashDevice_table :
    (vm.flashDevice reg data0 command status).privatePgTbl = vm.privatePgTbl := by
  unfold flashDevice
  split_ifs <;> rfl

@[simp] theorem flashDevice_swapPool :
    (vm.flashDevice reg data0 command status).swapPool = vm.swapPool := by
  unfold flashDevice
  split_ifs <;> rfl

@[simp] theorem flashDevice_flag :
    (vm.flashDevice reg data0 command status).holdingSwapMutex = vm.holdingSwapMutex := by
  unfold flashDevice
  split_ifs <;> rfl

@[simp] theorem flashDevice_tlb : (vm.flashDevice reg data0 command status).tlb = vm.tlb := by
  unfold flashDevice
  split_ifs <;> rfl

/-- A transfer touches the RAM and the flash devices only. -/
theorem readWriteFlashdrive_frame {data0 : Word} :
    let vm' := (vm.readWriteFlashdrive asid vpn data0 op status).1
    vm'.privatePgTbl = vm.privatePgTbl ∧ vm'.swapPool = vm.swapPool ∧
      vm'.holdingSwapMutex = vm.holdingSwapMutex ∧ vm'.tlb = vm.tlb := by
  unfold readWriteFlashdrive
  cases getFlashRegister asid with
  | none => simp
  | some reg =>
      simp only
      split_ifs
      · simp
      · simp

@[simp] theorem chooseFrame_table : vm.chooseFrame.2.privatePgTbl = vm.privatePgTbl := by
  unfold chooseFrame
  split <;> rfl

@[simp] theorem chooseFrame_swapPool : vm.chooseFrame.2.swapPool = vm.swapPool := by
  unfold chooseFrame
  split <;> rfl

@[simp] theorem chooseFrame_flag : vm.chooseFrame.2.holdingSwapMutex = vm.holdingSwapMutex := by
  unfold chooseFrame
  split <;> rfl

@[simp] theorem chooseFrame_tlb : vm.chooseFrame.2.tlb = vm.tlb := by
  unfold chooseFrame
  split <;> rfl

@[simp] theorem chooseFrame_ram : vm.chooseFrame.2.ram = vm.ram := by
  unfold chooseFrame
  split <;> rfl

@[simp] theorem chooseFrame_flash : vm.chooseFrame.2.flash = vm.flash := by
  unfold chooseFrame
  split <;> rfl

@[simp] theorem evict_swapPool : (vm.evict i).swapPool = vm.swapPool := by
  unfold evict
  split <;> simp

@[simp] theorem evict_flag : (vm.evict i).holdingSwapMutex = vm.holdingSwapMutex := by
  unfold evict
  split <;> simp

@[simp] theorem evict_ram : (vm.evict i).ram = vm.ram := by
  unfold evict
  split <;> simp

@[simp] theorem evict_flash : (vm.evict i).flash = vm.flash := by
  unfold evict
  split <;> simp

@[simp] theorem install_flag : (vm.install a vpn i).holdingSwapMutex = vm.holdingSwapMutex := by
  unfold install
  cases pteAt a (getFlashBlock vpn) <;> simp

@[simp] theorem install_ram : (vm.install a vpn i).ram = vm.ram := by
  unfold install
  cases pteAt a (getFlashBlock vpn) <;> simp

@[simp] theorem install_flash : (vm.install a vpn i).flash = vm.flash := by
  unfold install
  cases pteAt a (getFlashBlock vpn) <;> simp

theorem freeFrame_frame (j : Frame) : (vm.freeFrame asid j).holdingSwapMutex = vm.holdingSwapMutex ∧
    (vm.freeFrame asid j).ram = vm.ram ∧ (vm.freeFrame asid j).flash = vm.flash := by
  unfold freeFrame
  split
  · cases (vm.swapPool j).swPte <;> simp
  · simp

theorem foldl_freeFrame_frame (js : List Frame) (vm : Vm) :
    (js.foldl (freeFrame asid) vm).holdingSwapMutex = vm.holdingSwapMutex ∧
      (js.foldl (freeFrame asid) vm).ram = vm.ram ∧
      (js.foldl (freeFrame asid) vm).flash = vm.flash := by
  induction js generalizing vm with
  | nil => exact ⟨rfl, rfl, rfl⟩
  | cons j js ih =>
      have hj : (vm.freeFrame asid j).holdingSwapMutex = vm.holdingSwapMutex ∧
          (vm.freeFrame asid j).ram = vm.ram ∧ (vm.freeFrame asid j).flash = vm.flash :=
        freeFrame_frame j
      obtain ⟨h1, h2, h3⟩ := ih (vm.freeFrame asid j)
      exact ⟨h1.trans hj.1, h2.trans hj.2.1, h3.trans hj.2.2⟩

@[simp] theorem freeSwapFrames_flag :
    (vm.freeSwapFrames asid).holdingSwapMutex = vm.holdingSwapMutex :=
  (foldl_freeFrame_frame _ vm).1

@[simp] theorem freeSwapFrames_ram : (vm.freeSwapFrames asid).ram = vm.ram :=
  (foldl_freeFrame_frame _ vm).2.1

@[simp] theorem freeSwapFrames_flash : (vm.freeSwapFrames asid).flash = vm.flash :=
  (foldl_freeFrame_frame _ vm).2.2

end Fields
end Vm
end PandOSsh.SupportLevel
