import PandOSsh.SupportLevel.Eviction
import PandOSsh.SupportLevel.PageNumbers

/-!
# Demand paging is transparent

A U-proc sees one flat private memory, whose initial contents are its flash
device. Of each page the frame has the last word while the page is present or on
its way out, else the flash block; this goes through every step in which the
flash devices do what they are told.
-/

namespace PandOSsh.SupportLevel
open Library Coherent

/-- A flat private memory for each U-proc, by virtual address. -/
abbrev Memory := Asid → Word → Byte

def Memory.store (mem : Memory) (a : Asid) (va : Word) (x : Byte) : Memory :=
  Function.update mem a (Function.update (mem a) va x)

/-- What the flash device of a U-proc holds for a virtual address. -/
def flashMemory (flash : Word → BitVec 24 → Page) : Memory := fun a va =>
  flash (flashReg a) (BitVec.ofInt 24 (getFlashBlock (va >>> vpnShift).toNat)) (offset va)

/-- The byte that the next statement stores, and where. -/
def Control.storing : Control → Input → Option (Word × Byte)
  | .run code, inp => code.storing inp
  | _, _ => none

/-- The U-procs write to their memories; a new U-proc starts with what its flash device
holds. -/
def State.remember (s : State) (e : Event) (mem : Memory) : Memory :=
  match s.service e, s.uproc e.1 with
  | .create a true, _ => Function.update mem a (flashMemory s.vm.flash a)
  | _, some (a, c) => (c.storing e.2).elim mem fun y => mem.store a y.1 y.2
  | _, none => mem

/-- Every command to a flash device ends with the status READY. -/
def FlashReady (x : State × Set Asid) (e : Event) : Prop :=
  ∀ a hi back pt w, x.1.uproc e.1 = some (a, .pager hi back pt) → e.2 = .status w → w = 1

/-- The runs after `initSwapPool` without flash errors, and what the U-procs have stored. -/
def flatRuns : System ((State × Set Asid) × Memory) Event :=
  ((supportRuns Unpaged).restrict FlashReady).withHistory (fun x => flashMemory x.1.vm.flash)
    fun x e _ mem => x.1.remember e mem

section Words
variable {a : Asid} {k : PageIdx} {va va' : Word}

/-- An address is its page and its offset. -/
theorem eq_of_offset (h : accessHI a va = pteHI a k) (h' : accessHI a va' = pteHI a k)
    (ho : offset va = offset va') : va = va' := by
  have hpage : (va >>> 12).toNat = (va' >>> 12).toNat := by
    rw [accessHI_eq_pteHI] at h h'
    omega
  have hoff : va.toNat % 4096 = va'.toNat % 4096 := by
    simpa [offset] using congrArg BitVec.toNat ho
  simp only [BitVec.toNat_ushiftRight, Nat.shiftRight_eq_div_pow] at hpage
  exact BitVec.eq_of_toNat_eq (by omega)

theorem flashReg_injective : ∀ {a b : Asid}, flashReg a = flashReg b → a = b := by
  decide

theorem blockOf_injective : ∀ {k l : PageIdx}, blockOf k = blockOf l → k = l := by
  decide

theorem flashMemory_of_page {flash : Word → BitVec 24 → Page} (h : accessHI a va = pteHI a k) :
    flashMemory flash a va = flash (flashReg a) (blockOf k) (offset va) := by
  rw [accessHI_eq_pteHI] at h
  rw [flashMemory, vpnShift, h, getFlashBlock_pageNo, BitVec.ofInt_natCast]
  rfl

end Words

/-- A page of 4K has the contents that the memory of a U-proc has there. -/
def Shows (mem : Memory) (a : Asid) (k : PageIdx) (page : Page) : Prop :=
  ∀ va, accessHI a va = pteHI a k → page (offset va) = mem a va

/-- Frames and flash blocks make up the memories of these U-procs. -/
structure Backed (mem : Memory) (vm : Vm) (busy : Busy) (live : Set Asid) : Prop where
  present : ∀ a ∈ live, ∀ k i, (vm.privatePgTbl a k).entryLO = loOf i →
    Shows mem a k (vm.frame i)
  evicting : ∀ a ∈ live, ∀ k i, busy = .evicting i → vm.swapPool i = entry a k →
    Shows mem a k (vm.frame i)
  absent : ∀ a ∈ live, ∀ k, ¬ Present vm a k →
    (∀ i, busy = .evicting i → vm.swapPool i ≠ entry a k) →
    Shows mem a k (vm.flash (flashReg a) (blockOf k))

section Memory
variable {mem : Memory} {a b : Asid} {k l : PageIdx} {page : Page} {va : Word} {x : Byte}

theorem Shows.store (h : Shows mem a k page) (hva : accessHI a va = pteHI a k) :
    Shows (mem.store a va x) a k (Function.update page (offset va) x) := by
  intro va' hva'
  simp only [Memory.store, Function.update_self]
  by_cases hne : va' = va
  · rw [hne, Function.update_self, Function.update_self]
  · rw [Function.update_of_ne hne, Function.update_of_ne fun ho => hne (eq_of_offset hva' hva ho)]
    exact h va' hva'

/-- A store touches its own page only. -/
theorem Shows.store_of_ne (h : Shows mem b l page) (hva : accessHI a va = pteHI a k)
    (hne : (b, l) ≠ (a, k)) : Shows (mem.store a va x) b l page := by
  intro va' hva'
  rw [h va' hva']
  by_cases hb : b = a
  · subst hb
    simp only [Memory.store, Function.update_self]
    rw [Function.update_of_ne]
    rintro rfl
    rw [hva] at hva'
    exact hne (by rw [(pteHI_injective hva').2])
  · simp only [Memory.store, Function.update_of_ne hb]

theorem shows_flash {flash : Word → BitVec 24 → Page} :
    Shows (Function.update mem a (flashMemory flash a)) a k (flash (flashReg a) (blockOf k)) := by
  intro va hva
  rw [Function.update_self, flashMemory_of_page hva]

theorem Shows.update_of_ne (h : Shows mem b l page) (hb : b ≠ a) (m : Word → Byte) :
    Shows (Function.update mem a m) b l page := by
  intro va hva
  rw [Function.update_of_ne hb]
  exact h va hva

end Memory

namespace Backed
variable {mem : Memory} {vm vm' : Vm} {vacant live live' : Set Asid} {busy : Busy} {a b : Asid}
  {k l : PageIdx} {i j : Frame} {va : Word} {x : Byte}

theorem mono (h : Backed mem vm busy live) (hl : ∀ b, b ∈ live' → b ∈ live) :
    Backed mem vm busy live' where
  present b hb := h.present b (hl b hb)
  evicting b hb := h.evicting b (hl b hb)
  absent b hb := h.absent b (hl b hb)

/-- The TLB does not matter. -/
theorem congr (h : Backed mem vm busy live)
    (ht : ∀ b ∈ live, vm'.privatePgTbl b = vm.privatePgTbl b) (hs : vm'.swapPool = vm.swapPool)
    (hr : vm'.ram = vm.ram) (hf : vm'.flash = vm.flash) : Backed mem vm' busy live := by
  constructor
  · intro b hb l i hlo
    rw [ht b hb] at hlo
    rw [Vm.frame, hr]
    exact h.present b hb l i hlo
  · intro b hb l i hi hs'
    rw [hs] at hs'
    rw [Vm.frame, hr]
    exact h.evicting b hb l i hi hs'
  · intro b hb l hp hne
    rw [Present, ht b hb] at hp
    rw [hs] at hne
    rw [hf]
    exact h.absent b hb l hp hne

/-- What a load of a U-proc reads is what its memory holds. -/
theorem load (h : Backed mem vm busy live) (hc : Coherent True vm vacant busy) (ha : a ∈ live)
    (hl : vm.load a va = some x) : x = mem a va := by
  unfold Vm.load at hl
  split at hl
  · next lo hlo =>
    split at hl
    · next hv =>
      obtain ⟨b, k, _, hva, rfl⟩ := hc.tlb _ _ hlo
      obtain rfl := eq_of_accessHI hva
      obtain ⟨i, hi, _, _⟩ := hc.mapped a k hv
      rw [hi, pfn_loOf, Option.some.injEq] at hl
      rw [← hl]
      exact h.present a ha k i hi va hva
    · exact absurd hl (by simp)
  · exact absurd hl (by simp)

/-- A page that is present is in one frame, and the frame holds no other page. -/
theorem store (h : Backed mem vm busy live) (hc : Coherent True vm vacant busy)
    (hv : vm.store a va x = some vm') : Backed (mem.store a va x) vm' busy live := by
  obtain ⟨k, j, hva, hlo, hs, hj, rfl⟩ := store_frame hc hv
  have hframe : ∀ i, i ≠ j → (vm.setRam (pfn (physicalFrame j))
      (Function.update (vm.frame j) (offset va) x)).frame i = vm.frame i := fun i hi => by
    rw [setRam_frame, if_neg fun he => hi (pfn_injective he)]
  have hpres : Present vm a k := by
    rw [Present, hlo]
    exact isValid_loOf j
  constructor
  · intro b hb l i hi
    change (vm.privatePgTbl b l).entryLO = loOf i at hi
    by_cases hbl : (b, l) = (a, k)
    · simp only [Prod.mk.injEq] at hbl
      obtain ⟨rfl, rfl⟩ := hbl
      obtain rfl := loOf_injective (hi.symm.trans hlo)
      rw [setRam_frame, if_pos rfl]
      exact (h.present b hb l i hi).store hva
    · have hne : i ≠ j := by
        rintro rfl
        have hp : Present vm b l := by
          rw [Present, hi]
          exact isValid_loOf i
        have hsame := (hc.swapPool_of_lo hp hi).1.symm.trans hs
        obtain ⟨rfl, rfl⟩ := entry_injective hsame
        exact hbl rfl
      rw [hframe i hne]
      exact (h.present b hb l i hi).store_of_ne hva hbl
  · intro b hb l i hi hs'
    have hne : i ≠ j := by
      rintro rfl
      rw [hi] at hj
      simp [Busy.at] at hj
    have hbl : (b, l) ≠ (a, k) := by
      intro he
      simp only [Prod.mk.injEq] at he
      rw [he.1, he.2] at hs'
      refine hc.stale trivial i a k ?_ ?_ ?_ hpres
      · rw [hi]
        simp [Busy.at]
      · rw [show vm.swapPool i = entry a k from hs']
        rfl
      · rw [show vm.swapPool i = entry a k from hs']
        rfl
    rw [hframe i hne]
    exact (h.evicting b hb l i hi hs').store_of_ne hva hbl
  · intro b hb l hp hne
    refine (h.absent b hb l hp hne).store_of_ne hva fun he => ?_
    simp only [Prod.mk.injEq] at he
    rw [he.1, he.2] at hp
    exact hp hpres

/-- The page that frame i records is on its way out. -/
theorem evict (h : Backed mem vm .idle live) (hc : Coherent True vm vacant .idle)
    (hi : vm.swapPool i = entry a k) : Backed mem (vm.evict i) (.evicting i) live := by
  have hlo := hc.used trivial i a k rfl hi
  have hframe : ∀ j, (vm.evict i).frame j = vm.frame j := fun j => by
    rw [Vm.frame, Vm.evict_ram]
    rfl
  constructor
  · intro b hb l j hj
    have hne : (b, l) ≠ (a, k) := by
      intro he
      simp only [Prod.mk.injEq] at he
      rw [he.1, he.2] at hj
      apply evict_not_present hi
      rw [Present, hj]
      exact isValid_loOf j
    rw [evict_table_of_ne hi hne] at hj
    rw [hframe]
    exact h.present b hb l j hj
  · intro b hb l j hj hs
    simp only [Busy.evicting.injEq] at hj
    subst hj
    rw [Vm.evict_swapPool, hi] at hs
    obtain ⟨rfl, rfl⟩ := entry_injective hs
    rw [hframe]
    exact h.present a hb k i hlo
  · intro b hb l hp hout
    have hne : (b, l) ≠ (a, k) := by
      intro he
      simp only [Prod.mk.injEq] at he
      refine hout i rfl ?_
      rw [Vm.evict_swapPool, hi, he.1, he.2]
    rw [Present, evict_table_of_ne hi hne] at hp
    rw [Vm.evict_flash]
    exact h.absent b hb l hp fun j hj => absurd hj (by simp)

theorem take (h : Backed mem vm .idle live) : Backed mem vm (.loading i) live where
  present := h.present
  evicting b hb l j hj := absurd hj (by simp)
  absent b hb l hp _ := h.absent b hb l hp fun j hj => absurd hj (by simp)

/-- The write-back puts the page on its flash block. -/
theorem written (h : Backed mem vm (.evicting i) live) (hi : vm.swapPool i = entry a k) :
    Backed mem (vm.setFlash (flashReg a) (blockOf k) (vm.frame i)) (.loading i) live := by
  constructor
  · intro b hb l j hj
    exact h.present b hb l j hj
  · intro b hb l j hj
    exact absurd hj (by simp)
  · intro b hb l hp _
    change ¬ Present vm b l at hp
    by_cases hbl : (b, l) = (a, k)
    · simp only [Prod.mk.injEq] at hbl
      obtain ⟨rfl, rfl⟩ := hbl
      simp only [Vm.setFlash, Function.update_self]
      exact h.evicting b hb l i rfl hi
    · have hflash : (vm.setFlash (flashReg a) (blockOf k) (vm.frame i)).flash (flashReg b) (blockOf l) =
          vm.flash (flashReg b) (blockOf l) := by
        by_cases hb' : b = a
        · have hl : blockOf l ≠ blockOf k := fun he => hbl (by rw [hb', blockOf_injective he])
          simp only [Vm.setFlash, hb', Function.update_self, Function.update_of_ne hl]
        · have hr : flashReg b ≠ flashReg a := fun he => hb' (flashReg_injective he)
          simp only [Vm.setFlash, Function.update_of_ne hr]
      rw [hflash]
      refine h.absent b hb l hp fun j hj hs => hbl ?_
      simp only [Busy.evicting.injEq] at hj
      subst hj
      rw [hi] at hs
      obtain ⟨rfl, rfl⟩ := entry_injective hs
      rfl

/-- The frame that is refilled holds no page that is present. -/
theorem read (h : Backed mem vm (.loading i) live) (hc : Coherent True vm vacant (.loading i))
    (page : Page) : Backed mem (vm.setRam (pfn (physicalFrame i)) page) (.loading i) live := by
  constructor
  · intro b hb l j hj
    change (vm.privatePgTbl b l).entryLO = loOf j at hj
    have hp : Present vm b l := by
      rw [Present, hj]
      exact isValid_loOf j
    have hout := (hc.swapPool_of_lo hp hj).2
    rw [setRam_frame, if_neg]
    · exact h.present b hb l j hj
    · intro he
      rw [pfn_injective he] at hout
      simp [Busy.at] at hout
  · intro b hb l j hj
    exact absurd hj (by simp)
  · exact h.absent

theorem record (h : Backed mem vm (.loading i) live) (n : ℤ) :
    Backed mem (vm.recordPage a n i) (.loading i) live where
  present := h.present
  evicting b hb l j hj := absurd hj (by simp)
  absent b hb l hp _ := h.absent b hb l hp fun j hj => absurd hj (by simp)

/-- The page that becomes present has been read from its flash block. -/
theorem install (h : Backed mem vm (.loading i) live) (hp : ¬ Present vm a k)
    (hf : vm.frame i = vm.flash (flashReg a) (blockOf k)) :
    Backed mem (vm.install a (pageNo k) i) .idle live := by
  have hframe : ∀ j, (vm.install a (pageNo k) i).frame j = vm.frame j := fun j => by
    rw [Vm.frame, Vm.install_ram]
    rfl
  have habs : ∀ b ∈ live, ∀ l, ¬ Present vm b l → Shows mem b l (vm.flash (flashReg b) (blockOf l)) :=
    fun b hb l hn => h.absent b hb l hn fun j hj => absurd hj (by simp)
  constructor
  · intro b hb l j hj
    rw [hframe]
    by_cases hbl : (b, l) = (a, k)
    · simp only [Prod.mk.injEq] at hbl
      obtain ⟨rfl, rfl⟩ := hbl
      rw [install_entryLO] at hj
      rw [← loOf_injective hj, hf]
      exact habs b hb l hp
    · rw [install_table_of_ne hbl] at hj
      exact h.present b hb l j hj
  · intro b hb l j hj
    exact absurd hj (by simp)
  · intro b hb l hn _
    rw [Vm.install_flash]
    by_cases hbl : (b, l) = (a, k)
    · simp only [Prod.mk.injEq] at hbl
      rw [hbl.1, hbl.2, Present, install_entryLO, isValid_loOf] at hn
      exact absurd rfl hn
    · rw [Present, install_table_of_ne hbl] at hn
      exact habs b hb l hn

/-- The frames of one U-proc are given back without a write-back; its memory is lost. -/
theorem sweep (h : Backed mem vm .idle live) (hc : Coherent True vm vacant .idle) (ha : a ∉ live) :
    Backed mem (vm.freeSwapFrames a.num) .idle live := by
  have htab : ∀ b, b ∈ live → (vm.freeSwapFrames a.num).privatePgTbl b = vm.privatePgTbl b :=
    fun b hb => hc.sweep_table fun he => ha (he ▸ hb)
  constructor
  · intro b hb l i hlo
    rw [htab b hb] at hlo
    rw [Vm.frame, Vm.freeSwapFrames_ram]
    exact h.present b hb l i hlo
  · intro b hb l i hi
    exact absurd hi (by simp)
  · intro b hb l hp _
    rw [Present, htab b hb] at hp
    rw [Vm.freeSwapFrames_flash]
    exact h.absent b hb l hp fun i hi => absurd hi (by simp)

/-- A U-proc that is created finds its memory on its flash device. -/
theorem create (h : Backed mem vm busy live) (hc : Coherent True vm vacant busy) (ha : a ∈ vacant)
    (hlive : ∀ b ∈ live, b ∉ vacant) (hl : ∀ b, b ∈ live' → b ∈ live ∨ b = a) :
    Backed (Function.update mem a (flashMemory vm.flash a)) vm busy live' := by
  have hne : ∀ b, b ∈ live → b ≠ a := fun b hb he => hlive b hb (he ▸ ha)
  have hnone : ∀ l, ¬ Present vm a l := by
    intro l hp
    obtain ⟨i, _, hs, hb⟩ := hc.mapped a l hp
    exact hc.not_recorded ha (fun hi => by rw [hi] at hb; simp [Busy.at] at hb) hs
  constructor
  · intro b hb l i hlo
    rcases hl b hb with hb' | rfl
    · exact (h.present b hb' l i hlo).update_of_ne (hne b hb') _
    · refine absurd ?_ (hnone l)
      rw [Present, hlo]
      exact isValid_loOf i
  · intro b hb l i hi hs
    rcases hl b hb with hb' | rfl
    · exact (h.evicting b hb' l i hi hs).update_of_ne (hne b hb') _
    · exact absurd hs (hc.not_recorded ha (by simp [hi]))
  · intro b hb l hp hout
    rcases hl b hb with hb' | rfl
    · exact (h.absent b hb' l hp hout).update_of_ne (hne b hb') _
    · exact shows_flash

end Backed

/-- The frame that the pager is about to record and install has been filled. -/
def Loaded (vm : Vm) (a : Asid) : Control → Prop
  | .pager hi _ (.record i) | .pager hi _ (.install i) =>
      ∀ k, hi = pteHI a k → vm.frame i = vm.flash (flashReg a) (blockOf k)
  | _ => True

section Moves
variable {mem : Memory} {vm vm' : Vm} {vacant live : Set Asid} {busy : Busy} {a : Asid}
  {c c' : Control} {inp : Input} {svc : Service} {va : Word} {x : Byte}

/-- What a statement that stores does. -/
theorem next_store (h : next a vm c inp = some (c', vm', svc)) (hs : c.storing inp = some (va, x)) :
    vm.store a va x = some vm' ∧ svc = .none ∧ ∃ code, c' = .run code := by
  cases c with
  | pager | sys2 | sys6 => exact absurd hs (by simp [Control.storing])
  | run code =>
      simp only [Control.storing] at hs
      cases code with
      | user =>
          cases inp with
          | store va' x' =>
              simp only [Code.storing, Option.some.injEq, Prod.mk.injEq] at hs
              obtain ⟨rfl, rfl⟩ := hs
              simp only [next, runStep, codeStep, userStep, Option.map_eq_some_iff,
                Prod.mk.injEq] at h
              obtain ⟨vm₁, hv, rfl, rfl, rfl⟩ := h
              exact ⟨hv, rfl, _, rfl⟩
          | go | load | refill | fault | trap | syscall | status | created =>
              exact absurd hs (by simp [Code.storing])
      | writeTerminal str len pt => exact absurd hs (by simp [Code.storing])
      | readTerminal buf pt =>
          cases pt with
          | store n c₁ =>
              cases inp with
              | go =>
                  simp only [Code.storing, Option.ite_none_right_eq_some, Option.some.injEq,
                    Prod.mk.injEq] at hs
                  obtain ⟨hn, rfl, rfl⟩ := hs
                  simp only [next, runStep, codeStep, readTerminalStep, Input.onGo, if_true, hn,
                    Option.bind_some, Option.map_eq_some_iff, Prod.mk.injEq] at h
                  obtain ⟨vm₁, hv, rfl, rfl, rfl⟩ := h
                  exact ⟨hv, rfl, _, rfl⟩
              | load | store | refill | fault | trap | syscall | status | created =>
                  exact absurd hs (by simp [Code.storing])
          | passeren | receive | verhogen => exact absurd hs (by simp [Code.storing])

/-- Every other statement leaves the memories as they are. -/
theorem Moves.backed (h : Moves a vm c inp c' vm' svc) (hb : Backed mem vm busy live)
    (hc : Coherent True vm vacant busy) (hst : Stage vm vacant busy a c) (hld : Loaded vm a c)
    (hidle : c.past .swapSemaphore = true → c.working = false → busy = .idle)
    (hchild : ∀ child, c = .sys6 child .init → child ∈ vacant)
    (hready : ∀ hi back pt w, c = .pager hi back pt → inp = .status w → w = 1)
    (hlive : ∀ b ∈ live, b ∉ vacant) (hsweep : c = .sys2 .sweep → a ∉ live)
    (hstore : c.storing inp = none) : Backed mem vm' (c'.busy busy) live ∧ Loaded vm' a c' := by
  cases h with
  | store hs =>
      rw [Control.storing, hs] at hstore
      exact absurd hstore (by simp)
  | refill | setFlag | checkHeld => exact ⟨hb.congr (fun _ _ => rfl) rfl rfl rfl, trivial⟩
  | choose =>
      exact ⟨hb.congr (fun _ _ => by rw [Vm.chooseFrame_table]) Vm.chooseFrame_swapPool
        Vm.chooseFrame_ram Vm.chooseFrame_flash, trivial⟩
  | evictFree =>
      obtain ⟨_, rfl⟩ := hst
      exact ⟨hb.take, trivial⟩
  | @evict hi back i hf =>
      obtain ⟨_, rfl⟩ := hst
      rcases hc.recorded i (by simp) with hfree | ⟨b, l, _, hs⟩
      · exact absurd (congrArg SwapEntry.swAsid hfree) hf
      · exact ⟨hb.evict hc hs, trivial⟩
  | @write hi back i y z w =>
      obtain ⟨_, rfl, b, l, _, hs, rfl, rfl⟩ := hst
      rw [readWriteFlashdrive_write, if_pos (hready _ _ _ _ rfl rfl)]
      exact ⟨hb.written hs, trivial⟩
  | @read hi back i w =>
      obtain ⟨⟨k, rfl, _⟩, rfl, _⟩ := hst
      rw [missingPage_pteHI, readWriteFlashdrive_read, if_pos (hready _ _ _ _ rfl rfl)]
      refine ⟨hb.read hc _, fun l hl => ?_⟩
      rw [← (pteHI_injective hl).2, setRam_frame, if_pos rfl]
      rfl
  | @readFailed hi back i w hr =>
      obtain ⟨⟨k, rfl, _⟩, _, _⟩ := hst
      rw [missingPage_pteHI, readWriteFlashdrive_status] at hr
      exact absurd (hready _ _ _ _ rfl rfl) hr
  | record =>
      obtain ⟨_, rfl⟩ := hst
      exact ⟨hb.record _, hld⟩
  | install =>
      obtain ⟨⟨k, rfl, hn⟩, rfl, _, _⟩ := hst
      rw [missingPage_pteHI]
      exact ⟨hb.install hn (hld k rfl), trivial⟩
  | clearFlag | clearFlagFailed =>
      obtain rfl := hidle (by simp [Control.past]) rfl
      exact ⟨hb.congr (fun _ _ => rfl) rfl rfl rfl, trivial⟩
  | sweep =>
      obtain rfl := hidle (by simp [Control.past]) rfl
      exact ⟨hb.sweep hc (hsweep rfl), trivial⟩
  | @init child =>
      refine ⟨hb.congr (fun b hl => Function.update_of_ne ?_ ..) rfl rfl rfl, trivial⟩
      rintro rfl
      exact hlive b hl (hchild b rfl)
  | code | fault | trap | terminate | terminal | execute | codePasseren | codeVerhogen | cause |
    causeMod | passeren | verhogenFailed | verhogen | check | releaseMutex | signal | sys2Passeren |
    sys2Verhogen | term | create | createFailed | sys6Passeren => exact ⟨hb, trivial⟩

end Moves

/-- The ASIDs of the U-procs that have not given their frames back. -/
def State.unswept (s : State) : Set Asid := {a | ∃ p c, s.uproc p = some (a, c) ∧ c.swept = false}

/-- What holds in every run without flash errors, beside what holds in every run. -/
structure Flat (s : State) (vacant : Set Asid) (busy : Busy) (mem : Memory) : Prop where
  paged : Paged True s vacant busy
  loaded : ∀ p a c, s.uproc p = some (a, c) → Loaded s.vm a c
  backed : Backed mem s.vm busy s.unswept

section Step
variable {s s' : State} {mem : Memory} {vm : Vm} {vacant : Set Asid} {busy : Busy} {p q parent : ℕ}
  {a b : Asid} {c c' d : Control} {inp : Input} {svc : Service} {va : Word} {x : Byte}

theorem Unpaged.flat (h : Unpaged s) :
    Flat s s.unused .idle (flashMemory s.vm.flash) where
  paged := h.paged
  loaded p a c hp := by
    obtain ⟨parent, hp'⟩ := State.uproc_eq_some.mp hp
    rw [(uproc_fresh hp' (h.fresh p _ hp').1 hp).2]
    trivial
  backed := by
    constructor
    · intro a _ k i hlo
      refine absurd ?_ (h.absent a k)
      rw [Present, hlo]
      exact isValid_loOf i
    · intro a _ k i hi
      exact absurd hi (by simp)
    · intro a _ k _ _ va hva
      exact (flashMemory_of_page hva).symm

/-- Nobody touches the frame that another pager has filled. -/
theorem Paged.loaded_other (h : Paged True s vacant busy) (hs : Steps s p inp s') (hne : p ≠ q)
    (hq : s.uproc q = some (b, d)) (hld : Loaded s.vm b d) : Loaded s'.vm b d := by
  have hst := h.stage q b d hq
  cases d with
  | run | sys2 | sys6 => trivial
  | pager hi back pt =>
      cases pt with
      | record i =>
          obtain ⟨_, rfl⟩ := hst
          have hin := h.orderly.inside hq (by simp [Control.past]) rfl
          obtain ⟨hframe, hflash, _⟩ := h.frame_other hs hne (i := i) (by simp [Busy.at]) hin
          intro k hk
          rw [hframe, hflash]
          exact hld k hk
      | install i =>
          obtain ⟨_, rfl, _⟩ := hst
          have hin := h.orderly.inside hq (by simp [Control.past]) rfl
          obtain ⟨hframe, hflash, _⟩ := h.frame_other hs hne (i := i) (by simp [Busy.at]) hin
          intro k hk
          rw [hframe, hflash]
          exact hld k hk
      | cause | passeren | setFlag | choose | evict | write | read | clearFlagFailed |
        verhogenFailed | clearFlag | verhogen => trivial

theorem Moves.unswept {vm' : Vm} (h : Moves a vm c inp c' vm' svc) (hs : c'.swept = false) :
    c.swept = false ∧ c ≠ .sys2 .sweep := by
  cases h with
  | sweep | sys2Verhogen | term => exact absurd hs (by simp [Control.swept])
  | code | store | refill | fault | trap | terminate | terminal | execute | codePasseren |
    codeVerhogen | cause | causeMod | passeren | setFlag | choose | evictFree | evict | write | read |
    readFailed | clearFlagFailed | verhogenFailed | record | install | clearFlag | verhogen |
    checkHeld | check | releaseMutex | signal | sys2Passeren | init | create | createFailed |
    sys6Passeren => exact ⟨rfl, by simp⟩

theorem unswept_after (hord : Orderly s vacant) (hp : s.proc p = some ⟨parent, .uproc a c⟩)
    (hm : Moves a s.vm c inp c' vm svc)
    (hb : b ∈ ((s.move p ⟨parent, .uproc a c'⟩ vm).serve p svc).unswept) :
    b ∈ s.unswept ∧ (c = .sys2 .sweep → b ≠ a) ∨ svc = .create b true := by
  obtain ⟨q, d, hq, hd⟩ := hb
  have hu := State.uproc_of_proc hp
  rcases uproc_after (hord.bound _ _ hp) hq with ⟨_, rfl, rfl, _⟩ | ⟨hne, hq₁⟩ | ⟨hc, _, _⟩
  · obtain ⟨h1, h2⟩ := hm.unswept hd
    exact .inl ⟨⟨p, c, hu, h1⟩, fun hc => absurd hc h2⟩
  · refine .inl ⟨⟨q, d, hq₁, hd⟩, ?_⟩
    rintro _ rfl
    exact hne (hord.distinct q p b d c hq₁ hu)
  · exact .inr hc

theorem remember_uproc (hs : s.service (p, inp) = svc) (hu : s.uproc p = some (a, c))
    (hc : ∀ b, svc ≠ .create b true) :
    s.remember (p, inp) mem = (c.storing inp).elim mem fun y => mem.store a y.1 y.2 := by
  unfold State.remember
  rw [hs, hu]
  split
  · exact absurd rfl (hc _)
  · next he =>
    simp only [Option.some.injEq, Prod.mk.injEq] at he
    obtain ⟨rfl, rfl⟩ := he
    rfl
  · next he => exact absurd he (by simp)

/-- The memories after the step of a U-proc. -/
theorem Flat.uproc (h : Flat s vacant busy mem)
    (hp : s.proc p = some ⟨parent, .uproc a c⟩) (hb : ¬ s.Blocked p)
    (hn : next a s.vm c inp = some (c', vm, svc)) (hsvc : s.service (p, inp) = svc)
    (hprep : ∀ a, s.prepares p = some a → a ∈ vacant)
    (hready : ∀ a hi back pt w, s.uproc p = some (a, .pager hi back pt) → inp = .status w → w = 1) :
    Backed (s.remember (p, inp) mem) vm (c'.busy busy)
        ((s.move p ⟨parent, .uproc a c'⟩ vm).serve p svc).unswept ∧ Loaded vm a c' := by
  have hu := State.uproc_of_proc hp
  have hm := next_moves hn
  have hc := h.paged.coherent
  have hlive : ∀ b, b ∈ s.unswept → b ∉ vacant := by
    rintro b ⟨q, d, hq, _⟩
    exact h.paged.orderly.inUse q b d hq
  have hafter := fun b => unswept_after (b := b) h.paged.orderly hp hm
  by_cases hcr : ∃ b, svc = .create b true
  · obtain ⟨b, rfl⟩ := hcr
    have hbv : b ∈ vacant := hprep b ((Steps.uproc hp hb hsvc hm).prepares hsvc)
    have hrem : s.remember (p, inp) mem = Function.update mem b (flashMemory s.vm.flash b) := by
      unfold State.remember
      rw [hsvc]
    rw [hrem]
    cases hm with
    | create =>
        refine ⟨h.backed.create hc hbv hlive fun x hx => ?_, trivial⟩
        rcases hafter x hx with ⟨hx', _⟩ | he
        · exact .inl hx'
        · simp only [Service.create.injEq, and_true] at he
          exact .inr he.symm
  · rw [not_exists] at hcr
    have hsub : ∀ b, b ∈ ((s.move p ⟨parent, .uproc a c'⟩ vm).serve p svc).unswept →
        b ∈ s.unswept ∧ (c = .sys2 .sweep → b ≠ a) := fun b hb' =>
      (hafter b hb').resolve_right (hcr b)
    rw [remember_uproc hsvc hu hcr]
    cases hst : c.storing inp with
    | none =>
        refine hm.backed (h.backed.mono fun b hb' => (hsub b hb').1) hc (h.paged.stage p a c hu)
          (h.loaded p a c hu) (h.paged.hold hp hb) (fun child he => hprep child ?_)
          (fun hi back pt w he hw => hready a hi back pt w (he ▸ hu) hw)
          (fun b hb' => hlive b (hsub b hb').1) (fun he ha => (hsub a ha).2 he rfl) hst
        rw [State.prepares, hp, he]
        rfl
    | some y =>
        obtain ⟨hv, rfl, code, rfl⟩ := next_store hn hst
        exact ⟨(h.backed.store hc hv).mono fun b hb' => (hsub b hb').1, trivial⟩

theorem Flat.step_uproc (h : Flat s vacant busy mem) (hexec : s.exec p inp = some s')
    (hp : s.proc p = some ⟨parent, .uproc a c⟩) (hprep : ∀ a, s.prepares p = some a → a ∈ vacant)
    (hready : ∀ a hi back pt w, s.uproc p = some (a, .pager hi back pt) → inp = .status w → w = 1) :
    (∀ q b d, s'.uproc q = some (b, d) → Loaded s'.vm b d) ∧
      Backed (s.remember (p, inp) mem) s'.vm (s'.busyAfter p busy) s'.unswept := by
  have hlt := h.paged.orderly.bound _ _ hp
  have hs := State.steps_of_exec hexec
  obtain ⟨hb, c', vm, svc, hn, hsvc, rfl⟩ := State.exec_uproc hexec hp
  obtain ⟨hbacked, hld⟩ := h.uproc hp hb hn hsvc hprep hready
  constructor
  · intro q b d hq
    rcases uproc_after hlt hq with ⟨_, rfl, rfl, _⟩ | ⟨hne, hq⟩ | ⟨_, _, rfl⟩
    · rw [State.serve_vm]
      exact hld
    · exact h.paged.loaded_other hs (Ne.symm hne) hq (h.loaded q b d hq)
    · trivial
  · rw [busyAfter_uproc (next_moves hn) hlt, State.serve_vm]
    exact hbacked

theorem Flat.step_test {pt pt' : TestPoint} (h : Flat s vacant busy mem)
    (hp : s.proc p = some ⟨parent, .test pt⟩) (hsvc : s.service (p, inp) = svc)
    (hm : TestMoves s.vm pt inp pt' vm svc) (hs : Steps s p inp s')
    (he : s' = (s.move p ⟨parent, .test pt'⟩ vm).serve p svc) :
    (∀ q b d, s'.uproc q = some (b, d) → Loaded s'.vm b d) ∧
      Backed (s.remember (p, inp) mem) s'.vm (s'.busyAfter p busy) s'.unswept := by
  have hlt := h.paged.orderly.bound _ _ hp
  have hquiet : vm = s.vm ∧ ∀ b, svc ≠ .create b true := by
    rcases h.paged.testing p parent pt hp with rfl | rfl <;> cases hm <;> simp
  obtain ⟨rfl, hcr⟩ := hquiet
  have hnone : s.uproc p = none := by
    simp [State.uproc, hp]
  have hafter : ∀ {q b d}, s'.uproc q = some (b, d) → q ≠ p ∧ s.uproc q = some (b, d) := by
    intro q b d hq
    rw [he] at hq
    exact (uproc_after_test hlt hq).resolve_right fun hc => hcr _ hc.1
  have hrem : s.remember (p, inp) mem = mem := by
    unfold State.remember
    rw [hsvc, hnone]
    split
    · exact absurd rfl (hcr _)
    · next hu => exact absurd hu (by simp)
    · rfl
  constructor
  · intro q b d hq
    obtain ⟨hne, hq⟩ := hafter hq
    exact h.paged.loaded_other hs hne.symm hq (h.loaded q b d hq)
  · have hsub : ∀ b, b ∈ s'.unswept → b ∈ s.unswept := by
      rintro b ⟨q, d, hq, hd⟩
      exact ⟨q, d, (hafter hq).2, hd⟩
    rw [hrem, he, busyAfter_test hlt, State.serve_vm, ← he]
    exact h.backed.mono hsub

theorem Flat.step (h : Flat s vacant busy mem) (hexec : s.exec p inp = some s')
    (hprep : ∀ a, s.prepares p = some a → a ∈ vacant)
    (hready : ∀ a hi back pt w, s.uproc p = some (a, .pager hi back pt) → inp = .status w → w = 1) :
    Flat s' (s.vacancy (p, inp) s' vacant) (s'.busyAfter p busy)
      (s.remember (p, inp) mem) := by
  have hs := State.steps_of_exec hexec
  have hpaged := h.paged.step hs hprep fun _ a hi back i w hu hw _ => hready a hi back _ w hu hw
  have hrest : (∀ q b d, s'.uproc q = some (b, d) → Loaded s'.vm b d) ∧
      Backed (s.remember (p, inp) mem) s'.vm (s'.busyAfter p busy) s'.unswept := by
    have hs₁ := hs
    cases hs with
    | test hp _ hsvc hm => exact h.step_test hp hsvc hm hs₁ rfl
    | uproc hp _ _ _ => exact h.step_uproc hexec hp hprep hready
  exact ⟨hpaged, hrest.1, hrest.2⟩

end Step

section Runs
variable {x : (State × Set Asid) × Memory}

theorem flat_reachable (h : flatRuns.Reachable x) :
    ∃ busy, Flat x.1.1 x.1.2 busy x.2 := by
  refine h.invariant (I := fun x => ∃ busy, Flat x.1.1 x.1.2 busy x.2) (fun x hx => ?_)
    fun x e x' _ ih hs => ?_
  · obtain ⟨⟨hinit, hun⟩, hmem⟩ := hx
    rw [hun, hmem]
    exact ⟨.idle, hinit.flat⟩
  · obtain ⟨busy, ih⟩ := ih
    obtain ⟨⟨hready, hprep, hexec, hvac⟩, hmem⟩ := hs
    have hstep := ih.step hexec hprep hready
    rw [hvac, hmem]
    exact ⟨_, hstep⟩

/-- Page tables, TLB, Swap Pool and flash together are one flat private memory for each
U-proc: each load returns what the U-proc last stored there, or what its flash device held. -/
theorem load_flat (h : flatRuns.Reachable x) {p : ℕ} {a : Asid} {code : Code} {va : Word} {b : Byte}
    (hp : x.1.1.uproc p = some (a, .run code)) (hl : x.1.1.vm.load a va = some b) :
    b = x.2 a va := by
  obtain ⟨busy, ht⟩ := flat_reachable h
  exact ht.backed.load ht.paged.coherent ⟨p, _, hp, rfl⟩ hl

/-- A page fault that evicts a page, after the P on `swapSemaphore`. -/
def replaceEvents (p : ℕ) : List Event :=
  [(p, .go), (p, .go), (p, .go), (p, .status 1), (p, .status 1), (p, .go), (p, .go), (p, .go), (p, .go)]

/-- The first U-proc stores to its first page, which is evicted for another one and comes
back in the place of its second page. -/
def reloadEvents : List Event :=
  fillEvents ++ (2, .store 0x80000000 0x2A) :: faultEvents 2 0x80010000 ++ replaceEvents 2 ++
    [(2, .fault 0x80000000 false), (2, .go), (2, .go)] ++ replaceEvents 2

/-- The byte that was stored is back, and so is its neighbour on the flash block. -/
theorem load_flat_reloaded : ∃ x, flatRuns.Reachable x ∧ x.1.1.uproc 2 = some (0, .run .user) ∧
    x.1.1.vm.load 0 0x80000000 = some 0x2A ∧ 0x2A = x.2 0 0x80000000 ∧
    x.1.1.vm.load 0 0x80000001 = some 0x11 ∧ 0x11 = x.2 0 0x80000001 := by
  have hend : ((startState 0 1 fun _ _ _ => 0x11).run successful reloadEvents).any (fun s =>
      s.uproc 2 == some (0, .run .user) && s.vm.load 0 0x80000000 == some 0x2A &&
        s.vm.load 0 0x80000001 == some 0x11) = true := by
    decide +kernel
  obtain ⟨s, hs, hcheck⟩ := (Option.any_eq_true _ _).mp hend
  simp only [Bool.and_eq_true, beq_iff_eq] at hcheck
  obtain ⟨⟨hu, h1⟩, h2⟩ := hcheck
  have hok : ∀ (x : State × Set Asid) e, successful x.1 e = true →
      x.1.prepares e.1 = none ∧ FlashReady x e := by
    intro x e h
    refine ⟨(quiet_iff.mp (Bool.and_eq_true_iff.mp h).1).1, fun a hi back pt w _ hw => ?_⟩
    simp only [successful, hw, Bool.and_eq_true, beq_iff_eq] at h
    exact h.2
  obtain ⟨g, hg⟩ := supportRuns_run hok (startState_reachable (by decide) _) hs
  obtain ⟨mem, hmem⟩ := hg.exists_history
  exact ⟨((s, g), mem), hmem, hu, h1, load_flat hmem hu h1, h2, load_flat hmem hu h2⟩

end Runs
end PandOSsh.SupportLevel
