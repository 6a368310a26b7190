import PandOSsh.Library.Runs
import PandOSsh.Phase1.Pcb

/-!
# Recycling of PCBs

`allocPcb` and `freePcb` in any order, with arbitrary writes in between. Only the
free list and `next_pid` carry information from one allocation to the next, and
the writes reach neither.
-/

namespace PandOSsh
open Library ListX

inductive PcbOp where
  | allocPcb
  | freePcb (p : Pcb)
  /-- The owners of the allocated PCBs write to memory. -/
  | write

/-- The memory after some writes: everything may have changed but `next_pid`, the head of
the free list and the `p_list` fields of the PCBs that are not allocated. -/
structure Written (allocated : List Pcb) (s s' : Store Pointers) : Prop where
  nextPid : s'.nextPid = s.nextPid
  head : s'.lists.links.next .pcbFreeH = s.lists.links.next .pcbFreeH ∧
    s'.lists.links.prev .pcbFreeH = s.lists.links.prev .pcbFreeH
  pList : ∀ p, p ∉ allocated →
    s'.lists.links.next (.pList p) = s.lists.links.next (.pList p) ∧
    s'.lists.links.prev (.pList p) = s.lists.links.prev (.pList p)

/-- The memory, and the PCBs allocated so far and not freed since. -/
structure PcbState where
  store : Store Pointers
  allocated : List Pcb

/-- The runs of `allocPcb` and `freePcb` from the static data that `initPcbs` has
initialised. -/
def pcbRuns : System PcbState PcbOp where
  init x := (∃ s₀ : Store Pointers, s₀.nextPid = 1 ∧ x.store = Pointer.initPcbs s₀) ∧
    x.allocated = []
  step x op x' :=
    match op with
    | .allocPcb => ∃ r, Pointer.allocPcb x.store = some (x'.store, r) ∧
        x'.allocated = r.toList ++ x.allocated
    | .freePcb p => p ∈ x.allocated ∧ Pointer.freePcb p x.store = some x'.store ∧
        x'.allocated = x.allocated.erase p
    | .write => Written x.allocated x.store x'.store ∧ x'.allocated = x.allocated

/-- The three lists that a PCB takes part in are empty or left. -/
def SelfLinked (s : Store Pointers) (p : Pcb) : Prop :=
  ∀ a ∈ [Link.pList p, .pChild p, .pSib p],
    s.lists.links.next a = a ∧ s.lists.links.prev a = a

/-- What `allocPcb` does in one run. -/
structure Recycles (x : PcbState) : Prop where
  partition : ∃ free : List Pcb,
    x.store.lists.links.collect .pcbFreeH Link.loopBudget
      (x.store.lists.links.next .pcbFreeH) = some (free.map .pList) ∧
    (x.allocated ++ free).Perm (List.finRange maxProc)
  full : Pointer.allocPcb x.store = some (x.store, none) ↔ x.allocated.length = maxProc
  fresh : x.allocated.length ≠ maxProc →
    ∃ s p, Pointer.allocPcb x.store = some (s, some p) ∧ p ∉ x.allocated

/-- `allocPcb` returns the same in two runs. -/
def SameAlloc (x y : PcbState) : Prop :=
  ∃ s t r, Pointer.allocPcb x.store = some (s, r) ∧ Pointer.allocPcb y.store = some (t, r) ∧
    ∀ p, r = some p → s.pcb p = t.pcb p ∧ SelfLinked s p ∧ SelfLinked t p

/-- The free list, and the PCBs that it shares the table with. -/
structure FreeList (x : PcbState) (free : List Pcb) : Prop where
  ring : x.store.lists.links.Ring .pcbFreeH (free.map .pList)
  perm : (x.allocated ++ free).Perm (List.finRange maxProc)

namespace FreeList
variable {x x' y y' : PcbState} {free : List Pcb} {p : Pcb} {op : PcbOp}

theorem nodup (h : FreeList x free) : (x.allocated ++ free).Nodup :=
  h.perm.nodup_iff.mpr (List.nodup_finRange _)

theorem length (h : FreeList x free) : x.allocated.length + free.length = maxProc := by
  rw [← List.length_append, h.perm.length_eq, List.length_finRange]

theorem initPcbs {s₀ : Store Pointers} :
    FreeList ⟨Pointer.initPcbs s₀, []⟩ (List.finRange maxProc).reverse := by
  constructor
  · let head : Link → Option (List Link) := Function.update (fun _ => none) .pcbFreeH (some [])
    have hnone : s₀.lists.links.Rings fun _ => none :=
      ⟨fun ha => absurd ha (by simp), fun ha => absurd ha (by simp)⟩
    have hfresh : ∀ a, Links.Fresh (fun _ : Link => (none : Option (List Link))) a := by
      intro a b xs hb
      simp at hb
    have hhead := rings_initListHead_new hnone (hfresh .pcbFreeH)
    have hself : head .pcbFreeH = some [] := Function.update_self ..
    have hin : ∀ i ∈ List.finRange maxProc, Links.Fresh head (.pList i) := by
      intro i _
      exact (hfresh _).update (by simp)
    have hdistinct : ((List.finRange maxProc).map Link.pList).Nodup :=
      (List.nodup_finRange _).map fun i j hij => by simpa using hij
    have hall := (rings_foldl_listAdd hhead hself hin hdistinct).ring (Function.update_self ..)
    rw [List.append_nil] at hall
    exact hall
  · exact List.reverse_perm _

/-- A PCB that is free is in the free list. -/
theorem mem (h : FreeList x free) : p ∈ free ↔ p ∉ x.allocated := by
  have hall := h.perm.mem_iff.mpr (List.mem_finRange p)
  rw [List.mem_append] at hall
  constructor
  · intro hf ha
    exact (List.disjoint_of_nodup_append h.nodup) ha hf
  · exact hall.resolve_left

theorem selfLinked_initPcb (s : Store Pointers) (p : Pcb) : SelfLinked (Pointer.initPcb p s) p := by
  intro a ha
  simp only [List.mem_cons, List.not_mem_nil, or_false] at ha
  rcases ha with rfl | rfl | rfl <;>
    simp [Pointer.initPcb, Pointer.setLinks, next_initListHead, prev_initListHead]

theorem allocPcb_nil (h : FreeList x []) :
    Pointer.allocPcb x.store = some (x.store, none) := by
  rw [Pointer.allocPcb, listNext_of_ring h.ring]
  rfl

/-- The first PCB of the free list is taken off it and initialised. -/
theorem allocPcb_cons (h : FreeList x (p :: free)) :
    ∃ s, Pointer.allocPcb x.store = some (s, some p) ∧ FreeList ⟨s, p :: x.allocated⟩ free ∧
      s.pcb p = initialFields x.store.nextPid ∧ s.nextPid = x.store.nextPid + 1 ∧
      SelfLinked s p := by
  let s₁ := Pointer.setLinks x.store (listDel (.pList p) x.store.lists.links)
  refine ⟨Pointer.initPcb p s₁, ?_, ⟨?_, ?_⟩, ?_, rfl, selfLinked_initPcb s₁ p⟩
  · rw [Pointer.allocPcb, listNext_of_ring h.ring]
    rfl
  · have hring : x.store.lists.links.Ring .pcbFreeH ([] ++ .pList p :: free.map .pList) := h.ring
    have hp : p ∉ free := by
      have hn := (List.nodup_append.mp h.nodup).2.1
      exact (List.nodup_cons.mp hn).1
    have h₁ := ring_initListHead (ring_listDel hring) (n := .pList p) (by simpa using hp)
    have h₂ := ring_initListHead h₁ (n := .pChild p) (by simp)
    exact ring_initListHead h₂ (n := .pSib p) (by simp)
  · exact List.perm_middle.symm.trans h.perm
  · exact (Store.setPcb_pcb _ p p _).trans (if_pos rfl)

theorem freePcb (h : FreeList x free) (hp : p ∈ x.allocated) :
    ∃ s, Pointer.freePcb p x.store = some s ∧ FreeList ⟨s, x.allocated.erase p⟩ (p :: free) ∧
      s.nextPid = x.store.nextPid := by
  refine ⟨_, rfl, ⟨?_, ?_⟩, rfl⟩
  · apply ring_listAdd h.ring
    have hf : p ∉ free := fun hf => h.mem.mp hf hp
    simpa using hf
  · have hc := (List.perm_cons_erase hp).append_right free
    exact List.perm_middle.trans (hc.symm.trans h.perm)

/-- The writes do not reach the free list. -/
theorem write {s : Store Pointers} (h : FreeList x free) (hw : Written x.allocated x.store s) :
    FreeList ⟨s, x.allocated⟩ free := by
  constructor
  · apply h.ring.congr
    · intro a ha
      rcases List.mem_cons.mp ha with rfl | ha
      · exact hw.head.1
      · obtain ⟨q, hq, rfl⟩ := List.mem_map.mp ha
        exact (hw.pList q (h.mem.mp hq)).1
    · intro a ha
      rcases List.mem_cons.mp ha with rfl | ha
      · exact hw.head.2
      · obtain ⟨q, hq, rfl⟩ := List.mem_map.mp ha
        exact (hw.pList q (h.mem.mp hq)).2
  · exact h.perm

theorem recycles (h : FreeList x free) : Recycles x := by
  have hlen := h.length
  constructor
  · refine ⟨free, h.ring.collect_eq ?_, h.perm⟩
    have hb : maxProc < Link.loopBudget := by decide
    rw [List.length_map]
    omega
  · cases free with
    | nil => exact iff_of_true h.allocPcb_nil hlen
    | cons p free =>
        obtain ⟨s, hs, -⟩ := h.allocPcb_cons
        rw [hs]
        simp only [List.length_cons] at hlen
        simp only [Option.some.injEq, Prod.mk.injEq, reduceCtorEq, and_false, false_iff]
        omega
  · intro hne
    cases free with
    | nil => exact absurd hlen hne
    | cons p free =>
        obtain ⟨s, hs, -⟩ := h.allocPcb_cons
        exact ⟨s, p, hs, h.mem.mp List.mem_cons_self⟩

end FreeList

/-- The two runs have the same PCBs free, in the same order, and the same PID to give. -/
def Alike (x y : PcbState) : Prop :=
  ∃ free, FreeList x free ∧ FreeList y free ∧ x.allocated = y.allocated ∧
    x.store.nextPid = y.store.nextPid

namespace Alike
variable {x x' y y' : PcbState} {op : PcbOp}

theorem sameAlloc (h : Alike x y) : SameAlloc x y := by
  obtain ⟨free, hx, hy, -, hpid⟩ := h
  cases free with
  | nil => exact ⟨_, _, _, hx.allocPcb_nil, hy.allocPcb_nil, by simp⟩
  | cons p free =>
      obtain ⟨s, hs, -, hsp, -, hsl⟩ := hx.allocPcb_cons
      obtain ⟨t, ht, -, htp, -, htl⟩ := hy.allocPcb_cons
      refine ⟨s, t, _, hs, ht, fun q hq => ?_⟩
      rw [← Option.some.inj hq, hsp, htp, hpid]
      exact ⟨rfl, hsl, htl⟩

theorem init (hx : pcbRuns.init x) (hy : pcbRuns.init y) : Alike x y := by
  obtain ⟨xs, xa⟩ := x
  obtain ⟨ys, ya⟩ := y
  obtain ⟨⟨s₀, hs, rfl⟩, rfl⟩ := hx
  obtain ⟨⟨t₀, ht, rfl⟩, rfl⟩ := hy
  exact ⟨_, FreeList.initPcbs, FreeList.initPcbs, rfl, hs.trans ht.symm⟩

theorem step (h : Alike x y) (hx : pcbRuns.step x op x') (hy : pcbRuns.step y op y') :
    Alike x' y' := by
  obtain ⟨free, hfx, hfy, hal, hpid⟩ := h
  obtain ⟨xs, xa⟩ := x'
  obtain ⟨ys, ya⟩ := y'
  cases op with
  | allocPcb =>
      obtain ⟨r, hr, rfl⟩ := hx
      obtain ⟨q, hq, rfl⟩ := hy
      cases free with
      | nil =>
          rw [hfx.allocPcb_nil, Option.some.injEq, Prod.mk.injEq] at hr
          rw [hfy.allocPcb_nil, Option.some.injEq, Prod.mk.injEq] at hq
          obtain ⟨rfl, rfl⟩ := hr
          obtain ⟨rfl, rfl⟩ := hq
          exact ⟨[], hfx, hfy, hal, hpid⟩
      | cons p free =>
          obtain ⟨s, hs, hfs, -, hsn, -⟩ := hfx.allocPcb_cons
          obtain ⟨t, ht, hft, -, htn, -⟩ := hfy.allocPcb_cons
          rw [hs, Option.some.injEq, Prod.mk.injEq] at hr
          rw [ht, Option.some.injEq, Prod.mk.injEq] at hq
          obtain ⟨rfl, rfl⟩ := hr
          obtain ⟨rfl, rfl⟩ := hq
          refine ⟨free, hfs, hft, ?_, ?_⟩
          · exact congrArg (p :: ·) hal
          · exact hsn.trans ((congrArg (· + 1) hpid).trans htn.symm)
  | freePcb p =>
      obtain ⟨hpx, hr, rfl⟩ := hx
      obtain ⟨hpy, hq, rfl⟩ := hy
      obtain ⟨s, hs, hfs, hsn⟩ := hfx.freePcb hpx
      obtain ⟨t, ht, hft, htn⟩ := hfy.freePcb hpy
      obtain rfl : s = xs := Option.some.inj (hs.symm.trans hr)
      obtain rfl : t = ys := Option.some.inj (ht.symm.trans hq)
      exact ⟨p :: free, hfs, hft, congrArg (List.erase · p) hal, hsn.trans (hpid.trans htn.symm)⟩
  | write =>
      obtain ⟨hwx, rfl⟩ := hx
      obtain ⟨hwy, rfl⟩ := hy
      exact ⟨free, hfx.write hwx, hfy.write hwy, hal,
        hwx.nextPid.trans (hpid.trans hwy.nextPid.symm)⟩

theorem of_reachable {z : PcbState × PcbState} (h : (pcbRuns.lockstep pcbRuns).Reachable z) :
    Alike z.1 z.2 :=
  h.invariant (I := fun z => Alike z.1 z.2) (fun _ hz => init hz.1 hz.2)
    fun _ _ _ _ ih hs => ih.step hs.1 hs.2

end Alike

/-- In two runs with the same operations and different writes `allocPcb` returns the same
PCBs with the same contents, and in each of them nothing is lost. -/
theorem pcb_recycling {x y : PcbState} (h : (pcbRuns.lockstep pcbRuns).Reachable (x, y)) :
    Recycles x ∧ Recycles y ∧ SameAlloc x y := by
  have hxy : Alike x y := Alike.of_reachable h
  have ⟨free, hx, hy, _⟩ := hxy
  exact ⟨hx.recycles, hy.recycles, hxy.sameAlloc⟩

/-- One run raises the priority of the PCB that both have allocated. -/
theorem pcb_recycling_written : ∃ (x y : PcbState) (p : Pcb),
    (x.store.pcb p).pPrio = 0 ∧ (y.store.pcb p).pPrio = 7 ∧
      Recycles x ∧ Recycles y ∧ SameAlloc x y := by
  let s₀ := Pointer.initPcbs { looseStore with nextPid := 1 }
  have h₀ : (pcbRuns.lockstep pcbRuns).Reachable (⟨s₀, []⟩, ⟨s₀, []⟩) :=
    .init ⟨⟨⟨_, rfl, rfl⟩, rfl⟩, ⟨_, rfl, rfl⟩, rfl⟩
  obtain ⟨s, p, hs, -⟩ := (pcb_recycling h₀).1.fresh (by decide)
  have h₁ : (pcbRuns.lockstep pcbRuns).Reachable (⟨s, [p]⟩, ⟨s, [p]⟩) :=
    .step (e := .allocPcb) h₀ ⟨⟨some p, hs, rfl⟩, some p, hs, rfl⟩
  have h₂ : (pcbRuns.lockstep pcbRuns).Reachable
      (⟨s.setPcb p (initialFields 0), [p]⟩,
        ⟨s.setPcb p { initialFields 0 with pPrio := 7 }, [p]⟩) := by
    apply System.Reachable.step (e := .write) h₁
    constructor
    · exact ⟨⟨rfl, ⟨rfl, rfl⟩, fun _ _ => ⟨rfl, rfl⟩⟩, rfl⟩
    · exact ⟨⟨rfl, ⟨rfl, rfl⟩, fun _ _ => ⟨rfl, rfl⟩⟩, rfl⟩
  refine ⟨_, _, p, ?_, ?_, pcb_recycling h₂⟩
  · rw [Store.setPcb_pcb, if_pos rfl]
    rfl
  · rw [Store.setPcb_pcb, if_pos rfl]

end PandOSsh
