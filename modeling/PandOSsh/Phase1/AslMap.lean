import PandOSsh.Library.QueueMap
import PandOSsh.Library.Runs
import PandOSsh.Phase1.AslRefine
import PandOSsh.Phase1.Queues

/-!
# The active semaphore list is a map from addresses to queues

The operations of `asl.c` in any sequence after `initASL`, each beside its
counterpart on a finite map from semaphore addresses to non-empty queues. The
link from `p_semAdd` to the queue that holds a PCB makes `outBlocked` look in
the right place; when the PCB is in no queue, a stale `p_semAdd` leads it to a
queue in which it finds nothing.
-/

namespace PandOSsh
open Library ListX

inductive AslOp where
  | insertBlocked (semAdd : Word) (p : Pcb)
  | removeBlocked (semAdd : Word)
  | outBlocked (p : Pcb)
  | headBlocked (semAdd : Word)

/-- What an operation returns: whether the descriptors were exhausted, or a
PCB. -/
inductive AslResult where
  | full (b : Bool)
  | pcb (p : Option Pcb)

/-- `p` is on no list that goes through `p_list`. -/
def OnNoQueue (p : Pcb) (s : Store Pointers) : Prop :=
  ∃ qs, Pointer.queues s = some qs ∧ p ∉ qs.free ++ qs.ready ++ qs.blocked

namespace AslOp

/-- The function of `asl.c`. -/
def run (op : AslOp) (s : Store Pointers) : Option (Store Pointers × AslResult) :=
  match op with
  | insertBlocked k p => (Pointer.insertBlocked k p s).map fun r => (r.1, .full r.2)
  | removeBlocked k => (Pointer.removeBlocked k s).map fun r => (r.1, .pcb r.2)
  | outBlocked p => (Pointer.outBlocked p s).map fun r => (r.1, .pcb r.2)
  | headBlocked k => (Pointer.headBlocked k s).map fun r => (s, .pcb r)

/-- The operation on the map, which has room for `MAXPROC` keys. -/
def apply (op : AslOp) (m : QueueMap Word Pcb) : QueueMap Word Pcb × AslResult :=
  match op with
  | insertBlocked k p =>
      if k ∉ m.active ∧ m.active.card = maxProc then (m, .full true)
      else (m.enqueue k p, .full false)
  | removeBlocked k => (m.dequeue k, .pcb (m.queue k).head?)
  | outBlocked p =>
      (m.erase p, .pcb (if ∃ k ∈ m.active, p ∈ m.queue k then some p else none))
  | headBlocked k => (m, .pcb (m.queue k).head?)

def Allowed (op : AslOp) (s : Store Pointers) : Prop :=
  match op with
  | insertBlocked k p => k ≠ null ∧ OnNoQueue p s
  | _ => True

end AslOp

/-- The runs of the active semaphore list, whatever lists of PCBs there are when
`initASL` is called. -/
def aslSystem : System (Store Pointers) AslOp where
  init s := ∃ (s₀ : Store Pointers) (v : Lists), s₀.lists.links.Rings v.pcbRings ∧
    s = Pointer.initAsl s₀
  step s op s' := op.Allowed s ∧ ∃ r, op.run s = some (s', r)

/-- A run beside the same operations on a map. -/
def aslRuns : System (Store Pointers × QueueMap Word Pcb) AslOp :=
  aslSystem.withHistory (fun _ => ∅) fun _ op _ m => (op.apply m).1

/-- The active semaphore list is the map. -/
structure RefinesMap (s : Store Pointers) (m : QueueMap Word Pcb) : Prop where
  result : ∀ op : AslOp, op.Allowed s → ∃ s', op.run s = some (s', (op.apply m).2)
  unchanged : ∀ (op : AslOp) s', op.Allowed s → op.run s = some (s', .pcb none) → s' = s
  full : ∀ k p s', Pointer.insertBlocked k p s = some (s', true) ↔
    s' = s ∧ k ∉ m.active ∧ m.active.card = maxProc
  descriptors : ∃ active free, Pointer.members .semdH Link.ofSLink s = some active ∧
    Pointer.members .semdFreeH Link.ofSLink s = some free ∧
    (active ++ free).Perm (List.finRange maxProc) ∧ (active.map s.lists.sKey).Nodup ∧
    (∀ k, k ∈ m.active ↔ k ∈ active.map s.lists.sKey) ∧
    ∀ d ∈ active, ∃ ps, Pointer.members (.sProcq d) Link.ofPList s = some ps ∧ ps ≠ [] ∧
      ps = m.queue (s.lists.sKey d)

/-- The lists hold the queues of the map, and `p_semAdd` of a queued PCB is the
key of its queue. -/
structure HoldsMap (v : Store Lists) (m : QueueMap Word Pcb) : Prop where
  active : v.lists.Active
  nodup : v.lists.blocked.Nodup
  semAdd : ∀ a q, q ∈ v.lists.waiters a → (v.pcb q).pSemAdd = a
  queue : ∀ k, m.queue k = v.lists.waiters k

namespace HoldsMap
variable {v v' : Store Lists} {m : QueueMap Word Pcb} {k : Word} {p : Pcb}

theorem mem_active (h : HoldsMap v m) : k ∈ m.active ↔ k ∈ v.lists.asl.map Desc.key := by
  rw [m.mem_active, h.queue, h.active.mem_keys]

theorem card_active (h : HoldsMap v m) : m.active.card = v.lists.asl.length := by
  have he : m.active = (v.lists.asl.map Desc.key).toFinset := by
    ext k
    rw [List.mem_toFinset, h.mem_active]
  rw [he, List.toFinset_card_of_nodup h.active.keys, List.length_map]

theorem blocked_length (h : HoldsMap v m) (hp : p ∉ v.lists.blocked) :
    v.lists.blocked.length < maxProc := by
  have hl := (List.nodup_cons.mpr ⟨hp, h.nodup⟩).length_le_card
  rw [Fintype.card_fin, List.length_cons] at hl
  omega

/-- While some PCB is on no queue, the map has room. -/
theorem card_lt (h : HoldsMap v m) (hp : p ∉ v.lists.blocked) : m.active.card < maxProc := by
  have hi := List.length_pos_of_ne_nil (h.active.idle_ne_nil (h.blocked_length hp))
  have hd := h.active.descriptors
  rw [h.card_active]
  omega

theorem insertBlocked (h : HoldsMap v m) (hp : p ∉ v.lists.queued) (k : Word) :
    ∃ v', Lists.insertBlocked k p v = some (v', false) ∧ HoldsMap v' (m.enqueue k p) := by
  have hb : p ∉ v.lists.blocked := fun hm => hp (by simp [Lists.queued, hm])
  obtain ⟨w, hw, he⟩ := Lists.Active.insertBlocked_spec h.active hp (h.blocked_length hb) k
  refine ⟨_, hw, he.active, ?_, ?_, ?_⟩
  · exact he.blocked.nodup_iff.mpr (List.nodup_cons.mpr ⟨hb, h.nodup⟩)
  · intro a q hq
    have hq' : q ∈ w.waiters a := hq
    rw [he.waiters] at hq'
    rw [Store.setPcb_pcb]
    by_cases hqp : q = p
    · subst hqp
      rw [if_pos rfl]
      by_cases ha : a = k
      · exact ha.symm
      · rw [if_neg ha] at hq'
        exact absurd (h.active.mem_blocked.mpr ⟨a, hq'⟩) hb
    · rw [if_neg hqp]
      by_cases ha : a = k
      · subst ha
        rw [if_pos rfl, List.mem_append, List.mem_singleton] at hq'
        exact h.semAdd a q (hq'.resolve_right hqp)
      · rw [if_neg ha] at hq'
        exact h.semAdd a q hq'
  · intro a
    rw [QueueMap.queue_enqueue, h.queue, h.queue]
    exact (he.waiters a).symm

/-- A PCB leaves the queue that it is in. -/
theorem dropped (h : HoldsMap v m) {w : Lists} (hd : Lists.Active.Dropped k p v.lists w)
    {m' : QueueMap Word Pcb}
    (hq : ∀ a, m'.queue a = if a = k then (m.queue k).erase p else m.queue a) :
    HoldsMap (Lists.setLists v w) m' := by
  refine ⟨hd.active, ?_, ?_, ?_⟩
  · exact (List.nodup_cons.mp (hd.blocked.nodup_iff.mp h.nodup)).2
  · intro a q hq'
    have hw : q ∈ w.waiters a := hq'
    rw [hd.waiters] at hw
    refine h.semAdd a q ?_
    split at hw
    · next ha => exact ha ▸ List.mem_of_mem_erase hw
    · exact hw
  · intro a
    rw [hq, h.queue, h.queue]
    exact (hd.waiters a).symm

theorem removeBlocked (h : HoldsMap v m) (k : Word) : ∃ v', Lists.removeBlocked k v =
    some (v', (m.queue k).head?) ∧ HoldsMap v' (m.dequeue k) := by
  cases hq : m.queue k with
  | nil =>
      refine ⟨v, Lists.Active.removeBlocked_none h.active ((h.queue k).symm.trans hq),
        h.active, h.nodup, h.semAdd, fun a => ?_⟩
      rw [QueueMap.queue_dequeue, ← h.queue]
      split
      · next ha => rw [ha, hq, List.tail_nil]
      · rfl
  | cons p ps =>
      obtain ⟨w, hw, hd⟩ := Lists.Active.removeBlocked_spec h.active
        ((h.queue k).symm.trans hq)
      refine ⟨_, hw, h.dropped hd fun a => ?_⟩
      rw [QueueMap.queue_dequeue, hq, List.erase_cons_head, List.tail_cons]

/-- Elsewhere than in the queue of its `p_semAdd` a PCB is not found. -/
theorem not_mem_queue (h : HoldsMap v m) (hk : k ≠ (v.pcb p).pSemAdd) : p ∉ m.queue k := by
  intro hp
  rw [h.queue] at hp
  exact hk (h.semAdd k p hp).symm

theorem outBlocked (h : HoldsMap v m) (p : Pcb) : ∃ v', Lists.outBlocked p v =
    some (v', if ∃ k ∈ m.active, p ∈ m.queue k then some p else none) ∧
      HoldsMap v' (m.erase p) := by
  by_cases hp : p ∈ v.lists.waiters (v.pcb p).pSemAdd
  · obtain ⟨w, hw, hd⟩ := Lists.Active.outBlocked_spec h.active hp
    have hex : ∃ k ∈ m.active, p ∈ m.queue k := by
      rw [← h.queue] at hp
      exact ⟨_, (m.mem_active _).mpr (List.ne_nil_of_mem hp), hp⟩
    rw [if_pos hex]
    refine ⟨_, hw, h.dropped hd fun a => ?_⟩
    by_cases ha : a = (v.pcb p).pSemAdd
    · rw [if_pos ha, QueueMap.queue_erase, ha]
    · rw [if_neg ha, QueueMap.queue_erase, List.erase_of_not_mem (h.not_mem_queue ha)]
  · have hnone : ∀ k, p ∉ m.queue k := by
      intro k hk
      rw [h.queue] at hk
      have hs := h.semAdd k p hk
      rw [hs] at hp
      exact hp hk
    have hex : ¬ ∃ k ∈ m.active, p ∈ m.queue k := fun ⟨k, _, hk⟩ => hnone k hk
    rw [if_neg hex]
    refine ⟨v, Lists.Active.outBlocked_none h.active hp, h.active, h.nodup, h.semAdd, fun a => ?_⟩
    rw [QueueMap.queue_erase, List.erase_of_not_mem (hnone a), h.queue]

end HoldsMap

section Pointers
variable {s : Store Pointers} {v : Store Lists} {m : QueueMap Word Pcb} {k : Word} {p : Pcb}

theorem find_key_none_iff : v.lists.asl.find? (fun d => d.key = k) = none ↔
    k ∉ v.lists.asl.map Desc.key := by
  simp only [List.find?_eq_none, decide_eq_true_eq, List.mem_map, not_exists, not_and]

/-- No descriptor is left exactly when all of them are active; `p` does not
matter then. -/
theorem insertBlocked_full (hr : StoreRel s v) (hm : HoldsMap v m) (k : Word) (p : Pcb)
    (s' : Store Pointers) : Pointer.insertBlocked k p s = some (s', true) ↔
      s' = s ∧ k ∉ m.active ∧ m.active.card = maxProc := by
  have hn := listNext_eq (a := .semdFreeH) hr.lists.rings rfl
  have hd := hm.active.descriptors
  rw [hm.mem_active, hm.card_active, Pointer.insertBlocked, hr.findKey, Option.bind_some]
  cases hf : v.lists.asl.find? (fun d => d.key = k) with
  | some d =>
      have hk : k ∈ v.lists.asl.map Desc.key := by
        by_contra hk
        rw [find_key_none_iff.mpr hk] at hf
        cases hf
      simp [hk]
  | none =>
      have hk := find_key_none_iff.mp hf
      cases hi : v.lists.idle with
      | nil =>
          rw [hi, List.length_nil] at hd
          rw [hi] at hn
          simp only [Option.map_none, hn]
          change some (s, true) = some (s', true) ↔ _
          rw [Option.some.injEq, Prod.mk.injEq]
          constructor
          · rintro ⟨rfl, -⟩
            exact ⟨rfl, hk, by omega⟩
          · rintro ⟨rfl, -⟩
            exact ⟨rfl, rfl⟩
      | cons e idle =>
          rw [hi, List.length_cons] at hd
          rw [hi] at hn
          have hlt : v.lists.asl.length ≠ maxProc := by omega
          simp [hn, hlt, Link.ofSLink]

theorem headBlocked_eq (hr : StoreRel s v) (hm : HoldsMap v m) (k : Word) :
    Pointer.headBlocked k s = some (m.queue k).head? := by
  rw [Pointer.headBlocked, hr.findKey, Option.bind_some, hm.queue]
  by_cases hw : v.lists.waiters k = []
  · rw [hm.active.find_key_none hw, hw]
    rfl
  · obtain ⟨d, hd, hf, -, hq⟩ := hm.active.find_key hw
    have hn := listNext_eq hr.lists.rings (hr.lists.rings_sProcq hd)
    rw [hf, Option.map_some]
    change Pointer.headProcQ (.sProcq d.semd) s = _
    rw [Pointer.headProcQ, hn, ← hq]
    cases d.procq <;> rfl

theorem onNoQueue_iff (hr : StoreRel s v) : OnNoQueue p s ↔ p ∉ v.lists.queued := by
  have hq : v.lists.queues.free ++ v.lists.queues.ready ++ v.lists.queues.blocked =
      v.lists.queued := by
    rw [Lists.queues_blocked]
    rfl
  rw [OnNoQueue, hr.queues, ← hq]
  simp

/-- An operation that finds no PCB changes nothing. -/
theorem run_none {op : AslOp} {s' : Store Pointers} (h : op.run s = some (s', .pcb none)) :
    s' = s := by
  cases op with
  | insertBlocked k p =>
      obtain ⟨r, -, hr⟩ := Option.map_eq_some_iff.mp h
      cases hr
  | removeBlocked k =>
      obtain ⟨⟨s₁, o⟩, hr, he⟩ := Option.map_eq_some_iff.mp h
      cases he
      obtain ⟨found, -, hf⟩ := Option.bind_eq_some_iff.mp hr
      cases found with
      | none =>
          cases hf
          rfl
      | some d =>
          obtain ⟨first, -, hd⟩ := Option.bind_eq_some_iff.mp hf
          obtain ⟨p, -, hp⟩ := Option.map_eq_some_iff.mp hd
          cases hp
  | outBlocked p =>
      obtain ⟨⟨s₁, o⟩, hr, he⟩ := Option.map_eq_some_iff.mp h
      cases he
      obtain ⟨curr, -, hc⟩ := Option.map_eq_some_iff.mp hr
      cases hd : curr.ofSLink with
      | none =>
          rw [hd] at hc
          cases hc
          rfl
      | some d =>
          rw [hd] at hc
          cases hc
  | headBlocked k =>
      obtain ⟨r, -, hr⟩ := Option.map_eq_some_iff.mp h
      cases hr
      rfl

/-- Every allowed operation does on the pointers what it does on the map. -/
theorem run_spec (hr : StoreRel s v) (hm : HoldsMap v m) (op : AslOp) (ha : op.Allowed s) :
    ∃ s' v', op.run s = some (s', (op.apply m).2) ∧ StoreRel s' v' ∧
      HoldsMap v' (op.apply m).1 := by
  cases op with
  | insertBlocked k p =>
      have hp := (onNoQueue_iff hr).mp ha.2
      have hb : p ∉ v.lists.blocked := fun hb => hp (by simp [Lists.queued, hb])
      have hroom : ¬ (k ∉ m.active ∧ m.active.card = maxProc) := fun h =>
        (hm.card_lt hb).ne h.2
      obtain ⟨v', hv', hm'⟩ := hm.insertBlocked hp k
      obtain ⟨⟨s', b⟩, hs', hr', rfl⟩ := hr.insertBlocked k p _ hv'
      rw [AslOp.run, hs', AslOp.apply, if_neg hroom]
      exact ⟨s', v', rfl, hr', hm'⟩
  | removeBlocked k =>
      obtain ⟨v', hv', hm'⟩ := hm.removeBlocked k
      obtain ⟨⟨s', o⟩, hs', hr', rfl⟩ := hr.removeBlocked k _ hv'
      rw [AslOp.run, hs']
      exact ⟨s', v', rfl, hr', hm'⟩
  | outBlocked p =>
      obtain ⟨v', hv', hm'⟩ := hm.outBlocked p
      obtain ⟨⟨s', o⟩, hs', hr', rfl⟩ := hr.outBlocked p _ hv'
      rw [AslOp.run, hs']
      exact ⟨s', v', rfl, hr', hm'⟩
  | headBlocked k =>
      rw [AslOp.run, headBlocked_eq hr hm]
      exact ⟨s, v, rfl, hr, hm⟩

/-- What a walk over the descriptors finds. -/
theorem descriptors (hr : StoreRel s v) (hm : HoldsMap v m) :
    ∃ active free, Pointer.members .semdH Link.ofSLink s = some active ∧
      Pointer.members .semdFreeH Link.ofSLink s = some free ∧
      (active ++ free).Perm (List.finRange maxProc) ∧ (active.map s.lists.sKey).Nodup ∧
      (∀ k, k ∈ m.active ↔ k ∈ active.map s.lists.sKey) ∧
      ∀ d ∈ active, ∃ ps, Pointer.members (.sProcq d) Link.ofPList s = some ps ∧ ps ≠ [] ∧
        ps = m.queue (s.lists.sKey d) := by
  have hkeys : (v.lists.asl.map Desc.semd).map s.lists.sKey = v.lists.asl.map Desc.key := by
    rw [List.map_map]
    exact List.map_congr_left fun d hd => hr.lists.keys d hd
  refine ⟨_, _, hr.semds, hr.members_nodup (a := .semdFreeH) rfl (fun _ => rfl),
    hm.active.semds_perm, ?_, ?_, ?_⟩
  · rw [hkeys]
    exact hm.active.keys
  · intro k
    rw [hkeys]
    exact hm.mem_active
  · intro d hd
    obtain ⟨e, he, rfl⟩ := List.mem_map.mp hd
    refine ⟨e.procq, hr.procq he, hm.active.nonempty e he, ?_⟩
    rw [hr.lists.keys e he, hm.queue, hm.active.waiters_mem he]

end Pointers

section Runs

theorem init_holds {s : Store Pointers} (h : aslSystem.init s) :
    ∃ v, StoreRel s v ∧ HoldsMap v ∅ := by
  obtain ⟨s₀, w, hw, rfl⟩ := h
  let v : Lists := { w with asl := [], idle := (List.finRange maxProc).reverse }
  refine ⟨⟨s₀.toPcbData, v⟩, ⟨rfl, represents_initAsl hw⟩, ?_, ?_, ?_, ?_⟩
  · refine ⟨List.nodup_nil, ?_, fun d hd => absurd hd List.not_mem_nil, ?_⟩
    · exact List.nodup_reverse.mpr (List.nodup_finRange maxProc)
    · simp [v]
  · exact List.nodup_nil
  · intro a q hq
    exact absurd hq List.not_mem_nil
  · intro k
    rfl

/-- In every run the pointers hold the map. -/
theorem holds_of_reachable {x : Store Pointers × QueueMap Word Pcb} (h : aslRuns.Reachable x) :
    ∃ v, StoreRel x.1 v ∧ HoldsMap v x.2 := by
  induction h with
  | init hi =>
      rw [hi.2]
      exact init_holds hi.1
  | step _ hs ih =>
      obtain ⟨v, hr, hm⟩ := ih
      obtain ⟨⟨ha, r, hrun⟩, hrec⟩ := hs
      obtain ⟨s', v', hrun', hr', hm'⟩ := run_spec hr hm _ ha
      rw [hrun, Option.some.injEq, Prod.mk.injEq] at hrun'
      rw [hrec, hrun'.1]
      exact ⟨v', hr', hm'⟩

theorem asl_refines_map {s : Store Pointers} {m : QueueMap Word Pcb}
    (h : aslRuns.Reachable (s, m)) : RefinesMap s m := by
  obtain ⟨v, hr, hm⟩ := holds_of_reachable h
  refine ⟨fun op ha => ?_, fun op s' _ hn => run_none hn, insertBlocked_full hr hm,
    descriptors hr hm⟩
  obtain ⟨s', v', hrun, -⟩ := run_spec hr hm op ha
  exact ⟨s', hrun⟩

end Runs

section Concrete

theorem looseStore_rings : looseStore.lists.links.Rings
    (⟨[], [], [], [], fun _ => []⟩ : Lists).pcbRings := by
  have hnil : ∀ {a xs}, (⟨[], [], [], [], fun _ => []⟩ : Lists).pcbRings a = some xs → xs = [] := by
    intro a xs h
    cases a <;> simp [Lists.pcbRings, Lists.rings] at h <;> exact h
  constructor
  · intro a xs h
    rw [hnil h]
    exact ⟨by simp [Links.Adj, looseStore], by simp⟩
  · intro a b xs ys ha hb hne
    rw [hnil ha, hnil hb]
    intro x hx hx'
    simp only [List.mem_singleton] at hx hx'
    exact hne (hx.symm.trans hx')

/-- `Allowed`, computed. -/
def AslOp.allowed (op : AslOp) (s : Store Pointers) : Bool :=
  match op with
  | insertBlocked k p => k ≠ null &&
      (Pointer.queues s).any fun qs => p ∉ qs.free ++ qs.ready ++ qs.blocked
  | _ => true

theorem AslOp.allowed_sound {op : AslOp} {s : Store Pointers} (h : op.allowed s) :
    op.Allowed s := by
  cases op with
  | insertBlocked k p =>
      obtain ⟨hk, hq⟩ := Bool.and_eq_true_iff.mp h
      obtain ⟨qs, hqs, hp⟩ := (Option.any_eq_true _ _).mp hq
      exact ⟨of_decide_eq_true hk, qs, hqs, of_decide_eq_true hp⟩
  | removeBlocked k => trivial
  | outBlocked p => trivial
  | headBlocked k => trivial

/-- A run of `ops`, where each is allowed. -/
def aslTrace : List AslOp → Store Pointers × QueueMap Word Pcb →
    Option (Store Pointers × QueueMap Word Pcb)
  | [], x => some x
  | op :: ops, x =>
      if op.allowed x.1 then
        (op.run x.1).bind fun r => aslTrace ops (r.1, (op.apply x.2).1)
      else none

theorem aslTrace_reachable {ops : List AslOp} : ∀ {x y : Store Pointers × QueueMap Word Pcb},
    aslRuns.Reachable x → aslTrace ops x = some y → aslRuns.Reachable y := by
  induction ops with
  | nil =>
      intro x y hx h
      exact Option.some.inj h ▸ hx
  | cons op ops ih =>
      intro x y hx h
      rw [aslTrace] at h
      split at h
      · next ha =>
          obtain ⟨r, hr, hy⟩ := Option.bind_eq_some_iff.mp h
          exact ih (.step hx ⟨⟨AslOp.allowed_sound ha, r.2, hr⟩, rfl⟩) hy
      · cases h

/-- Four PCBs block on three semaphores; the first of one queue is removed, and
the only one of another is taken out, which gives a descriptor back. -/
theorem asl_refines_map_run : ∃ s m, m.queue 0x20002000 = [5] ∧ m.queue 0x20002004 = [] ∧
    m.queue 0x20002008 = [6] ∧ RefinesMap s m := by
  have hrun : (aslTrace [.insertBlocked 0x20002000 3, .insertBlocked 0x20002004 4,
      .insertBlocked 0x20002000 5, .insertBlocked 0x20002008 6, .removeBlocked 0x20002000,
      .outBlocked 4] (Pointer.initAsl looseStore, ∅)).any (fun x =>
        x.2.queue 0x20002000 = [5] ∧ x.2.queue 0x20002004 = [] ∧
          x.2.queue 0x20002008 = [6]) = true := by decide +kernel
  obtain ⟨⟨s, m⟩, hx, hq⟩ := (Option.any_eq_true _ _).mp hrun
  obtain ⟨h₀, h₁, h₂⟩ := of_decide_eq_true hq
  have hinit : aslRuns.Reachable (Pointer.initAsl looseStore, ∅) :=
    .init ⟨⟨looseStore, _, looseStore_rings, rfl⟩, rfl⟩
  exact ⟨s, m, h₀, h₁, h₂, asl_refines_map (aslTrace_reachable hinit hx)⟩

end Concrete
end PandOSsh
