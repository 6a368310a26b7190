import PandOSsh.Phase1.Lists

/-!
# The active semaphores as queues by key

`waiters` reads the descriptors as one FIFO queue for each semaphore address.
`Active` is what keeps that reading sound: no key and no descriptor twice, no
empty queue, no descriptor lost. The functions of `asl.c` append to one queue,
take the head of one queue or erase from one queue, and touch no other.
-/

namespace PandOSsh.Lists

structure Active (v : Lists) : Prop where
  keys : (v.asl.map Desc.key).Nodup
  semds : (v.asl.map Desc.semd ++ v.idle).Nodup
  nonempty : ∀ d ∈ v.asl, d.procq ≠ []
  descriptors : v.asl.length + v.idle.length = maxProc

/-- The queue of a key in a list of descriptors. -/
def waitersIn (asl : List Desc) (key : Word) : List Pcb :=
  ((asl.find? fun d => d.key = key).map Desc.procq).getD []

theorem waiters_def (v : Lists) (key : Word) : v.waiters key = waitersIn v.asl key := rfl

section Descriptors
variable {l₁ l₂ : List Desc} {d : Desc} {a : Word}

theorem waitersIn_of_not_mem {asl : List Desc} (h : a ∉ asl.map Desc.key) :
    waitersIn asl a = [] := by
  have hf : asl.find? (fun d => d.key = a) = none := by
    rw [List.find?_eq_none]
    intro d hd hda
    exact h (of_decide_eq_true hda ▸ List.mem_map_of_mem hd)
  rw [waitersIn, hf]
  rfl

theorem waitersIn_middle (h : ((l₁ ++ d :: l₂).map Desc.key).Nodup) :
    waitersIn (l₁ ++ d :: l₂) a = if a = d.key then d.procq else waitersIn (l₁ ++ l₂) a := by
  rw [List.map_append, List.map_cons, List.nodup_middle, List.nodup_cons] at h
  by_cases ha : a = d.key
  · subst ha
    have h₁ : l₁.find? (fun e => e.key = d.key) = none := by
      rw [List.find?_eq_none]
      intro e he hed
      refine h.1 (List.mem_append_left _ ?_)
      exact of_decide_eq_true hed ▸ List.mem_map_of_mem he
    simp [waitersIn, List.find?_append, h₁]
  · have ha' : d.key ≠ a := fun he => ha he.symm
    simp [waitersIn, List.find?_append, ha, ha']

end Descriptors

namespace Active
variable {v : Lists} {d : Desc} {a key : Word} {p : Pcb} {q : List Pcb}

theorem congr {v' : Lists} (h : v.Active) (ha : v'.asl = v.asl) (hi : v'.idle = v.idle) :
    v'.Active :=
  ⟨by rw [ha]; exact h.keys, by rw [ha, hi]; exact h.semds, by rw [ha]; exact h.nonempty,
    by rw [ha, hi]; exact h.descriptors⟩

theorem semds_asl (h : v.Active) : (v.asl.map Desc.semd).Nodup :=
  (List.nodup_append.mp h.semds).1

theorem waiters_mem (h : v.Active) (hd : d ∈ v.asl) : v.waiters d.key = d.procq := by
  obtain ⟨l₁, l₂, hs⟩ := List.append_of_mem hd
  have hk := h.keys
  rw [hs] at hk
  rw [waiters_def, hs, waitersIn_middle hk, if_pos rfl]

theorem find_key (h : v.Active) (hw : v.waiters key ≠ []) :
    ∃ d ∈ v.asl, v.asl.find? (fun e => e.key = key) = some d ∧ d.key = key ∧
      d.procq = v.waiters key := by
  cases hf : v.asl.find? (fun e => e.key = key) with
  | none => exact absurd (by rw [waiters_def, waitersIn, hf]; rfl) hw
  | some d =>
      have hd := List.mem_of_find?_eq_some hf
      have hk : d.key = key := by simpa using List.find?_some hf
      exact ⟨d, hd, rfl, hk, by rw [← hk, h.waiters_mem hd]⟩

/-- A key has a descriptor exactly while somebody waits on it. -/
theorem mem_keys (h : v.Active) : key ∈ v.asl.map Desc.key ↔ v.waiters key ≠ [] := by
  constructor
  · intro hk
    obtain ⟨d, hd, rfl⟩ := List.mem_map.mp hk
    rw [h.waiters_mem hd]
    exact h.nonempty d hd
  · intro hw
    obtain ⟨d, hd, -, hk, -⟩ := h.find_key hw
    exact hk ▸ List.mem_map_of_mem hd

/-- Each descriptor is either active or idle. -/
theorem semds_perm (h : v.Active) :
    (v.asl.map Desc.semd ++ v.idle).Perm (List.finRange maxProc) := by
  have hlen : (v.asl.map Desc.semd ++ v.idle).length = maxProc := by
    rw [List.length_append, List.length_map]
    exact h.descriptors
  apply (List.subperm_of_subset h.semds fun d _ => List.mem_finRange d).perm_of_length_le
  rw [hlen, List.length_finRange]

theorem find_key_none (h : v.Active) (hw : v.waiters key = []) :
    v.asl.find? (fun e => e.key = key) = none := by
  cases hf : v.asl.find? (fun e => e.key = key) with
  | none => rfl
  | some d =>
      have hd := List.mem_of_find?_eq_some hf
      have hk : d.key = key := by simpa using List.find?_some hf
      exact absurd (by rw [← h.waiters_mem hd, hk, hw]) (h.nonempty d hd)

theorem mem_blocked (h : v.Active) : p ∈ v.blocked ↔ ∃ a, p ∈ v.waiters a := by
  rw [blocked, List.mem_flatMap]
  constructor
  · rintro ⟨d, hd, hp⟩
    exact ⟨d.key, by rwa [h.waiters_mem hd]⟩
  · rintro ⟨a, ha⟩
    obtain ⟨d, hd, -, -, hq⟩ := h.find_key (List.ne_nil_of_mem ha)
    exact ⟨d, hd, by rwa [hq]⟩

/-- While some PCB is not blocked there is a descriptor to spare. -/
theorem idle_ne_nil (h : v.Active) (hb : v.blocked.length < maxProc) : v.idle ≠ [] := by
  have hl : v.asl.length ≤ v.blocked.length := by
    rw [blocked, List.length_flatMap]
    have hne := h.nonempty
    generalize v.asl = asl at hne
    induction asl with
    | nil => simp
    | cons d asl ih =>
        have hd := List.length_pos_of_ne_nil (hne d (by simp))
        have hrec := ih fun e he => hne e (List.mem_cons_of_mem _ he)
        simp only [List.length_cons, List.map_cons, List.sum_cons]
        omega
  intro hnil
  have hd := h.descriptors
  rw [hnil, List.length_nil] at hd
  omega

section Requeue

theorem setProcq_split {l₁ l₂ : List Desc} (h : ((l₁ ++ d :: l₂).map Desc.semd).Nodup) :
    setProcq d.semd q (l₁ ++ d :: l₂) = l₁ ++ { d with procq := q } :: l₂ := by
  rw [List.map_append, List.map_cons, List.nodup_middle, List.nodup_cons] at h
  have hne : ∀ e ∈ l₁ ++ l₂, e.semd ≠ d.semd := fun e he hed =>
    h.1 (hed ▸ by simpa using List.mem_map_of_mem (f := Desc.semd) he)
  have hid : ∀ l : List Desc, (∀ e ∈ l, e.semd ≠ d.semd) →
      (l.map fun e => if e.semd = d.semd then { e with procq := q } else e) = l := by
    intro l hl
    exact (List.map_congr_left fun e he => if_neg (hl e he)).trans (List.map_id _)
  rw [setProcq, List.map_append, List.map_cons, hid l₁ fun e he => hne e (by simp [he]),
    hid l₂ fun e he => hne e (by simp [he]), if_pos rfl]

theorem filter_split {l₁ l₂ : List Desc} (h : ((l₁ ++ d :: l₂).map Desc.semd).Nodup) :
    (l₁ ++ d :: l₂).filter (fun e => e.semd ≠ d.semd) = l₁ ++ l₂ := by
  rw [List.map_append, List.map_cons, List.nodup_middle, List.nodup_cons] at h
  have hne : ∀ e ∈ l₁ ++ l₂, e.semd ≠ d.semd := fun e he hed =>
    h.1 (hed ▸ by simpa using List.mem_map_of_mem (f := Desc.semd) he)
  rw [List.filter_append, List.filter_cons_of_neg (by simp), ← List.filter_append]
  exact List.filter_eq_self.mpr (by simpa using hne)

/-- What `requeue` does to the queues: the one of `d` becomes `q`. -/
structure Requeued (d : Desc) (q : List Pcb) (v v' : Lists) : Prop where
  active : v'.Active
  frame : v' = { v with asl := v'.asl, idle := v'.idle }
  waiters : ∀ a, v'.waiters a = if a = d.key then q else v.waiters a
  blocked : (d.procq ++ v'.blocked).Perm (q ++ v.blocked)

theorem requeue (h : v.Active) (hd : d ∈ v.asl) (q : List Pcb) :
    Requeued d q v (requeue d.semd q v) := by
  obtain ⟨l₁, l₂, hs⟩ := List.append_of_mem hd
  have hk := h.keys
  have hm := h.semds_asl
  have hsemds := h.semds
  have hlen := h.descriptors
  rw [hs] at hk hm hsemds hlen
  have hperm : ∀ x y z : List Pcb, (x ++ (y ++ z)).Perm (y ++ (x ++ z)) := fun x y z => by
    rw [← List.append_assoc, ← List.append_assoc]
    exact List.perm_append_comm.append_right z
  unfold Lists.requeue
  by_cases hq : q = []
  · subst hq
    rw [if_pos rfl]
    have hf : v.asl.filter (fun e => e.semd ≠ d.semd) = l₁ ++ l₂ := by
      rw [hs, filter_split hm]
    rw [hf]
    refine ⟨⟨?_, ?_, ?_, ?_⟩, rfl, ?_, ?_⟩
    · rw [List.map_append, List.map_cons, List.nodup_middle, List.nodup_cons] at hk
      simpa using hk.2
    · simp only [List.map_append, List.map_cons, List.append_assoc, List.cons_append] at hsemds ⊢
      rw [← List.append_assoc, List.nodup_middle]
      rw [List.nodup_middle] at hsemds
      simpa using hsemds
    · intro e he
      refine h.nonempty e ?_
      rw [hs]
      simp only [List.mem_append, List.mem_cons] at he ⊢
      tauto
    · simp only [List.length_append, List.length_cons] at hlen ⊢
      omega
    · intro a
      rw [waiters_def, waiters_def, hs, waitersIn_middle hk]
      by_cases ha : a = d.key
      · rw [if_pos ha]
        refine waitersIn_of_not_mem ?_
        rw [List.map_append, List.map_cons, List.nodup_middle, List.nodup_cons] at hk
        rw [ha, List.map_append]
        exact hk.1
      · rw [if_neg ha, if_neg ha]
    · simp only [Lists.blocked, hs, List.flatMap_append, List.flatMap_cons, List.nil_append]
      exact hperm _ _ _
  · rw [if_neg hq, hs, setProcq_split hm]
    have hk' : ((l₁ ++ { d with procq := q } :: l₂).map Desc.key).Nodup := by simpa using hk
    refine ⟨⟨hk', ?_, ?_, ?_⟩, rfl, ?_, ?_⟩
    · simpa using hsemds
    · intro e he
      simp only [List.mem_append, List.mem_cons] at he
      rcases he with he | rfl | he
      · exact h.nonempty e (by rw [hs]; simp [he])
      · exact hq
      · exact h.nonempty e (by rw [hs]; simp [he])
    · simpa using hlen
    · intro a
      rw [waiters_def, waiters_def, hs, waitersIn_middle hk, waitersIn_middle hk']
      by_cases ha : a = d.key <;> simp [ha]
    · simp only [Lists.blocked, hs, List.flatMap_append, List.flatMap_cons]
      refine (hperm _ _ _).trans ?_
      refine List.Perm.trans ?_ (hperm _ _ _)
      exact (hperm _ _ _).append_left _

end Requeue

/-- `p` has joined the queue of `key` at its tail. -/
structure Enqueued (key : Word) (p : Pcb) (v v' : Lists) : Prop where
  active : v'.Active
  frame : v' = { v with asl := v'.asl, idle := v'.idle }
  waiters : ∀ a, v'.waiters a = if a = key then v.waiters key ++ [p] else v.waiters a
  blocked : v'.blocked.Perm (p :: v.blocked)

/-- `p` has left the queue of `key`. -/
structure Dropped (key : Word) (p : Pcb) (v v' : Lists) : Prop where
  active : v'.Active
  frame : v' = { v with asl := v'.asl, idle := v'.idle }
  waiters : ∀ a, v'.waiters a = if a = key then (v.waiters key).erase p else v.waiters a
  blocked : v.blocked.Perm (p :: v'.blocked)

section Frame
variable {v' : Lists}

theorem Enqueued.free (h : Enqueued key p v v') : v'.free = v.free := by rw [h.frame]
theorem Enqueued.ready (h : Enqueued key p v v') : v'.ready = v.ready := by rw [h.frame]
theorem Enqueued.child (h : Enqueued key p v v') : v'.child = v.child := by rw [h.frame]
theorem Dropped.free (h : Dropped key p v v') : v'.free = v.free := by rw [h.frame]
theorem Dropped.ready (h : Dropped key p v v') : v'.ready = v.ready := by rw [h.frame]
theorem Dropped.child (h : Dropped key p v v') : v'.child = v.child := by rw [h.frame]

end Frame

/-- A queue that loses one of its members. -/
theorem requeue_erase (h : v.Active) (hd : d ∈ v.asl) (hp : p ∈ d.procq) :
    Dropped d.key p v (Lists.requeue d.semd (d.procq.erase p) v) := by
  have hr := h.requeue hd (d.procq.erase p)
  refine ⟨hr.active, hr.frame, ?_, ?_⟩
  · intro a
    rw [hr.waiters, h.waiters_mem hd]
  · have hb := hr.blocked
    have hp' := (List.perm_cons_erase hp).append_right
      (Lists.requeue d.semd (d.procq.erase p) v).blocked
    have hc := hp'.symm.trans hb
    rw [List.cons_append] at hc
    refine ((List.perm_append_left_iff (d.procq.erase p)).mp ?_).symm
    exact List.perm_middle.trans hc

section Operations
variable {s : Store Lists}

theorem insertBlocked_spec (h : s.lists.Active) (hp : p ∉ s.lists.queued)
    (hb : s.lists.blocked.length < maxProc) (key : Word) :
    ∃ v', insertBlocked key p s =
        some ((setLists s v').setPcb p { s.pcb p with pSemAdd := key }, false) ∧
      Enqueued key p s.lists v' := by
  rw [insertBlocked, if_pos hp]
  by_cases hw : s.lists.waiters key = []
  · rw [h.find_key_none hw]
    obtain ⟨e, idle, hi⟩ := List.exists_cons_of_ne_nil (h.idle_ne_nil hb)
    have hkeys : key ∉ s.lists.asl.map Desc.key := by
      intro hm
      obtain ⟨d, hd, hdk⟩ := List.mem_map.mp hm
      exact h.nonempty d hd (by rw [← h.waiters_mem hd, hdk, hw])
    have hnew : ((s.lists.asl ++ [(⟨e, key, [p]⟩ : Desc)]).map Desc.key).Nodup := by
      rw [List.map_append, List.map_singleton, List.nodup_append]
      refine ⟨h.keys, by simp, ?_⟩
      rintro x hx y hy rfl
      rw [List.mem_singleton.mp hy] at hx
      exact hkeys hx
    simp only [hi]
    refine ⟨_, rfl, ⟨hnew, ?_, ?_, ?_⟩, rfl, ?_, ?_⟩
    · have hsemds := h.semds
      rw [hi] at hsemds
      simpa using hsemds
    · intro d hd
      rcases List.mem_append.mp hd with hd | hd
      · exact h.nonempty d hd
      · rw [List.mem_singleton.mp hd]
        simp
    · have hl := h.descriptors
      rw [hi, List.length_cons] at hl
      simp only [List.length_append, List.length_singleton]
      omega
    · intro a
      rw [waiters_def, waitersIn_middle hnew, List.append_nil, hw]
      rfl
    · simp only [blocked, List.flatMap_append, List.flatMap_singleton]
      exact List.perm_append_comm
  · obtain ⟨d, hd, hf, hk, hq⟩ := h.find_key hw
    have hr := h.requeue hd (d.procq ++ [p])
    have hne : d.procq ++ [p] ≠ [] := by simp
    rw [Lists.requeue, if_neg hne] at hr
    simp only [hf]
    refine ⟨_, rfl, hr.active, hr.frame, ?_, ?_⟩
    · intro a
      rw [hr.waiters, hk, hq]
    · have hb := hr.blocked
      rw [List.append_assoc] at hb
      exact (List.perm_append_left_iff _).mp hb

theorem removeBlocked_none (h : s.lists.Active) {key : Word} (hw : s.lists.waiters key = []) :
    removeBlocked key s = some (s, none) := by
  rw [removeBlocked, h.find_key_none hw]

theorem removeBlocked_spec (h : s.lists.Active) {key : Word} {ps : List Pcb}
    (hw : s.lists.waiters key = p :: ps) :
    ∃ v', removeBlocked key s = some (setLists s v', some p) ∧ Dropped key p s.lists v' := by
  obtain ⟨d, hd, hf, hk, hq⟩ := h.find_key (show s.lists.waiters key ≠ [] by simp [hw])
  rw [hw] at hq
  have hr := h.requeue_erase (p := p) hd (by simp [hq])
  rw [hq, List.erase_cons_head, hk] at hr
  simp only [removeBlocked, hf, hq]
  exact ⟨_, rfl, hr⟩

theorem find_outBlocked (h : s.lists.Active) (hw : p ∈ s.lists.waiters (s.pcb p).pSemAdd) :
    ∃ d ∈ s.lists.asl, s.lists.asl.find? (fun d => d.key = (s.pcb p).pSemAdd ∧ p ∈ d.procq) =
      some d ∧ d.key = (s.pcb p).pSemAdd ∧ p ∈ d.procq := by
  obtain ⟨d, hd, -, hk, hq⟩ := h.find_key (List.ne_nil_of_mem hw)
  have hsome : (s.lists.asl.find?
      (fun d => d.key = (s.pcb p).pSemAdd ∧ p ∈ d.procq)).isSome := by
    rw [List.find?_isSome]
    exact ⟨d, hd, by simp [hk, hq, hw]⟩
  obtain ⟨e, he⟩ := Option.isSome_iff_exists.mp hsome
  have hp := List.find?_some he
  simp only [decide_eq_true_eq] at hp
  exact ⟨e, List.mem_of_find?_eq_some he, he, hp⟩

theorem outBlocked_spec (h : s.lists.Active) (hw : p ∈ s.lists.waiters (s.pcb p).pSemAdd) :
    ∃ v', outBlocked p s = some (setLists s v', some p) ∧
      Dropped (s.pcb p).pSemAdd p s.lists v' := by
  obtain ⟨d, hd, hf, hk, hp⟩ := h.find_outBlocked hw
  have hr := h.requeue_erase hd hp
  rw [hk] at hr
  rw [outBlocked, hf]
  exact ⟨_, rfl, hr⟩

theorem outBlocked_none (h : s.lists.Active) (hw : p ∉ s.lists.waiters (s.pcb p).pSemAdd) :
    outBlocked p s = some (s, none) := by
  have hf : s.lists.asl.find? (fun d => d.key = (s.pcb p).pSemAdd ∧ p ∈ d.procq) = none := by
    rw [List.find?_eq_none]
    intro d hd hp
    simp only [decide_eq_true_eq] at hp
    exact hw (by rw [← hp.1, h.waiters_mem hd]; exact hp.2)
  rw [outBlocked, hf]

end Operations

end Active
end PandOSsh.Lists
