import PandOSsh.Phase1.Refine

/-!
# The active semaphore list implements the lists

The functions of `asl.c` and the boot of phase 1. A retired descriptor stops
being the head of a list, so its `s_procq` is free to be initialised again.
-/

namespace PandOSsh
open Library ListX

namespace Lists
variable {m : Pointers} {v : Lists}

theorem mem_setProcq {d : Semd} {q : List Pcb} {asl : List Desc} {e : Desc}
    (he : e ∈ setProcq d q asl) : ∃ e' ∈ asl, e'.semd = e.semd ∧ e'.key = e.key := by
  simp only [setProcq, List.mem_map] at he
  obtain ⟨e', he', rfl⟩ := he
  refine ⟨e', he', ?_⟩
  split <;> exact ⟨rfl, rfl⟩

namespace Represents

theorem semds_nodup (h : Represents m v) : (v.asl.map Desc.semd).Nodup := by
  have hn := (List.nodup_cons.mp (h.rings.ring (a := .semdH) rfl).nodup).2
  have hm : (v.asl.map fun d => Link.sLink d.semd) = (v.asl.map Desc.semd).map .sLink := by
    rw [List.map_map]
    rfl
  rw [hm] at hn
  exact hn.of_map _

theorem asl_length (h : Represents m v) : v.asl.length < Link.loopBudget := by
  have hl := length_lt_loopBudget (f := .sLink) (l := v.asl.map Desc.semd) (by
    have hn := (List.nodup_cons.mp (h.rings.ring (a := .semdH) rfl).nodup).2
    rwa [List.map_map])
  rwa [List.length_map] at hl

theorem find_semd (h : Represents m v) {d : Desc} (hd : d ∈ v.asl) :
    v.asl.find? (fun e => e.semd = d.semd) = some d := by
  have hn := h.semds_nodup
  generalize v.asl = asl at hd hn
  induction asl with
  | nil => simp at hd
  | cons e asl ih =>
      rw [List.map_cons, List.nodup_cons] at hn
      rcases List.mem_cons.mp hd with rfl | hd
      · simp
      · have hne : e.semd ≠ d.semd := fun he => hn.1 (he ▸ List.mem_map_of_mem hd)
        rw [List.find?_cons_of_neg (by simpa using hne)]
        exact ih hd hn.2

theorem rings_sProcq (h : Represents m v) {d : Desc} (hd : d ∈ v.asl) :
    v.rings (.sProcq d.semd) = some (d.procq.map .pList) := by
  simp [Lists.rings, h.find_semd hd]

/-- A retired descriptor is not active. -/
theorem idle_not_active (h : Represents m v) {d : Semd} (hd : d ∈ v.idle) :
    ∀ e ∈ v.asl, e.semd ≠ d := by
  intro e he hed
  have hd' := h.rings.disjoint (a := .semdFreeH) (b := .semdH) rfl rfl (by simp)
  exact hd' (a := .sLink d) (by simpa using hd)
    (by simpa using ⟨e, he, hed⟩)

end Represents
end Lists

namespace StoreRel
variable {s : Store Pointers} {v : Store Lists}

theorem findKey (h : StoreRel s v) (semAdd : Word) :
    Pointer.findKey semAdd s =
      some ((v.lists.asl.find? fun d => d.key = semAdd).map Desc.semd) := by
  have hring := h.lists.rings.ring (a := .semdH) rfl
  rw [Pointer.findKey, ListX.listForEach, hring.seek_eq
    (f := fun d => decide (d.key = semAdd)) ?_ h.lists.asl_length]
  · cases v.lists.asl.find? _ <;> rfl
  · intro d hd
    simp [Link.ofSLink, h.lists.keys d hd]

/-- A PCB appended to the queue of an active descriptor. -/
theorem appendProcq (h : StoreRel s v) {d : Desc} {p : Pcb} (hd : d ∈ v.lists.asl)
    (hp : p ∉ v.lists.queued) :
    StoreRel (Pointer.setLinks s (listAddTail (.pList p) (.sProcq d.semd) s.lists.links))
      (Lists.setLists v { v.lists with
        asl := Lists.setProcq d.semd (d.procq ++ [p]) v.lists.asl }) := by
  refine h.setLinks ?_ ?_
  · rw [Lists.rings_with_setProcq _ hd, List.map_append]
    exact rings_listAddTail h.lists.rings (h.lists.rings_sProcq hd) (Lists.fresh_pList hp)
  · intro e he
    obtain ⟨e', he', hs, hk⟩ := Lists.mem_setProcq he
    rw [← hs, ← hk]
    exact h.lists.keys e' he'

/-- A retired descriptor taken for a new key, with one PCB in its queue. -/
theorem activate (h : StoreRel s v) {e : Semd} {idle : List Semd} {p : Pcb} (key : Word)
    (he : v.lists.idle = e :: idle) (hp : p ∉ v.lists.queued) :
    StoreRel
      { s with lists :=
        { links := listAddTail (.pList p) (.sProcq e) (listAddTail (.sLink e) .semdH
            (initListHead (.sProcq e) (listDel (.sLink e) s.lists.links)))
          sKey := Function.update s.lists.sKey e key } }
      (Lists.setLists v
        { v.lists with asl := v.lists.asl ++ [⟨e, key, [p]⟩], idle := idle }) := by
  have hne := h.lists.idle_not_active (d := e) (by simp [he])
  refine ⟨h.data, ?_, ?_⟩
  · have hc : v.lists.rings .semdFreeH = some ([] ++ Link.sLink e :: idle.map .sLink) := by
      simp [Lists.rings, he]
    have h1 := rings_listDel h.lists.rings hc
    have f1 := h.lists.rings.fresh_removed hc
    have f2 : Links.Fresh v.lists.rings (.sProcq e) := Lists.fresh_sProcq hne
    have h2 := rings_initListHead_new h1 (f2.update (by simp))
    have h3 := rings_listAddTail (a := .semdH) h2
      (show _ = some (v.lists.asl.map fun d => Link.sLink d.semd) by simp [Lists.rings]) (f1.update (a := .sProcq e) (by simp))
    have f3 : Links.Fresh v.lists.rings (.pList p) := Lists.fresh_pList hp
    have h4 := rings_listAddTail (a := .sProcq e) h3 (show _ = some [] by simp)
      (((f3.update (by simp)).update (by simp)).update (by simp))
    refine h4.mono ?_
    intro l xs hl
    rw [← hl]
    cases l with
    | sProcq d =>
        by_cases hd : d = e
        · subst hd
          have hnone : v.lists.asl.find? (fun x => x.semd = d) = none := by simpa using hne
          simp [Lists.rings, hnone]
        · have hed : e ≠ d := fun h => hd h.symm
          simp [Lists.rings, hd, hed]
    | pChild q => rfl
    | _ => simp [Lists.rings]
  · intro d hd
    rcases List.mem_append.mp hd with hd | hd
    · change Function.update s.lists.sKey e key d.semd = d.key
      rw [Function.update_of_ne (hne d hd)]
      exact h.lists.keys d hd
    · simp only [List.mem_singleton] at hd
      subst hd
      exact Function.update_self ..

theorem insertBlocked (h : StoreRel s v) (semAdd : Word) (p : Pcb) :
    Simulates ResultRel (Pointer.insertBlocked semAdd p s) (Lists.insertBlocked semAdd p v) := by
  refine .guard fun hp => ?_
  unfold Pointer.insertBlocked
  rw [h.findKey, Option.bind_some]
  cases hf : v.lists.asl.find? (fun d => d.key = semAdd) with
  | some d =>
      have ha := h.appendProcq (List.mem_of_find?_eq_some hf) hp
      exact .pure ⟨ha.setPcb p (by rw [ha.pcb]; rfl), rfl⟩
  | none =>
      have hn := listNext_eq (a := .semdFreeH) h.lists.rings rfl
      cases hi : v.lists.idle with
      | nil =>
          rw [hi] at hn
          simp only [Option.map_none, hn]
          exact .pure ⟨h, rfl⟩
      | cons e idle =>
          rw [hi] at hn
          simp only [Option.map_none, hn]
          have ha := (h.activate semAdd hi hp).setPcb p
            (f := { s.pcb p with pSemAdd := semAdd })
            (g := { v.pcb p with pSemAdd := semAdd }) (by rw [h.pcb])
          exact .pure ⟨ha, rfl⟩

/-- Retiring a descriptor with an empty queue. -/
theorem releaseIfEmpty (h : StoreRel s v) {d : Desc} (hd : d ∈ v.lists.asl) :
    StoreRel (Pointer.releaseIfEmpty d.semd s)
      (Lists.setLists v (if d.procq = [] then { v.lists with
          asl := v.lists.asl.filter (fun e => e.semd ≠ d.semd)
          idle := d.semd :: v.lists.idle }
        else v.lists)) := by
  unfold Pointer.releaseIfEmpty
  have hempty : Pointer.emptyProcQ (.sProcq d.semd) s = true ↔ d.procq = [] := by
    rw [Pointer.emptyProcQ, listEmpty_iff h.lists.rings (h.lists.rings_sProcq hd)]
    simp
  by_cases hq : d.procq = []
  · rw [if_pos (hempty.mpr hq), if_pos hq]
    obtain ⟨l₁, l₂, hs⟩ := List.append_of_mem hd
    have hnd := h.lists.semds_nodup
    rw [hs, List.map_append, List.map_cons, List.nodup_middle, List.nodup_cons] at hnd
    have hfilter : v.lists.asl.filter (fun e => e.semd ≠ d.semd) = l₁ ++ l₂ := by
      have hne : ∀ e ∈ l₁ ++ l₂, e.semd ≠ d.semd := fun e he hed =>
        hnd.1 (hed ▸ by simpa using List.mem_map_of_mem (f := Desc.semd) he)
      rw [hs, List.filter_append, List.filter_cons_of_neg (by simp), ← List.filter_append]
      exact List.filter_eq_self.mpr (by simpa using hne)
    refine ⟨h.data, ?_, ?_⟩
    · have hc : v.lists.rings .semdH = some (l₁.map (fun e => Link.sLink e.semd) ++
          .sLink d.semd :: l₂.map fun e => .sLink e.semd) := by
        simp [Lists.rings, hs]
      have h1 := rings_listDel h.lists.rings hc
      have f1 := h.lists.rings.fresh_removed hc
      have h2 := rings_listAdd (a := .semdFreeH) h1
        (show _ = some (v.lists.idle.map Link.sLink) by simp [Lists.rings]) f1
      refine h2.mono ?_
      intro l xs hl
      rw [hfilter] at hl
      rw [← hl]
      cases l with
      | sProcq x =>
          by_cases hx : d.semd = x
          · have hnone : (l₁ ++ l₂).find? (fun e => e.semd = x) = none := by
              rw [List.find?_eq_none]
              intro e he hex
              refine hnd.1 ?_
              rw [hx, ← of_decide_eq_true hex]
              simpa using List.mem_map_of_mem (f := Desc.semd) he
            simp [Lists.rings, Lists.setLists, hnone] at hl
          · simp [Lists.rings, Lists.setLists, hs, List.find?_append, hx]
      | pChild q => rfl
      | _ => simp [Lists.rings, Lists.setLists]
    · intro e he
      change e ∈ v.lists.asl.filter _ at he
      rw [hfilter] at he
      have hne : e.semd ≠ d.semd := fun hed =>
        hnd.1 (hed ▸ by simpa using List.mem_map_of_mem (f := Desc.semd) he)
      change Function.update s.lists.sKey d.semd null e.semd = e.key
      rw [Function.update_of_ne hne]
      refine h.lists.keys e ?_
      rw [hs]
      simp only [List.mem_append, List.mem_cons] at he ⊢
      tauto
  · rw [if_neg (fun h => hq (hempty.mp h)), if_neg hq]
    exact h

/-- Deleting one PCB from the queue of a descriptor. -/
theorem requeue (h : StoreRel s v) {d : Desc} {p : Pcb} {xs ys : List Pcb}
    (hd : d ∈ v.lists.asl) (hq : d.procq = xs ++ p :: ys) :
    StoreRel (Pointer.releaseIfEmpty d.semd
        (Pointer.setLinks s (listDel (.pList p) s.lists.links)))
      (Lists.setLists v (Lists.requeue d.semd (xs ++ ys) v.lists)) := by
  let w := Lists.setLists v { v.lists with
    asl := Lists.setProcq d.semd (xs ++ ys) v.lists.asl }
  have h1 : StoreRel (Pointer.setLinks s (listDel (.pList p) s.lists.links)) w := by
    refine h.setLinks ?_ ?_
    · rw [Lists.rings_with_setProcq _ hd, List.map_append]
      refine rings_listDel h.lists.rings ?_
      simp [h.lists.rings_sProcq hd, hq]
    · intro e he
      obtain ⟨e', he', hs, hk⟩ := Lists.mem_setProcq he
      rw [← hs, ← hk]
      exact h.lists.keys e' he'
  have hd' : ({ d with procq := xs ++ ys } : Desc) ∈ w.lists.asl :=
    List.mem_map.mpr ⟨d, hd, if_pos rfl⟩
  have h2 := h1.releaseIfEmpty hd'
  have hfilter : (Lists.setProcq d.semd (xs ++ ys) v.lists.asl).filter
      (fun e => e.semd ≠ d.semd) = v.lists.asl.filter (fun e => e.semd ≠ d.semd) := by
    generalize v.lists.asl = asl
    induction asl with
    | nil => rfl
    | cons e asl ih =>
        simp only [Lists.setProcq, List.map_cons] at ih ⊢
        by_cases he : e.semd = d.semd
        · rw [if_pos he, List.filter_cons_of_neg (by simpa using he),
            List.filter_cons_of_neg (by simpa using he), ih]
        · rw [if_neg he, List.filter_cons_of_pos (by simpa using he),
            List.filter_cons_of_pos (by simpa using he), ih]
  unfold Lists.requeue
  by_cases hnil : xs ++ ys = []
  · rw [if_pos hnil] at h2 ⊢
    simp only [w, Lists.setLists, hfilter] at h2 ⊢
    exact h2
  · rw [if_neg hnil] at h2 ⊢
    exact h2

theorem removeBlocked (h : StoreRel s v) (semAdd : Word) :
    Simulates ResultRel (Pointer.removeBlocked semAdd s) (Lists.removeBlocked semAdd v) := by
  unfold Pointer.removeBlocked Lists.removeBlocked
  rw [h.findKey, Option.bind_some]
  cases hf : v.lists.asl.find? (fun d => d.key = semAdd) with
  | none => exact .pure ⟨h, rfl⟩
  | some d =>
      have hd := List.mem_of_find?_eq_some hf
      have hn := listNext_eq h.lists.rings (h.lists.rings_sProcq hd)
      cases hq : d.procq with
      | nil =>
          simp only [hq]
          exact .none
      | cons p ps =>
          rw [hq] at hn
          simp only [Option.map_some, hn, hq]
          have hq' : d.procq = [] ++ p :: ps := hq
          exact .pure ⟨h.requeue hd hq', rfl⟩

theorem outBlocked (h : StoreRel s v) (p : Pcb) :
    Simulates ResultRel (Pointer.outBlocked p s) (Lists.outBlocked p v) := by
  unfold Pointer.outBlocked Lists.outBlocked
  have hring := h.lists.rings.ring (a := .semdH) rfl
  rw [ListX.listForEach, hring.seek_eq
    (f := fun d => decide (d.key = (v.pcb p).pSemAdd ∧ p ∈ d.procq)) ?_ h.lists.asl_length]
  · cases hf : v.lists.asl.find? fun d => d.key = (v.pcb p).pSemAdd ∧ p ∈ d.procq with
    | none => exact .pure ⟨h, rfl⟩
    | some d =>
        have hp := List.find?_some hf
        simp only [decide_eq_true_eq] at hp
        obtain ⟨l₁, l₂, -, hs, he⟩ := List.exists_erase_eq hp.2
        refine .pure ⟨?_, rfl⟩
        rw [he]
        exact h.requeue (List.mem_of_find?_eq_some hf) hs
  · intro d hd
    have hseek := h.seek_pcb (h.lists.rings_sProcq hd) p
    simp only [Link.ofSLink, Option.bind_some, Pointer.inProcq, hseek, Option.map_some,
      h.lists.keys d hd, h.pcb]
    by_cases hk : (v.pcb p).pSemAdd = d.key
    · rw [if_pos hk]
      by_cases hp : p ∈ d.procq <;> simp [hk, hp]
    · have hk' : d.key ≠ (v.pcb p).pSemAdd := fun he => hk he.symm
      simp [hk, hk']

section Traversals

theorem mapM_map {α β γ : Type} {g : α → β} {f : β → Option γ} {r : α → γ} {l : List α}
    (h : ∀ a ∈ l, f (g a) = some (r a)) : (l.map g).mapM f = some (l.map r) := by
  induction l with
  | nil => rfl
  | cons a l ih =>
      rw [List.map_cons, List.mapM_cons, h a (by simp), ih fun b hb =>
        h b (List.mem_cons_of_mem _ hb)]
      rfl

/-- Collecting a list and reading its members through `container_of`. -/
theorem members (h : StoreRel s v) {β : Type} {a : Link} {ps : List β} {f : β → Link}
    {of : Link → Option β} (ha : v.lists.rings a = some (ps.map f)) (hof : ∀ b, of (f b) = some b)
    (hn : ps.length < Link.loopBudget) : Pointer.members a of s = some ps := by
  rw [Pointer.members, (h.lists.rings.ring ha).collect_eq (by rwa [List.length_map]),
    Option.bind_some, mapM_map (r := id) fun b _ => hof b, List.map_id]

theorem members_nodup (h : StoreRel s v) {a : Link} {ps : List (Fin maxProc)}
    {f : Fin maxProc → Link} {of : Link → Option (Fin maxProc)}
    (ha : v.lists.rings a = some (ps.map f)) (hof : ∀ b, of (f b) = some b) :
    Pointer.members a of s = some ps :=
  h.members ha hof
    (Lists.length_lt_loopBudget (List.nodup_cons.mp (h.lists.rings.ring ha).nodup).2)

theorem children (h : StoreRel s v) (p : Pcb) :
    Simulates Eq (QueueApi.children p s) (QueueApi.children p v) := by
  refine .guard fun hp => ?_
  rw [show QueueApi.children p s = some (v.lists.child p) from
    h.members_nodup (Lists.rings_pChild _ _ hp) (fun _ => rfl)]
  exact .pure rfl

theorem ready (h : StoreRel s v) : QueueApi.ready s = QueueApi.ready v :=
  h.members_nodup (a := .readyQueue) rfl (fun _ => rfl)

theorem semds (h : StoreRel s v) :
    Pointer.members .semdH Link.ofSLink s = some (v.lists.asl.map Desc.semd) :=
  h.members_nodup (f := .sLink) (by simp [Lists.rings]) (fun _ => rfl)

theorem procq (h : StoreRel s v) {d : Desc} (hd : d ∈ v.lists.asl) :
    Pointer.members (.sProcq d.semd) Link.ofPList s = some d.procq :=
  h.members_nodup (h.lists.rings_sProcq hd) (fun _ => rfl)

theorem blocked (h : StoreRel s v) : QueueApi.blocked s = QueueApi.blocked v := by
  change Pointer.blocked s = some v.lists.blocked
  have hqs : (v.lists.asl.map Desc.semd).mapM (fun d =>
      Pointer.members (.sProcq d) Link.ofPList s) = some (v.lists.asl.map Desc.procq) :=
    mapM_map fun _ hd => h.procq hd
  rw [Pointer.blocked, h.semds, Option.bind_some, hqs, Option.map_some, Lists.blocked,
    List.flatMap_def]

theorem active (h : StoreRel s v) :
    Pointer.active s = some (v.lists.asl.map fun d => (d.key, d.procq)) := by
  rw [Pointer.active, h.semds, Option.bind_some]
  refine mapM_map fun d hd => ?_
  rw [h.procq hd, h.lists.keys d hd]
  rfl

theorem queues (h : StoreRel s v) : Pointer.queues s = some v.lists.queues := by
  rw [Pointer.queues, h.members_nodup (a := .pcbFreeH) rfl (fun _ => rfl), Option.bind_some,
    h.members_nodup (a := .readyQueue) rfl (fun _ => rfl), Option.bind_some, h.active]
  rfl

end Traversals
end StoreRel

section Boot

/-- The lists that phase 1 starts with. -/
def Lists.boot : Lists where
  free := (List.finRange maxProc).reverse
  ready := []
  asl := []
  idle := (List.finRange maxProc).reverse
  child _ := []

theorem initLists_lists (s : Store Lists) : initLists s = Lists.setLists s Lists.boot := by
  simp only [initLists, QueueApi.initAsl, QueueApi.initPcbs, QueueApi.mkEmptyProcQ,
    Lists.initAsl, Lists.initPcbs, Lists.mkEmptyProcQ, Lists.setLists, Lists.boot]

/-- The lists of PCBs, without the active semaphores. -/
def Lists.pcbRings (v : Lists) : Link → Option (List Link)
  | .semdFreeH | .semdH | .sProcq _ => none
  | l => v.rings l

theorem map_nodup {f : Fin maxProc → Link} (hf : Function.Injective f) :
    ((List.finRange maxProc).map f).Nodup := (List.nodup_finRange _).map hf

/-- The members of the lists of PCBs belong to PCBs. -/
theorem fresh_pcbRings (v : Lists) {l : Link} (h : l = .semdFreeH ∨ l = .semdH ∨ ∃ d, l = .sLink d) :
    Links.Fresh v.pcbRings l := by
  intro a xs ha hm
  cases a with
  | pcbFreeH | readyQueue =>
      simp only [Lists.pcbRings, Lists.rings, Option.some.injEq] at ha
      subst ha
      rcases h with rfl | rfl | ⟨d, rfl⟩ <;> simp at hm
  | pChild p =>
      simp only [Lists.pcbRings, Lists.rings] at ha
      split at ha
      · cases ha
      · simp only [Option.some.injEq] at ha
        subst ha
        rcases h with rfl | rfl | ⟨d, rfl⟩ <;> simp at hm
  | _ => simp [Lists.pcbRings, Lists.rings] at ha

/-- Whatever the links of the descriptors hold before `initASL`, no semaphore is
active after. -/
theorem represents_initAsl {s : Store Pointers} {v : Lists} (h : s.lists.links.Rings v.pcbRings) :
    Lists.Represents (Pointer.initAsl s).lists
      { v with asl := [], idle := (List.finRange maxProc).reverse } := by
  refine ⟨?_, fun d hd => by simp at hd⟩
  have h1 := rings_initListHead_new h (fresh_pcbRings v (.inl rfl))
  have h2 := rings_initListHead_new h1 ((fresh_pcbRings v (.inr (.inl rfl))).update (by simp))
  have h3 := rings_foldl_listAdd (a := .semdFreeH) (f := .sLink) (l := List.finRange maxProc) h2
    (show _ = some [] by simp)
    (fun i _ => ((fresh_pcbRings v (.inr (.inr ⟨i, rfl⟩))).update (by simp)).update (by simp))
    (map_nodup fun _ _ => Link.sLink.inj)
  refine h3.mono fun l xs hl => ?_
  cases l with
  | sProcq d => simp [Lists.rings] at hl
  | pList | pSib | sLink => simp [Lists.rings] at hl
  | pcbFreeH | readyQueue => simpa [Lists.rings, Lists.pcbRings] using hl
  | pChild p => simpa [Lists.rings, Lists.pcbRings] using hl
  | semdFreeH | semdH => simpa [Lists.rings] using hl

/-- Whatever the static links hold before, they represent the boot lists after. -/
theorem storeRel_initLists {s : Store Pointers} {v : Store Lists}
    (h : s.toPcbData = v.toPcbData) : StoreRel (initLists s) (initLists v) := by
  have h0 : s.lists.links.Rings fun _ => none := ⟨nofun, nofun⟩
  have f0 : ∀ l : Link, Links.Fresh (fun _ => none) l := fun _ => nofun
  have h1 := rings_initListHead_new h0 (f0 .readyQueue)
  have h2 := rings_initListHead_new h1 ((f0 .pcbFreeH).update (by simp))
  have h3 := rings_foldl_listAdd (a := .pcbFreeH) (f := .pList)
    (l := List.finRange maxProc) h2 (show _ = some [] by simp)
    (fun i _ => ((f0 _).update (by simp)).update (by simp)) (map_nodup fun _ _ => Link.pList.inj)
  rw [initLists_lists]
  refine ⟨h, represents_initAsl (v := Lists.boot) (h3.mono fun l xs hl => ?_)⟩
  cases l with
  | pChild p => simp [Lists.pcbRings, Lists.rings, Lists.boot] at hl
  | pcbFreeH | readyQueue => simpa [Lists.pcbRings, Lists.rings, Lists.boot] using hl
  | _ => simp [Lists.pcbRings, Lists.rings] at hl

end Boot
end PandOSsh
