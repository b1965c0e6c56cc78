import Perfcached.Pending.Once

/-!
# Perfcached.Pending.Room

Whether a completion finds room in its worker's queue.

A queue has as many entries as the table has slots, but a slot is free again when its completion is
on its way, not when the worker has drained it: a worker that parks more requests meanwhile finds
its queue full, and the completion is dropped (`completion_dropped`). Where a worker parks only
while the completions it has not drained, those on their way and those that its requests can still
bring leave room in the queue, none is (`completions_find_room`).
-/

namespace Perfcached.Pending

open Machine List Nat Function

def workersMax : Nat := 520

/-- The worker has a queue. -/
abbrev HasQueue (w : Int) : Prop := 0 ≤ w ∧ w < workersMax

/-- The worker is told what came of a request of the kind. -/
def Kind.told : Kind → Bool
  | .possess | .reconcile => false
  | _ => true

/-- The table and the workers' queues, which are registered: what is in them and what was drained,
the requests that were parked, the completions there were, those on their way, and those that found
a queue full. -/
structure Flow where
  table : Clpend
  queue : Int → List Nat
  drained : Int → List Nat
  parked : List (Int × Nat)
  completed : List (Int × Nat)
  flying : List (Int × Nat)
  lost : List (Int × Nat)
  /-- how many calls there were -/
  calls : Nat

def Flow.new (asked : Int) : Flow := ⟨.new asked, fun _ => [], fun _ => [], [], [], [], [], 0⟩

inductive FlowAct
  | call (a : TableAct)
  /-- `clpend_cq_post` of a completion that is on its way. -/
  | post (j : Nat)
  /-- `clpend_cq_drain`. -/
  | drain (worker : Int) (max : Nat)

/-- The request that a call parks, if its worker is to be told. -/
def parks (p : Clpend) : TableAct → Option (Int × Nat)
  | .park a => if a.kind.told then (p.alloc a).map fun q => (a.worker, q.2.2) else none
  | _ => none

/-- The completion that a call posts: its worker and the request. -/
def completion (p : Clpend) : TableAct → Option (Int × Nat)
  | .park _ => none
  | .answer a =>
    match (clpendAnswer p a).2.1 with
    | .hit | .miss | .resume => some ((clpendAnswer p a).2.2.worker, a.req)
    | _ => none
  | .retire req only => (clpendRetire p req only).2.map fun r => (r.1, req)
  | .expire i now =>
    (clpendExpire p i now).2.bind fun s => if s.answered then none else some (s.worker, s.req)

def Flow.called (s : Flow) (a : TableAct) (table : Clpend) : Flow :=
  let c := (completion s.table a).toList
  { s with
    table
    parked := s.parked ++ (parks s.table a).toList
    completed := s.completed ++ c
    flying := s.flying ++ c
    calls := s.calls + 1 }

def flowStep (s : Flow) : FlowAct → Option Flow
  | .call a => (tableStep s.table a).map (s.called a)
  | .post j =>
    (s.flying[j]?).map fun c =>
      let s := { s with flying := s.flying.eraseIdx j }
      if ¬ HasQueue c.1 then s
      else if (s.queue c.1).length < s.table.pend.length then
        { s with queue := update s.queue c.1 (s.queue c.1 ++ [c.2]) }
      else { s with lost := s.lost ++ [c] }
  | .drain w max =>
    some { s with
      queue := update s.queue w ((s.queue w).drop max)
      drained := update s.drained w (s.drained w ++ (s.queue w).take max) }

/-- The request is parked and was not answered. -/
def Slot.Waits (r : Int × Nat) (s : Slot) : Prop :=
  s.req ≠ 0 ∧ (s.worker, s.req) = r ∧ s.answered = false ∧ s.kind.told = true

/-- How many completions a slot can still bring to a worker: after a positive answer the ack of a
JSON operation is one more. -/
def Slot.weight (w : Int) (s : Slot) : Nat :=
  if s.live ∧ s.worker = w then (if s.answered then 1 else 2) else 0

/-- The completions that a worker has not drained, and those that may still come. -/
def Flow.load (s : Flow) (w : Int) : Nat :=
  (s.table.pend.map (Slot.weight w)).sum + (s.flying.countP fun c => c.1 = w) + (s.queue w).length

/-- A worker parks a request only while there is room for what it may bring. -/
def Roomy (s : Flow) : FlowAct → Prop
  | .call (.park a) => s.load a.worker + 2 ≤ s.table.pend.length
  | _ => True

instance (s : Flow) : DecidablePred (Roomy s) := fun act => by
  unfold Roomy
  split <;> infer_instance

variable {i : Nat} {x : Slot}

theorem sum_weight_set {l : List Slot} (hx : l[i]? = some x) (y : Slot) (w : Int) :
    ((l.set i y).map (Slot.weight w)).sum + x.weight w =
      (l.map (Slot.weight w)).sum + y.weight w := by
  induction l generalizing i with
  | nil => cases hx
  | cons z l ih =>
    cases i with
    | zero =>
      cases hx
      simp only [set_cons_zero, map_cons, sum_cons]
      omega
    | succ i =>
      have := ih hx
      simp only [set_cons_succ, map_cons, sum_cons]
      omega

variable {p : Clpend} {s : Slot}

open Clpend

/-- A verdict that posts names the worker that parked the request. -/
theorem answer_worker {a : Answer} (hfind : p.find a.req = some (i, s))
    (hv : (clpendAnswer p a).2.1 = .hit ∨ (clpendAnswer p a).2.1 = .miss ∨
      (clpendAnswer p a).2.1 = .resume) :
    (clpendAnswer p a).2.2.worker = s.worker := by
  simp only [clpendAnswer, hfind, positive, negative, forward] at hv ⊢
  grind

/-- A request that is resolved was not answered before, and brings less from then on. -/
theorem Turn.weight {t : Slot} {e : Option Event} {given : Bool} (h : Turn s t e given)
    (hlive : s.req ≠ 0) (w : Int) :
    t.weight w + (if s.worker = w ∧ e.any (· ≠ .forwarded) then 1 else 0) ≤ s.weight w := by
  have hworker := h.worker
  by_cases ht : t.req = 0
  · simp only [Slot.weight, Slot.live, ht]
    grind
  · have hevents := h.events ht
    simp only [Slot.events] at hevents
    have hanswered : t.answered.toNat = s.answered.toNat + (e.any (· ≠ .forwarded)).toNat := by
      cases e <;> grind
    simp only [Slot.weight, Slot.live, hworker]
    cases hans : t.answered <;> cases hans' : s.answered <;> grind

/-- What a call does to the slot that it changes; `c` is the completion that it brings. -/
structure Changed (x y : Slot) (c : Option (Int × Nat)) : Prop where
  probes : y.req ≠ 0 → y.Probes
  weight : ∀ w, y.weight w + (c.toList.countP fun d => d.1 = w) ≤ x.weight w
  forward : y.req ≠ 0 → y.probeFwd = true →
    2 ^ 30 ≤ y.expect ∨ x.probeFwd = true ∧ x.expect ≤ y.expect + 1
  waits : ∀ r, x.Waits r → (x.probeFwd = true → 1 < x.expect) → c = some r ∨ y.Waits r

/-- A slot that is freed brings one completion at most, and one if it was not answered. -/
theorem release_changed (hlive : s.req ≠ 0) (hreq : x.req = s.req) {c : Option (Int × Nat)}
    (hc : ∀ d ∈ c, d = (s.worker, s.req)) (hans : s.answered = false → c.isSome = true) :
    ∃ y, (p.release i x).pend = p.pend.set i y ∧ Changed s y c := by
  rw [release, if_neg (hreq ▸ hlive)]
  refine ⟨_, rfl, fun h => absurd rfl h, fun w => ?_, fun h => absurd rfl h, fun r hr _ => .inl ?_⟩
  · simp only [Slot.weight, Slot.live]
    cases c with
    | none => grind
    | some d =>
      obtain rfl := hc d rfl
      grind
  · obtain ⟨d, hd⟩ := Option.isSome_iff_exists.mp (hans hr.2.2.1)
    rw [hd, hc d hd, hr.2.1]

/-- A request that waits is answered, and its worker told, or waits on. -/
theorem answer_waits {a : Answer} {y : Slot} {r : Int × Nat} (hfind : p.find a.req = some (i, s))
    (hpend : (clpendAnswer p a).1.pend = p.pend.set i y) (hw : s.Waits r)
    (hfwd : s.probeFwd = true → 1 < s.expect) :
    completion p (.answer a) = some r ∨ y.Waits r := by
  obtain ⟨hlive, rfl, hans, htold⟩ := hw
  obtain ⟨hsi, hreq, -⟩ := find_eq_some hfind
  have hi := (List.getElem?_eq_some_iff.mp hsi).1
  have hy : (clpendAnswer p a).1.pend[i]? = some y := by rw [hpend, getElem?_set_self hi]
  have hp : s.kind ≠ .possess := fun h => by cases h ▸ htold
  have hr : s.kind ≠ .reconcile := fun h => by cases h ▸ htold
  simp only [completion, clpendAnswer, hfind] at hy ⊢
  by_cases hpos : a.positive = true
  · simp only [hpos, if_true] at hy ⊢
    cases hop : s.probeOp with
    | some op =>
      have hkind : op.fwdKind.told = true := by cases op <;> rfl
      simp only [hop, forward, put] at hy ⊢
      grind [Slot.Waits]
    | none =>
      simp only [hop, positive, hans, hp] at hy ⊢
      grind [Slot.Waits, settle, put, release]
  · simp only [hpos, negative, hans, and_true, Bool.false_eq_true, if_false] at hy ⊢
    by_cases hlast : s.expect - 1 ≤ 0
    · simp only [hlast, if_true, hr, if_false]
      cases s.probeOp <;> simp [hreq]
    · simp only [hlast, if_false, put] at hy ⊢
      rw [getElem?_set_self hi] at hy
      cases hy
      exact .inr ⟨hlive, rfl, rfl, htold⟩

/-- **A call brings no more completions than the slot could**, and they go to its worker. -/
theorem call_changed {p' : Clpend} (hprobes : ∀ x ∈ p.pend, x.req ≠ 0 → x.Probes) {a : TableAct}
    (ha : ∀ b, a ≠ .park b) (hs : tableStep p a = some p') :
    (p'.pend = p.pend ∧ completion p a = none) ∨
    ∃ i x y, p.pend[i]? = some x ∧ p'.pend = p.pend.set i y ∧ Changed x y (completion p a) := by
  cases a with
  | park b => exact absurd rfl (ha b)
  | answer a =>
    cases hs
    cases hfind : p.find a.req with
    | none => exact .inl (by simp [completion, clpendAnswer, hfind])
    | some r =>
      obtain ⟨i, s⟩ := r
      obtain ⟨hs, -, hlive⟩ := find_eq_some hfind
      obtain ⟨y, hpend, hturn⟩ := answer_turn hfind (hprobes s (mem_of_getElem? hs) hlive)
      refine .inr ⟨i, s, y, hs, hpend, hturn.probes, fun w => ?_, hturn.forward,
        fun _ => answer_waits hfind hpend⟩
      have hweight := hturn.weight hlive w
      have hworker := answer_worker hfind
      simp only [completion]
      cases hv : (clpendAnswer p a).2.1 <;> rw [hv] at hweight hworker <;> grind [Ans.event]
  | retire req only =>
    cases hs
    simp only [completion, clpendRetire]
    split
    · exact .inl ⟨rfl, rfl⟩
    · rename_i i s hfind
      obtain ⟨hs, rfl, hlive⟩ := find_eq_some hfind
      split
      · exact .inl ⟨rfl, rfl⟩
      · obtain ⟨y, hy⟩ := release_changed (p := p) (i := i) (x := s) hlive rfl
          (c := some (s.worker, s.req)) (by simp) fun _ => rfl
        exact .inr ⟨i, s, y, hs, hy⟩
  | expire i now =>
    cases hs
    simp only [completion, clpendExpire]
    cases hs : p.pend[i]? with
    | none => exact .inl ⟨rfl, rfl⟩
    | some s =>
      dsimp only
      split
      · rename_i hdue
        obtain ⟨y, hy⟩ := release_changed (p := p) (i := i) (x := { s with stash := none })
          hdue.1 rfl
          (c := if s.answered then none else some (s.worker, s.req)) (by grind) (by grind)
        exact .inr ⟨i, s, y, hs, hy⟩
      · exact .inl ⟨rfl, rfl⟩

/-- The completions there were have arrived or are on their way, there is room for those that may
come, and a request that was parked waits or has had one. -/
structure Flow.Inv (s : Flow) : Prop where
  probes : ∀ x ∈ s.table.pend, x.req ≠ 0 → x.Probes
  load : ∀ w, s.load w ≤ s.table.pend.length
  lost : s.lost = []
  arrive : ∀ c ∈ s.completed, HasQueue c.1 → c ∈ s.flying ∨ c.2 ∈ s.drained c.1 ++ s.queue c.1
  forward : ∀ x ∈ s.table.pend, x.req ≠ 0 → x.probeFwd = true → 2 ^ 30 ≤ x.expect + s.calls
  resolved : s.calls < 2 ^ 30 → ∀ r ∈ s.parked, r ∈ s.completed ∨ ∃ x ∈ s.table.pend, x.Waits r

section

variable {s : Flow} (h : s.Inv) {a : TableAct} {table : Clpend}
include h

theorem Flow.Inv.arrive_called {d : Int × Nat} (hd : d ∈ (s.called a table).completed)
    (hqueue : HasQueue d.1) :
    d ∈ (s.called a table).flying ∨ d.2 ∈ s.drained d.1 ++ s.queue d.1 := by
  rcases mem_append.mp hd with hd | hd
  · exact (h.arrive d hd hqueue).imp_left (mem_append_left _)
  · exact .inl (mem_append_right _ hd)

theorem Flow.Inv.same (hpend : table.pend = s.table.pend) (hnone : completion s.table a = none)
    (hparks : parks s.table a = none) : (s.called a table).Inv := by
  refine ⟨hpend ▸ h.probes, fun w => ?_, h.lost, fun _ => h.arrive_called,
    fun x hx hlive hfwd => ?_, fun hcalls r hr => ?_⟩
  · have hload := h.load w
    simpa [Flow.load, Flow.called, hpend, hnone] using hload
  · have hforward := h.forward x (hpend ▸ hx) hlive hfwd
    simp only [Flow.called]
    omega
  · simp only [Flow.called, hparks, hnone, hpend, Option.toList_none, append_nil] at hcalls hr ⊢
    exact h.resolved (by omega) r hr

/-- One slot changes. -/
theorem Flow.Inv.set {i : Nat} {x y : Slot} (hx : s.table.pend[i]? = some x)
    (hpend : table.pend = s.table.pend.set i y) (hprobes : y.req ≠ 0 → y.Probes)
    (hweight : ∀ w, s.load w + y.weight w +
      ((completion s.table a).toList.countP fun c => c.1 = w) ≤
      s.table.pend.length + x.weight w)
    (hforward : y.req ≠ 0 → y.probeFwd = true → 2 ^ 30 ≤ y.expect + (s.calls + 1))
    (hresolved : s.calls + 1 < 2 ^ 30 → ∀ r ∈ (s.called a table).parked,
      r ∈ (s.called a table).completed ∨ ∃ x ∈ table.pend, x.Waits r) : (s.called a table).Inv := by
  refine ⟨fun z hz => ?_, fun w => ?_, h.lost, fun _ => h.arrive_called, fun z hz hlive hfwd => ?_,
    hresolved⟩
  · rcases mem_or_eq_of_mem_set (hpend ▸ hz) with hz | rfl
    · exact h.probes z hz
    · exact hprobes
  · have hsum := sum_weight_set hx y w
    have hw := hweight w
    simp only [Flow.load, Flow.called, hpend, length_set, countP_append] at hw ⊢
    omega
  · simp only [Flow.called, cast_add, cast_one]
    rcases mem_or_eq_of_mem_set (hpend ▸ hz) with hz | rfl
    · have := h.forward z hz hlive hfwd
      omega
    · exact hforward hlive hfwd

theorem Flow.Inv.changed {i : Nat} {x y : Slot} (hx : s.table.pend[i]? = some x)
    (hpend : table.pend = s.table.pend.set i y) (hc : Changed x y (completion s.table a))
    (hparks : parks s.table a = none) : (s.called a table).Inv := by
  have hmem := mem_of_getElem? hx
  refine h.set hx hpend hc.probes (fun w => ?_) (fun hlive hfwd => ?_) fun hcalls r hr => ?_
  · have hload := h.load w
    have hw := hc.weight w
    omega
  · have hxlive : x.probeFwd = true → x.req ≠ 0 := by
      intro hxf hx0
      have hw := hc.weight y.worker
      simp only [Slot.weight, Slot.live] at hw
      grind
    rcases hc.forward hlive hfwd with hbig | ⟨hxf, hle⟩
    · omega
    · have := h.forward x hmem (hxlive hxf) hxf
      omega
  · simp only [Flow.called, hparks, Option.toList_none, append_nil] at hr ⊢
    rcases h.resolved (by omega) r hr with hr | ⟨z, hz, hw⟩
    · exact .inl (mem_append_left _ hr)
    obtain ⟨j, hj⟩ := mem_iff_getElem?.mp hz
    have hlen := (List.getElem?_eq_some_iff.mp hx).1
    rw [hpend]
    by_cases hij : i = j
    · subst hij
      obtain rfl := Option.some.inj (hx.symm.trans hj)
      have hmore : x.probeFwd = true → 1 < x.expect := fun hxf => by
        have := h.forward x hmem hw.1 hxf
        omega
      rcases hc.waits r hw hmore with hnew | hy
      · exact .inl (mem_append_right _ (by simp [hnew]))
      · exact .inr ⟨y, mem_set hlen y, hy⟩
    · exact .inr ⟨z, mem_of_getElem? (by rwa [getElem?_set_ne hij]), hw⟩

theorem Flow.Inv.park {b : Park} (hroom : s.load b.worker + 2 ≤ s.table.pend.length) :
    (s.called (.park b) ((s.table.alloc b).elim s.table Prod.fst)).Inv := by
  cases hfree : s.table.pend.findIdx? fun x => x.req = 0 with
  | none =>
    have halloc : s.table.alloc b = none := by rw [alloc, hfree]; rfl
    exact h.same (by rw [halloc]; rfl) rfl (by simp [parks, halloc])
  | some i =>
    obtain ⟨hi, hreq, -⟩ := findIdx?_eq_some_iff_getElem.mp hfree
    have hx := getElem?_eq_getElem hi
    rw [alloc, hfree, Option.map_some, Option.elim_some]
    refine h.set hx rfl (fun _ => park_probes b _ _) (fun w => ?_) (fun _ hfwd => ?_)
      fun hcalls r hr => ?_
    · have := h.load w
      simp only [completion, Option.toList_none, countP_nil, Slot.weight, Park.slot]
      grind
    · cases hfwd
    · simp only [Flow.called, completion, Option.toList_none, append_nil] at hr ⊢
      rcases mem_append.mp hr with hr | hr
      · rcases h.resolved (by omega) r hr with hdone | ⟨z, hz, hw⟩
        · exact .inl hdone
        · obtain ⟨j, hj⟩ := mem_iff_getElem?.mp hz
          have hij : i ≠ j := by
            rintro rfl
            rw [hx, Option.some.injEq] at hj
            exact hw.1 (hj ▸ of_decide_eq_true hreq)
          exact .inr ⟨z, mem_of_getElem? (by rwa [getElem?_set_ne hij]), hw⟩
      · simp only [parks, alloc, hfree, Option.map_some] at hr
        split at hr
        · next htold =>
          obtain rfl := Option.mem_toList.mp hr |> Option.some.inj
          exact .inr ⟨_, mem_set hi _, by simp [Park.slot, handle], rfl, rfl, htold⟩
        · cases hr

theorem Flow.Inv.post {j : Nat} {s' : Flow} (hs : flowStep s (.post j) = some s') : s'.Inv := by
  obtain ⟨c, hc, rfl⟩ := Option.map_eq_some_iff.mp hs
  obtain ⟨hj, rfl⟩ := List.getElem?_eq_some_iff.mp hc
  have hperm := getElem_cons_eraseIdx_perm hj
  generalize s.flying[j] = c at hperm
  have hcount : ∀ w, (s.flying.eraseIdx j).countP (fun d => d.1 = w) + (if c.1 = w then 1 else 0) =
      s.flying.countP fun d => d.1 = w := fun w => by
    rw [← Perm.countP_eq _ hperm, countP_cons]
    simp only [decide_eq_true_eq]
  by_cases hqueue : HasQueue c.1
  · -- the completion is one of those there is room for
    have hroom : (s.queue c.1).length < s.table.pend.length := by
      have := h.load c.1
      have := hcount c.1
      simp only [Flow.load, if_true] at *
      omega
    simp only [if_neg (not_not.mpr hqueue), if_pos hroom]
    refine ⟨h.probes, fun w => ?_, h.lost, fun d hd hd' => ?_, h.forward, h.resolved⟩
    -- what the queue gains is no more on its way
    · have hload := h.load w
      have hcount := hcount w
      simp only [Flow.load, update_apply] at *
      by_cases hw : w = c.1
      · rw [if_pos hw, length_append, length_singleton, ← hw]
        rw [if_pos hw.symm] at hcount
        omega
      · rw [if_neg hw]
        omega
    · rcases h.arrive d hd hd' with hd | hd
      · rcases mem_cons.mp (hperm.mem_iff.mpr hd) with rfl | hd
        · exact .inr (by simp)
        · exact .inl hd
      · refine .inr ?_
        grind
  · simp only [if_pos hqueue]
    refine ⟨h.probes, fun w => ?_, h.lost, fun d hd hd' => ?_, h.forward, h.resolved⟩
    · have hload := h.load w
      have hcount := hcount w
      simp only [Flow.load] at *
      omega
    · refine (h.arrive d hd hd').imp_left fun hd => ?_
      rcases mem_cons.mp (hperm.mem_iff.mpr hd) with rfl | hd
      · exact absurd hd' hqueue
      · exact hd

theorem Flow.Inv.drain (w : Int) (max : Nat) :
    Flow.Inv { s with
      queue := update s.queue w ((s.queue w).drop max)
      drained := update s.drained w (s.drained w ++ (s.queue w).take max) } := by
  refine ⟨h.probes, fun v => ?_, h.lost, fun d hd hd' => ?_, h.forward, h.resolved⟩
  · refine le_trans ?_ (h.load v)
    simp only [Flow.load, update_apply]
    split
    · subst v
      simp
    · exact le_rfl
  · refine (h.arrive d hd hd').imp_right fun hd => ?_
    simp only [update_apply]
    split
    · rename_i heq
      rw [append_assoc, take_append_drop]
      exact heq ▸ hd
    · exact hd

theorem Flow.Inv.step {s' : Flow} {act : FlowAct} (hok : Roomy s act)
    (hs : flowStep s act = some s') : s'.Inv := by
  cases act with
  | call a =>
    obtain ⟨table, htable, rfl⟩ := Option.map_eq_some_iff.mp hs
    by_cases hpark : ∃ b, a = .park b
    · obtain ⟨b, rfl⟩ := hpark
      cases htable
      exact h.park hok
    · have hparks : parks s.table a = none := by
        cases a <;> first | rfl | exact absurd ⟨_, rfl⟩ hpark
      rcases call_changed h.probes (fun b hb => hpark ⟨b, hb⟩) htable with ⟨hpend, hnone⟩ |
        ⟨i, x, y, hx, hpend, hc⟩
      · exact h.same hpend hnone hparks
      · exact h.changed hx hpend hc hparks
  | post j => exact h.post hs
  | drain w max =>
    cases hs
    exact h.drain w max

end

theorem flow_new_inv (asked : Int) : (Flow.new asked).Inv := by
  have hzero : ∀ x ∈ (new asked).pend, x = .zero := fun x hx => eq_of_mem_replicate hx
  refine ⟨fun x hx h0 => absurd (by rw [hzero x hx]; rfl) h0, fun w => ?_, rfl, nofun,
    fun x hx h0 => absurd (by rw [hzero x hx]; rfl) h0, nofun⟩
  simp [Flow.load, Flow.new, new, Slot.weight, Slot.live, Slot.zero]

/-- **A completion finds room where the workers leave it.** In every run of parks, answers, acks,
sweeps, posts and drains in which a worker parks a request only while its queue has room for two
completions beyond those it has not drained, those on their way and those that its requests can
still bring: no post finds a queue full; every completion for a worker with a queue is on its way to
it, in its queue or drained; every request that was parked for a worker to be told waits in its slot
or has its completion, if there were fewer than 2^30 calls (`expect` after a forward); and one that
was not answered has it by the sweep after its deadline. -/
theorem completions_find_room {asked : Int} {acts : List FlowAct} {s : Flow}
    (hroom : Along flowStep Roomy (.new asked) acts)
    (hrun : run flowStep (.new asked) acts = some s) :
    s.lost = [] ∧
    (∀ c ∈ s.completed, HasQueue c.1 → c ∈ s.flying ∨ c.2 ∈ s.drained c.1 ++ s.queue c.1) ∧
    (s.calls < 2 ^ 30 → ∀ r ∈ s.parked, r ∈ s.completed ∨ ∃ x ∈ s.table.pend, x.Waits r) ∧
    ∀ i x, s.table.pend[i]? = some x → x.req ≠ 0 → x.answered = false → ∀ now ≥ x.deadlineMs,
      ∀ s', flowStep s (.call (.expire i now)) = some s' → (x.worker, x.req) ∈ s'.completed := by
  have h : s.Inv := run_invariant (I := Flow.Inv) (fun _ _ _ h hok hs => h.step hok hs)
    (flow_new_inv asked) hroom hrun
  refine ⟨h.lost, h.arrive, h.resolved, fun i x hx hlive hans now hnow s' hs' => ?_⟩
  cases hs'
  have hdone : completion s.table (.expire i now) = some (x.worker, x.req) := by
    simp [completion, clpendExpire, hx, hlive, hans, hnow]
  simp [Flow.called, hdone]

/-- A worker parks a request and it is answered, so many times, and it drains nothing. -/
def parkAndAnswer : Nat → List FlowAct
  | 0 => []
  | n + 1 => parkAndAnswer n ++ [.call (.park ⟨.pull, 1, 0, 0, 0, 100, [], [], 0, none⟩),
      .call (.answer ⟨handle (n + 1) 0, true, 2, 5, 1, 0⟩), .post 0]

/-- The second request takes the slot of the first while that one's completion waits. -/
theorem completions_find_room_reused :
    ∃ s, run flowStep (.new 64) (parkAndAnswer 2 ++ [.drain 0 8]) = some s ∧
      s.parked = [(0, handle 1 0), (0, handle 2 0)] ∧ s.drained 0 = [handle 1 0, handle 2 0] ∧
      s.lost = [] ∧ ∀ r ∈ s.parked, r ∈ s.completed ∨ ∃ x ∈ s.table.pend, x.Waits r := by
  have hroom : Along flowStep Roomy (.new 64) (parkAndAnswer 2 ++ [.drain 0 8]) := by decide +kernel
  have hfind := completions_find_room hroom rfl
  exact ⟨_, rfl, rfl, rfl, hfind.1, hfind.2.2.1 (by decide)⟩

/-! ### A queue runs full -/

/-- One request more: the slot it took is free again, at the next generation. -/
theorem step_parkAndAnswer {s : Flow} {rest : List Slot} {n : Nat} (hn : n + 1 < 2 ^ 15)
    (hpend : s.table.pend = x :: rest) (hreq : x.req = 0) (hgen : x.gen = n)
    (hfly : s.flying = []) :
    ∃ s' y, run flowStep s [.call (.park ⟨.pull, 1, 0, 0, 0, 100, [], [], 0, none⟩),
        .call (.answer ⟨handle (n + 1) 0, true, 2, 5, 1, 0⟩), .post 0] = some s' ∧
      s'.table.pend = y :: rest ∧ y.req = 0 ∧ y.gen = n + 1 ∧ s'.flying = [] ∧
      (if (s.queue 0).length < rest.length + 1 then
        (s'.queue 0).length = (s.queue 0).length + 1 ∧ s'.lost = s.lost
      else s'.lost = s.lost ++ [(0, handle (n + 1) 0)]) := by
  have hnext : nextGen n = n + 1 := by
    rw [nextGen, mod_eq_of_lt hn]
    rfl
  have hmod : handle (n + 1) 0 % 65536 = 0 := by unfold handle; omega
  have htag : 2147483648 ≤ handle (n + 1) 0 := by unfold handle; omega
  have hne : handle (n + 1) 0 ≠ 0 := by omega
  simp [run, flowStep, tableStep, Flow.called, HasQueue, workersMax, alloc, hpend, hreq, hgen,
    hnext, findIdx?_cons, completion, clpendAnswer, find, htag, hmod, hfly, Park.slot, positive,
    settle, release, hne]
  split <;> exact ⟨_, rfl, rfl, rfl, rfl, by simp⟩

theorem run_parkAndAnswer {n : Nat} (hn : n ≤ 64) :
    ∃ s x rest, run flowStep (.new 64) (parkAndAnswer n) = some s ∧ s.table.pend = x :: rest ∧
      x.req = 0 ∧ x.gen = n ∧ rest.length = 63 ∧ s.flying = [] ∧ (s.queue 0).length = n ∧
      s.lost = [] := by
  induction n with
  | zero => exact ⟨_, _, replicate 63 .zero, rfl, rfl, rfl, rfl, rfl, rfl, rfl, rfl⟩
  | succ n ih =>
    obtain ⟨s, x, rest, hrun, hpend, hreq, hgen, hrest, hfly, hqueue, hlost⟩ := ih (by omega)
    obtain ⟨s', y, hrun', hpend', hreq', hgen', hfly', hroom⟩ :=
      step_parkAndAnswer (by omega) hpend hreq hgen hfly
    rw [if_pos (by omega), hqueue, hlost] at hroom
    exact ⟨s', y, rest, run_trans hrun hrun', hpend', hreq', hgen', hrest, hfly', hroom⟩

/-- **A completion is dropped.** The 65th request of a worker that drained none of the 64 before is
answered into a full queue, and nothing is left of it. -/
theorem completion_dropped :
    ∃ s, run flowStep (.new 64) (parkAndAnswer 65) = some s ∧ s.lost = [(0, handle 65 0)] := by
  obtain ⟨s, x, rest, hrun, hpend, hreq, hgen, hrest, hfly, hqueue, hlost⟩ :=
    run_parkAndAnswer (le_refl 64)
  obtain ⟨s', y, hrun', -, -, -, -, hroom⟩ := step_parkAndAnswer (by omega) hpend hreq hgen hfly
  rw [if_neg (by omega), hlost] at hroom
  exact ⟨s', run_trans hrun hrun', hroom⟩

end Perfcached.Pending
