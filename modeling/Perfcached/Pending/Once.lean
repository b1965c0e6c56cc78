import Perfcached.Pending.Table

/-!
# Perfcached.Pending.Once

A parked request is resolved at most once, and the counts of the table are exact.

Beside the table stand, for every slot, the requests that it was given in turn: the handle of each,
what became of it, and how often its stashed value was passed out or freed. The last is the one the
slot holds. Every call takes one slot a turn further (`Turn`) or leaves the table alone, and a turn
keeps what the slot says of its last request (`Holds`).
-/

namespace Perfcached.Pending

open Bytes Machine List Option Function

/-! ### The counts -/

def Slot.live (s : Slot) : Bool := s.req ≠ 0

/-- `used` and `used_kind` count the live slots. -/
structure Counts (p : Clpend) : Prop where
  used : p.used = p.pend.countP Slot.live
  kind : ∀ k, p.usedKind k = p.pend.countP fun s => s.live && s.kind = k

theorem countP_set_add {l : List Slot} {i : Nat} {s : Slot} (h : l[i]? = some s) (s' : Slot)
    (f : Slot → Bool) :
    (l.set i s').countP f + (f s).toNat = l.countP f + (f s').toNat := by
  obtain ⟨hi, rfl⟩ := List.getElem?_eq_some_iff.mp h
  rw [countP_set hi]
  cases hf : f l[i] with
  | false => cases f s' <;> simp
  | true =>
    have hpos := countP_pos_iff.mpr ⟨_, getElem_mem hi, hf⟩
    cases f s' <;> simp <;> omega

variable {p : Clpend} {i : Nat} {s : Slot}

open Slot

theorem Counts.change (h : Counts p) (hs : p.pend[i]? = some s) (s' : Slot) {used : Nat}
    {usedKind : Kind → Nat} (hused : used + s.live.toNat = p.used + s'.live.toNat)
    (hkind : ∀ k, usedKind k + (s.live && s.kind = k).toNat =
      p.usedKind k + (s'.live && s'.kind = k).toNat) :
    Counts ⟨p.pend.set i s', used, usedKind⟩ := by
  refine ⟨?_, fun k => ?_⟩
  · have := countP_set_add hs s' live
    have := h.used
    dsimp only
    omega
  · have := countP_set_add hs s' fun x => x.live && x.kind = k
    have := h.kind k
    have := hkind k
    dsimp only at *
    omega

variable {s' : Slot}

theorem Counts.put (h : Counts p) (hs : p.pend[i]? = some s) (hreq : s'.req = s.req)
    (hkind : s'.kind = s.kind) : Counts (p.put i s') :=
  h.change hs s' (by simp [live, hreq]) fun k => by simp [live, hreq, hkind]

open Clpend

section

variable (h : Counts p) (hs : p.pend[i]? = some s) (hlive : s.req ≠ 0) (hreq : s'.req = s.req)
  (hkind : s'.kind = s.kind)
include h hs hlive hreq hkind

/-- The slot `i` changes in what is not counted and is freed. -/
theorem Counts.release : Counts (p.release i s') := by
  rw [Clpend.release, if_neg (hreq ▸ hlive)]
  have hmem := mem_of_getElem? hs
  have hpos : 0 < p.used := by
    rw [h.used]
    exact countP_pos_iff.mpr ⟨s, hmem, by simp [live, hlive]⟩
  have hpos' : 0 < p.usedKind s.kind := by
    rw [h.kind]
    exact countP_pos_iff.mpr ⟨s, hmem, by simp [live, hlive]⟩
  refine h.change hs _ ?_ fun k => ?_
  · simp [live, hlive]
    omega
  · rw [hkind, update_apply]
    by_cases hk : k = s.kind
    · subst hk
      simp [live, hlive]
      omega
    · simp [live, hk, Ne.symm hk]

theorem Counts.settle : Counts (p.settle i s') := by
  unfold Clpend.settle
  split
  · exact h.release hs hlive hreq hkind
  · exact h.put hs hreq hkind

end

/-! ### What became of a request -/

/-- What is said of a request: that its probe was forwarded, or how it is resolved. -/
inductive Event
  | forwarded | hit | miss | resume | reconcile | possess | retired | timeout
  deriving DecidableEq

/-- A request that a slot was given: its handle, whether a value was stashed for it, what became of
it, and how often its stash was passed out or freed. -/
structure Past where
  req : Nat
  stashed : Bool
  events : List Event
  given : Nat

/-- At most one resolution, and a forward before it only. -/
def AtMostOnce (es : List Event) : Prop :=
  ∃ a b, es = a ++ b ∧ (a = [] ∨ a = [.forwarded]) ∧ b.length ≤ 1 ∧ .forwarded ∉ b

/-- What a live slot says of its request. -/
def Slot.events (s : Slot) : List Event :=
  (if s.probeFwd then [.forwarded] else []) ++ if s.answered then [.hit] else []

/-- The request is over, and its stash with it. -/
def Past.Over (x : Past) : Prop := AtMostOnce x.events ∧ x.given = x.stashed.toNat

/-- A value is stashed for a probe only, and a probe has heard nothing yet. -/
def Slot.Probes (s : Slot) : Prop :=
  (s.probeOp = none → s.stash = none) ∧
    (s.probeOp ≠ none → s.answered = false ∧ s.probeFwd = false)

/-- A slot has a turn: what is said of its request, and whether its stash is given up. -/
structure Turn (s s' : Slot) (e : Option Event) (given : Bool) : Prop where
  gen : s'.gen = s.gen
  worker : s'.worker = s.worker
  req : s'.req = s.req ∨ s'.req = 0
  events : s'.req ≠ 0 → s'.events = s.events ++ e.toList
  freed : s'.req = 0 → AtMostOnce (s.events ++ e.toList) ∧ s'.stash = none
  stash : s'.stash.isSome.toNat + given.toNat = s.stash.isSome.toNat
  probes : s'.req ≠ 0 → s'.Probes
  /-- after a forward it waits for more answers than there can be -/
  forward : s'.req ≠ 0 → s'.probeFwd = true →
    2 ^ 30 ≤ s'.expect ∨ s.probeFwd = true ∧ s.expect ≤ s'.expect + 1

theorem atMostOnce_events (s : Slot) : AtMostOnce s.events := by
  refine ⟨_, _, rfl, ?_, ?_, ?_⟩
  · cases s.probeFwd <;> simp
  · cases s.answered <;> simp
  · cases s.answered <;> simp

theorem atMostOnce_resolved {s : Slot} (h : s.answered = false) {e : Event} (he : e ≠ .forwarded) :
    AtMostOnce (s.events ++ [e]) := by
  refine ⟨if s.probeFwd then [.forwarded] else [], [e], by simp [events, h], ?_, by simp, ?_⟩
  · cases s.probeFwd <;> simp
  · simpa using he.symm

variable {t : Slot} {e : Option Event} {given : Bool}

theorem turn_release (hlive : t.req ≠ 0) (hgen : t.gen = s.gen) (hworker : t.worker = s.worker)
    (hover : AtMostOnce (s.events ++ e.toList)) (hstash : t.stash = none)
    (hgiven : given.toNat = s.stash.isSome.toNat) :
    ∃ x, (p.release i t).pend = p.pend.set i x ∧ Turn s x e given := by
  rw [release, if_neg hlive]
  exact ⟨{ t with req := 0 }, rfl, hgen, hworker, .inr rfl, fun h => absurd rfl h,
    fun _ => ⟨hover, hstash⟩, by simpa [hstash] using hgiven, fun h => absurd rfl h,
    fun h => absurd rfl h⟩

theorem Turn.settle (h : Turn s t e given) (hlive : t.req ≠ 0)
    (hover : AtMostOnce (s.events ++ e.toList)) (hstash : t.stash = none)
    (hexpect : t.expect = s.expect) (hfwd : t.probeFwd = s.probeFwd) :
    ∃ x, (p.settle i t).pend = p.pend.set i x ∧ Turn s x e given := by
  unfold Clpend.settle
  split
  · have hgiven := h.stash
    rw [hstash] at hgiven
    exact turn_release (t := { t with expect := t.expect - 1 }) hlive h.gen h.worker hover hstash
      (by simpa using hgiven)
  · exact ⟨_, rfl, h.gen, h.worker, h.req, h.events, h.freed, h.stash, h.probes,
      fun _ ht => .inr ⟨hfwd ▸ ht, by simp [hexpect]⟩⟩

/-- What a verdict says of the request. -/
def Ans.event : Ans → Option Event
  | .hit => some .hit
  | .miss => some .miss
  | .probeFwd => some .forwarded
  | .resume => some .resume
  | .reconcile => some .reconcile
  | .possess => some .possess
  | .ignore | .wait | .race | .same => none

theorem turn_refl (hlive : s.req ≠ 0) (hs : s.Probes) {k : Int} (hk : s.expect ≤ k + 1) :
    Turn s { s with expect := k } none false :=
  ⟨rfl, rfl, .inl rfl, fun _ => (append_nil _).symm, fun h => absurd h hlive, rfl, fun _ => hs,
    fun _ hfwd => .inr ⟨hfwd, hk⟩⟩

/-- **An answer is a turn of the slot it names.** -/
theorem answer_turn {a : Answer} (hfind : p.find a.req = some (i, s)) (hs : s.Probes) :
    ∃ x, (clpendAnswer p a).1.pend = p.pend.set i x ∧
      Turn s x (clpendAnswer p a).2.1.event (clpendAnswer p a).2.2.stash.isSome := by
  have hlive := (find_eq_some hfind).2.2
  have hsame : AtMostOnce (s.events ++ (none : Option Event).toList) := by
    simpa using atMostOnce_events s
  unfold clpendAnswer
  rw [hfind]
  dsimp only
  split
  · cases hop : s.probeOp with
    | some op =>
      obtain ⟨hans, hfwd⟩ := hs.2 (by simp [hop])
      refine ⟨_, rfl, rfl, rfl, .inl rfl, fun _ => ?_, fun h => absurd h hlive, by simp [forward],
        fun _ => ⟨fun _ => rfl, fun h => absurd rfl h⟩, fun _ _ => .inl le_rfl⟩
      simp [events, hans, hfwd, forward, Ans.event]
    | none =>
      have hnone := hs.1 hop
      dsimp only
      unfold positive
      split
      · rename_i hfirst
        dsimp only
        split
        · exact turn_release hlive rfl rfl (atMostOnce_resolved hfirst.1 (by decide)) hnone
            (by simp [hnone])
        · have hturn : Turn s { s with
              answered := true, firstNode := a.node, firstVer := a.ver, firstSum := a.vsum }
              (some .hit) false :=
            ⟨rfl, rfl, .inl rfl, fun _ => by simp [events, hfirst], fun h => absurd h hlive, rfl,
              fun _ => ⟨fun _ => hnone, fun h => absurd hop h⟩,
              fun _ hfwd => .inr ⟨hfwd, by simp⟩⟩
          exact hturn.settle hlive (atMostOnce_resolved hfirst.1 (by decide)) hnone rfl rfl
      · have hturn := turn_refl hlive hs (k := s.expect) (by simp)
        split <;> exact hturn.settle hlive hsame hnone rfl rfl
  · unfold negative
    dsimp only
    split
    · rename_i hlast
      have hover : ∀ {ev : Event}, ev ≠ .forwarded → AtMostOnce (s.events ++ [ev]) :=
        atMostOnce_resolved hlast.2
      split
      · exact turn_release (s := s) hlive rfl rfl (hover (by decide)) rfl rfl
      · have hnone := hs.1 ‹_›
        split <;> exact turn_release (s := s) hlive rfl rfl (hover (by decide)) hnone
          (by simp [hnone])
    · rename_i hlater
      split
      · have hans : s.probeOp = none := by
          by_contra hop
          exact hlater ⟨‹_›, (hs.2 hop).1⟩
        exact turn_release (s := s) (t := { s with expect := s.expect - 1 }) hlive rfl rfl hsame
          (hs.1 hans) (by simp [hs.1 hans])
      · exact ⟨_, rfl, turn_refl hlive hs (by simp)⟩

/-- An answer changes one slot, of which it says the kind. -/
theorem Counts.answer (h : Counts p) (a : Answer) : Counts (clpendAnswer p a).1 := by
  unfold clpendAnswer
  split
  · exact h
  · rename_i i s hfind
    obtain ⟨hs, -, hlive⟩ := find_eq_some hfind
    split
    · split
      · refine h.change hs _ rfl fun k => ?_
        have hpos : 0 < p.usedKind s.kind := by
          rw [h.kind]
          exact countP_pos_iff.mpr ⟨s, mem_of_getElem? hs, by simp [live, hlive]⟩
        simp only [update_apply, live]
        grind
      · unfold positive
        split
        · dsimp only
          split
          · exact h.release hs hlive rfl rfl
          · exact h.settle hs hlive rfl rfl
        · split <;> exact h.settle hs hlive rfl rfl
    · unfold negative
      dsimp only
      split
      · split
        · exact h.release hs hlive rfl rfl
        · split <;> exact h.release hs hlive rfl rfl
      · split
        · exact h.release hs hlive rfl rfl
        · exact h.put hs rfl rfl

/-! ### The requests of a slot -/

/-- The table, and for every slot the requests it was given, in order. -/
structure Ledger where
  table : Clpend
  past : Nat → List Past

/-- Something becomes of the last request. -/
def turnLast (h : List Past) (e : Option Event) (given : Bool) : List Past :=
  h.dropLast ++ (h.getLast?.map fun x =>
    { x with events := x.events ++ e.toList, given := x.given + given.toNat }).toList

def Ledger.turn (s : Ledger) (table : Clpend) (i : Nat) (e : Option Event) (given : Bool) :
    Ledger :=
  ⟨table, update s.past i (turnLast (s.past i) e given)⟩

def ledgerStep (s : Ledger) : TableAct → Option Ledger
  | .park a =>
    match s.table.alloc a with
    | none => some s
    | some (table, i, req) =>
      let x : Past := ⟨req, (a.probe.bind Probe.stash).isSome, [], 0⟩
      some ⟨table, update s.past i (s.past i ++ [x])⟩
  | .answer a =>
    let r := clpendAnswer s.table a
    match s.table.find a.req with
    | none => some s
    | some (i, _) => some (s.turn r.1 i r.2.1.event r.2.2.stash.isSome)
  | .retire req only =>
    match s.table.find req, (clpendRetire s.table req only).2 with
    | some (i, _), some _ =>
      some (s.turn (clpendRetire s.table req only).1 i (some .retired) false)
    | _, _ => some s
  | .expire i now =>
    match (clpendExpire s.table i now).2 with
    | none => some s
    | some old =>
      some (s.turn (clpendExpire s.table i now).1 i (if old.answered then none else some .timeout)
        old.stash.isSome)

/-- The generation of a slot that was given so many requests. -/
def genAt : Nat → Nat
  | 0 => 0
  | k + 1 => k % 32767 + 1

/-- The handle of a slot's request number `k`. -/
def minted (i k : Nat) : Nat := handle (genAt (k + 1)) i

theorem nextGen_genAt (k : Nat) : nextGen (genAt k) = genAt (k + 1) := by
  unfold nextGen genAt
  cases k with
  | zero => rfl
  | succ k =>
    dsimp only
    have hmod : (k + 1) % 32767 = if k % 32767 = 32766 then 0 else k % 32767 + 1 := by
      split <;> omega
    rw [hmod]
    split <;> split <;> omega

/-- What a slot and its requests have to do with each other. -/
structure Holds (i : Nat) (s : Slot) (h : List Past) : Prop where
  gen : s.gen = genAt h.length
  reqs : ∀ (k : Nat) (x : Past), h[k]? = some x → x.req = minted i k
  free : s.req = 0 → ∀ x ∈ h, x.Over
  live : s.req ≠ 0 → ∃ l x, h = l ++ [x] ∧ (∀ y ∈ l, y.Over) ∧ x.req = s.req ∧ x.events = s.events ∧
    s.stash.isSome.toNat + x.given = x.stashed.toNat
  probes : s.req ≠ 0 → s.Probes

/-- **A turn keeps what a slot says of its last request**, or ends it. -/
theorem Holds.turn {h : List Past} (hh : Holds i s h) (hlive : s.req ≠ 0) (ht : Turn s t e given) :
    Holds i t (turnLast h e given) := by
  obtain ⟨l, x, rfl, hl, hreq, hev, hst⟩ := hh.live hlive
  have hturn : turnLast (l ++ [x]) e given =
      l ++ [{ x with events := x.events ++ e.toList, given := x.given + given.toNat }] := by
    simp [turnLast]
  have hstash := ht.stash
  rw [hturn]
  refine ⟨?_, fun k y hy => ?_, fun h0 y hy => ?_, fun h0 => ?_, ht.probes⟩
  · rw [ht.gen, hh.gen, length_append, length_append]
    rfl
  · rcases lt_or_ge k l.length with hk | hk
    · rw [getElem?_append_left hk] at hy
      exact hh.reqs k y (by rw [getElem?_append_left hk, hy])
    · rw [getElem?_append_right hk, getElem?_singleton] at hy
      split at hy
      · cases hy
        exact hh.reqs k x (by rw [getElem?_append_right hk, ‹k - l.length = 0›]; rfl)
      · cases hy
  · rcases mem_append.mp hy with hy | hy
    · exact hl y hy
    · obtain ⟨hover, hnone⟩ := ht.freed h0
      rw [mem_singleton.mp hy]
      rw [hnone, isSome_none, Bool.toNat_false, zero_add] at hstash
      exact ⟨hev ▸ hover, by dsimp only; omega⟩
  · refine ⟨l, _, rfl, hl, hreq.trans (ht.req.resolve_right h0).symm, ?_, ?_⟩
    · rw [ht.events h0, ← hev]
    · dsimp only
      omega

theorem park_probes (a : Park) (req gen : Nat) : (a.slot req gen).Probes := by
  refine ⟨?_, fun _ => ⟨rfl, rfl⟩⟩
  simp only [Park.slot, map_eq_none_iff]
  intro hnone
  rw [hnone]
  rfl

theorem Holds.park {h : List Past} (hh : Holds i s h) (hfree : s.req = 0) (a : Park) :
    Holds i (a.slot (handle (nextGen s.gen) i) (nextGen s.gen))
      (h ++ [⟨handle (nextGen s.gen) i, (a.probe.bind Probe.stash).isSome, [], 0⟩]) := by
  have hgen : nextGen s.gen = genAt (h.length + 1) := by rw [hh.gen, nextGen_genAt]
  have hlive : handle (nextGen s.gen) i ≠ 0 := by unfold handle; omega
  refine ⟨?_, fun k y hy => ?_, fun h0 => absurd h0 hlive, fun _ => ?_, fun _ => park_probes ..⟩
  · rw [length_append]
    exact hgen
  · rcases lt_or_ge k h.length with hk | hk
    · rw [getElem?_append_left hk] at hy
      exact hh.reqs k y hy
    · rw [getElem?_append_right hk, getElem?_singleton] at hy
      split at hy
      · cases hy
        rw [minted, show k = h.length by omega, ← hgen]
      · cases hy
  · exact ⟨h, _, rfl, hh.free hfree, rfl, rfl, rfl⟩

/-- The slots hold their requests, and the counts are exact. -/
structure Ledger.Inv (s : Ledger) : Prop where
  counts : Counts s.table
  size : s.table.pend.length ≤ 2 ^ 16
  holds : ∀ (i : Nat) (x : Slot), s.table.pend[i]? = some x → Holds i x (s.past i)

theorem Ledger.Inv.change {s : Ledger} (h : s.Inv) {table : Clpend} {x y : Slot} {l : List Past}
    (hpend : table.pend = s.table.pend.set i y) (hx : s.table.pend[i]? = some x)
    (hcounts : Counts table) (hy : Holds i y l) :
    Ledger.Inv ⟨table, update s.past i l⟩ := by
  refine ⟨hcounts, ?_, fun j z hz => ?_⟩
  · rw [hpend, length_set]
    exact h.size
  · dsimp only at hz ⊢
    rw [hpend, getElem?_set] at hz
    by_cases hij : i = j
    · subst hij
      rw [if_pos rfl, if_pos (List.getElem?_eq_some_iff.mp hx).1] at hz
      rw [update_self, ← some.inj hz]
      exact hy
    · rw [if_neg hij] at hz
      rw [update_of_ne (Ne.symm hij)]
      exact h.holds j z hz

/-- A retire is by the ack of a forward: of a request not answered yet that is no probe, or one no
more. -/
def AckOfForward (s : Ledger) : TableAct → Prop
  | .retire req only =>
    only = true ∧ ∀ i x, s.table.find req = some (i, x) → x.probeOp = none
  | _ => True

theorem Ledger.Inv.step {s s' : Ledger} (h : s.Inv) {act : TableAct} (hok : AckOfForward s act)
    (hs : ledgerStep s act = some s') : s'.Inv := by
  cases act with
  | park a =>
    simp only [ledgerStep, alloc] at hs
    cases hfree : s.table.pend.findIdx? fun x => x.req = 0 with
    | none =>
      rw [hfree] at hs
      cases hs
      exact h
    | some i =>
      obtain ⟨hi, hreq, -⟩ := findIdx?_eq_some_iff_getElem.mp hfree
      have hx : s.table.pend[i]? = some s.table.pend[i] := getElem?_eq_getElem hi
      rw [hfree, map_some, hx] at hs
      cases hs
      have hreq := of_decide_eq_true hreq
      refine h.change rfl hx (h.counts.change hx _ ?_ fun k => ?_) ((h.holds i _ hx).park hreq a)
      · simp [live, hreq, Park.slot, handle]
      · rw [update_apply]
        by_cases hk : k = a.kind
        · simp [live, hreq, Park.slot, handle, hk]
        · simp [live, hreq, Park.slot, hk, Ne.symm hk]
  | answer a =>
    simp only [ledgerStep] at hs
    split at hs
    · cases hs
      exact h
    · rename_i i x hfind
      cases hs
      obtain ⟨hx, -, hlive⟩ := find_eq_some hfind
      have hholds := h.holds i x hx
      obtain ⟨y, hpend, hturn⟩ := answer_turn hfind (hholds.probes hlive)
      exact h.change hpend hx (h.counts.answer a) (hholds.turn hlive hturn)
  | retire req only =>
    simp only [ledgerStep, clpendRetire] at hs
    obtain ⟨rfl, hprobe⟩ := hok
    cases hfind : s.table.find req with
    | none =>
      simp only [hfind] at hs
      cases hs
      exact h
    | some r =>
      obtain ⟨i, x⟩ := r
      simp only [hfind, Bool.true_and] at hs
      cases hans : x.answered with
      | true =>
        simp only [hans, if_true] at hs
        cases hs
        exact h
      | false =>
        simp only [hans, if_false, Bool.false_eq_true] at hs
        cases hs
        obtain ⟨hx, -, hlive⟩ := find_eq_some hfind
        have hholds := h.holds i x hx
        -- a request that was forwarded has no stash
        have hnone := (hholds.probes hlive).1 (hprobe i x hfind)
        obtain ⟨y, hpend, hturn⟩ : ∃ y, (s.table.release i x).pend = s.table.pend.set i y ∧
            Turn x y (some .retired) false :=
          turn_release hlive rfl rfl (atMostOnce_resolved hans (by decide)) hnone (by simp [hnone])
        exact h.change hpend hx (h.counts.release hx hlive rfl rfl) (hholds.turn hlive hturn)
  | expire i now =>
    simp only [ledgerStep, clpendExpire] at hs
    cases hx : s.table.pend[i]? with
    | none =>
      simp only [hx] at hs
      cases hs
      exact h
    | some x =>
      simp only [hx] at hs
      by_cases hdue : x.req ≠ 0 ∧ x.deadlineMs ≤ now
      · rw [if_pos hdue] at hs
        cases hs
        have hholds := h.holds i x hx
        -- one that was answered goes without a timeout
        have hover : AtMostOnce (x.events ++
            (if x.answered then none else some Event.timeout).toList) := by
          cases hans : x.answered with
          | true => simpa using atMostOnce_events x
          | false => exact atMostOnce_resolved hans (by decide)
        obtain ⟨y, hpend, hturn⟩ := turn_release (p := s.table) (i := i) (s := x)
          (t := { x with stash := none }) hdue.1 rfl rfl hover rfl rfl
        exact h.change hpend hx (h.counts.release hx hdue.1 rfl rfl) (hholds.turn hdue.1 hturn)
      · rw [if_neg hdue] at hs
        cases hs
        exact h

theorem ledger_new_inv (asked : Int) : Ledger.Inv ⟨.new asked, fun _ => []⟩ := by
  have hzero : ∀ x ∈ (new asked).pend, x = .zero := fun x hx => eq_of_mem_replicate hx
  refine ⟨⟨?_, fun k => ?_⟩, ?_, fun i x hx => ?_⟩
  · refine (countP_eq_zero.mpr fun x hx => ?_).symm
    simp [hzero x hx, Slot.live, Slot.zero]
  · refine (countP_eq_zero.mpr fun x hx => ?_).symm
    simp [hzero x hx, Slot.live, Slot.zero]
  · simpa [new] using (clpendInit_bounds asked).2
  · rw [hzero x (mem_of_getElem? hx)]
    exact ⟨rfl, by simp, by simp, fun h => absurd rfl h, fun h => absurd rfl h⟩

/-- Two requests with one handle are of one slot, and far apart. -/
theorem minted_inj {i j k l : Nat} (hi : i < 2 ^ 16) (hj : j < 2 ^ 16)
    (h : minted i k = minted j l) :
    i = j ∧ k % 32767 = l % 32767 := by
  simp only [minted, handle, genAt] at h
  omega

/-- **A parked request is resolved at most once, and the counts are exact.** In every run of calls
in which a retire is by the ack of a forward: the counts are those of the live slots; to a request
at most one of a hit, a miss, a resume, a reconcile, a possess, a retire or a timeout happens, and
its forward before that only; its stash is passed out or freed once at most, and has been when its
slot is given another; requests of one handle are of one slot and have at least 32766 others between
them; and until then an answer to an earlier request of the slot is ignored. -/
theorem requests_resolved_once {asked : Int} {acts : List TableAct} {s : Ledger}
    (hok : Along ledgerStep AckOfForward ⟨.new asked, fun _ => []⟩ acts)
    (hrun : run ledgerStep ⟨.new asked, fun _ => []⟩ acts = some s) :
    (s.table.used = s.table.pend.countP live ∧
      ∀ k, s.table.usedKind k = s.table.pend.countP fun x => x.live && x.kind = k) ∧
    ∀ i < s.table.pend.length,
      (∀ x ∈ s.past i, AtMostOnce x.events ∧ x.given ≤ x.stashed.toNat) ∧
      (∀ x ∈ (s.past i).dropLast, x.given = x.stashed.toNat) ∧
      (∀ j < s.table.pend.length, ∀ k l x y, (s.past i)[k]? = some x → (s.past j)[l]? = some y →
        x.req = y.req → i = j ∧ (k < l → k + 32767 ≤ l)) ∧
      ∀ k x, (s.past i)[k]? = some x → k + 1 < (s.past i).length → (s.past i).length ≤ k + 32767 →
        ∀ a : Answer, a.req = x.req → clpendAnswer s.table a = (s.table, .ignore, {}) := by
  have h : s.Inv := run_invariant (I := Ledger.Inv) (fun _ _ _ h hok hs => h.step hok hs)
    (ledger_new_inv asked) hok hrun
  refine ⟨⟨h.counts.used, h.counts.kind⟩, fun i hi => ?_⟩
  have hslot := getElem?_eq_getElem hi
  have hh := h.holds i _ hslot
  generalize s.table.pend[i] = slot at hslot hh
  have hsize := h.size
  refine ⟨fun x hx => ?_, fun x hx => ?_, fun j hj k l x y hx hy hxy => ?_,
    fun k x hx hk hnear a ha => ?_⟩
  · by_cases h0 : slot.req = 0
    · exact ⟨(hh.free h0 x hx).1, (hh.free h0 x hx).2.le⟩
    · obtain ⟨l, y, hl, hover, -, hev, hst⟩ := hh.live h0
      rw [hl] at hx
      rcases mem_append.mp hx with hx | hx
      · exact ⟨(hover x hx).1, (hover x hx).2.le⟩
      · rw [mem_singleton.mp hx, hev]
        exact ⟨atMostOnce_events slot, by omega⟩
  · by_cases h0 : slot.req = 0
    · exact (hh.free h0 x ((dropLast_sublist _).subset hx)).2
    · obtain ⟨l, y, hl, hover, -⟩ := hh.live h0
      rw [hl, dropLast_concat] at hx
      exact (hover x hx).2
  · have hreq := hh.reqs k x hx
    have hreq' := (h.holds j _ (getElem?_eq_getElem hj)).reqs l y hy
    obtain ⟨hij, hmod⟩ := minted_inj (by omega) (by omega) (hreq ▸ hreq' ▸ hxy)
    exact ⟨hij, fun hkl => by omega⟩
  · have hreq := hh.reqs k x hx
    -- a live request of that handle is at least 32767 further on
    have hfind : s.table.find a.req = none := by
      by_contra hne
      obtain ⟨⟨j, y⟩, hfind⟩ := ne_none_iff_exists'.mp hne
      obtain ⟨hy, hyreq, hlive⟩ := find_eq_some hfind
      obtain ⟨l, z, hl, -, hz, -⟩ := (h.holds j y hy).live hlive
      have hlast := (h.holds j y hy).reqs l.length z (by simp [hl])
      have hj := (List.getElem?_eq_some_iff.mp hy).1
      obtain ⟨rfl, hmod⟩ := minted_inj (by omega) (by omega)
        (hreq.symm.trans (ha.symm.trans (hyreq.symm.trans (hz.symm.trans hlast))))
      rw [hl, length_append, length_singleton] at hk hnear
      omega
    unfold clpendAnswer
    rw [hfind]

/-- A probe is parked, a holder answers, its ack comes, and the slot is given another. -/
def probeThenAck : List TableAct :=
  [.park ⟨.pull, 2, 700, 0, 0, 100, [], [], 0, some ⟨.set, some [7#8], 0, 0⟩⟩,
    .answer ⟨handle 1 0, true, 2, 5, 1, 900⟩, .retire (handle 1 0) true,
    .park ⟨.pull, 2, 0, 0, 0, 100, [], [], 0, none⟩]

theorem requests_resolved_once_probe :
    ∃ s, run ledgerStep ⟨.new 64, fun _ => []⟩ probeThenAck = some s ∧
      ∀ x ∈ (s.past 0).dropLast, x.given = x.stashed.toNat := by
  have hok : Along ledgerStep AckOfForward ⟨.new 64, fun _ => []⟩ probeThenAck := by
    refine ⟨trivial, trivial, ⟨rfl, fun i x hx => ?_⟩, trivial, trivial⟩
    cases hx
    rfl
  exact ⟨_, rfl, ((requests_resolved_once hok rfl).2 0 (by decide)).2.1⟩

end Perfcached.Pending
