import Perfcached.Cluster.Term
import Perfcached.Lib.Machine

/-!
# Perfcached.Cluster.Rival

Two masters that hear each other (`handle_master_alive`, `send_master_alive_to` in
`src/cluster.c`).

A master's keepalive carries its term, and its count of live members when it was sent. A master
that hears one yields to a higher term, stays over a lower one, and at the same term compares the
count in the keepalive with its own count now, then the addresses. Keepalives arrive in any order
and after any time.

The two are of one cluster, and their keepalives pass the gates on the wire epoch and the
configuration. A node that yielded joins again, and is master no more.
-/

namespace Perfcached.Cluster.Rival

open Machine List Option Nat

def pcClMaxpeer : Nat := 256

/-- `struct clmemb_malive`, with the address it comes from. -/
structure Malive (α : Type) where
  sender : α
  members : Nat
  term : Nat
  deriving DecidableEq

structure Node (α : Type) where
  addr : α
  /-- `PC_ROLE_MASTER` -/
  master : Bool
  T : Term
  /-- `C.sync.term` -/
  syncTerm : Nat
  /-- `C.map.term` -/
  mapTerm : Nat
  /-- `clpeers_count_live` -/
  live : Nat
  deriving DecidableEq

variable {α : Type}

/-- Two nodes, and the keepalives on their way to each. -/
structure State (α : Type) where
  node : Bool → Node α
  flight : Bool → List (Malive α)

namespace State

def setNode (s : State α) (i : Bool) (n : Node α) : State α :=
  { s with node := Function.update s.node i n }

def setFlight (s : State α) (i : Bool) (ms : List (Malive α)) : State α :=
  { s with flight := Function.update s.flight i ms }

end State

section Parts

variable {s : State α} {i : Bool} {n : Node α} {ms : List (Malive α)}

@[simp] theorem node_setNode_self : (s.setNode i n).node i = n := by simp [State.setNode]

@[simp] theorem node_setNode_not : (s.setNode i n).node (!i) = s.node (!i) := by
  simp [State.setNode]

@[simp] theorem flight_setNode : (s.setNode i n).flight = s.flight := rfl

@[simp] theorem node_setFlight : (s.setFlight i ms).node = s.node := rfl

@[simp] theorem flight_setFlight_self : (s.setFlight i ms).flight i = ms := by
  simp [State.setFlight]

@[simp] theorem flight_setFlight_not : (s.setFlight i ms).flight (!i) = s.flight (!i) := by
  simp [State.setFlight]

@[simp] theorem flight_setFlight_of_not : (s.setFlight (!i) ms).flight i = s.flight i := by
  simp [State.setFlight]

end Parts

variable [LinearOrder α]

namespace Node

/-- `send_master_alive_to`. -/
def masterAlive (n : Node α) : Malive α := ⟨n.addr, n.live + 1, n.T.term⟩

def yieldMastership (n : Node α) : Node α := { n with master := false }

/-- `handle_master_alive`, at a master; the order of addresses is `pc_addr_cmp`'s. -/
def handleMasterAlive (n : Node α) (ok : Bool) (m : Malive α) : Node α :=
  if m.sender = n.addr then n
  else if m.members < 1 ∨ pcClMaxpeer + 1 < m.members then n
  else if n.master = true then
    let mine := n.live + 1
    let mineT := max n.syncTerm n.mapTerm
    if pcTermPlausible n.T m.term = true then
      let n := { n with T := pcTermObserve n.T ok m.term }
      if pcTermMustStepdown true mineT m.term = true then n.yieldMastership
      else if m.term < mineT then n
      else if mine < m.members ∨ (m.members = mine ∧ n.addr < m.sender) then n.yieldMastership
      else n
    else n
  else n

end Node

inductive Act
  /-- a node's count of live members changes -/
  | count (i : Bool) (live : Nat)
  | send (i : Bool)
  /-- a keepalive arrives -/
  | recv (i : Bool) (k : Nat) (ok : Bool)
  deriving DecidableEq

def step (s : State α) : Act → Option (State α)
  | .count i live => some (s.setNode i { s.node i with live })
  | .send i =>
    if (s.node i).master = true then
      some (s.setFlight (!i) (s.flight (!i) ++ [(s.node i).masterAlive]))
    else none
  | .recv i k ok =>
    (s.flight i)[k]?.map fun m =>
      (s.setNode i ((s.node i).handleMasterAlive ok m)).setFlight i ((s.flight i).eraseIdx k)

/-- The count does not change while a keepalive is on its way. -/
def Steady (s : State α) : Act → Prop
  | .count _ _ => ∀ i, s.flight i = []
  | _ => True

instance decidableSteady (s : State α) : DecidablePred (Steady s) := fun a => by
  unfold Steady
  split <;> infer_instance

namespace Node

/-- A node that stands for a term. -/
structure At (t : Nat) (n : Node α) : Prop where
  current : n.T.term = t
  asserted : max n.syncTerm n.mapTerm = t

/-- What `x` counts makes `y` yield to it. -/
def Outranks (x y : Node α) : Prop := y.live < x.live ∨ (x.live = y.live ∧ y.addr < x.addr)

theorem Outranks.asymm {x y : Node α} (h : Outranks x y) : ¬ Outranks y x := by
  rcases h with hlt | ⟨heq, haddr⟩ <;> intro h'
  · rcases h' with hlt' | ⟨heq', -⟩ <;> omega
  · rcases h' with hlt' | ⟨-, haddr'⟩
    · omega
    · exact lt_asymm haddr haddr'

variable {n : Node α} {m : Malive α} {t : Nat} {ok : Bool}

/-- A keepalive of the same term is decided by the counts and the addresses. -/
theorem handleMasterAlive_cases (h : n.At t) (hm : m.term = t) :
    n.handleMasterAlive ok m = n ∨
      n.master = true ∧ (n.live + 1 < m.members ∨ (m.members = n.live + 1 ∧ n.addr < m.sender)) ∧
        n.handleMasterAlive ok m = n.yieldMastership := by
  have hle : m.term ≤ n.T.term := le_of_eq (hm.trans h.current.symm)
  have hT : pcTermObserve n.T ok m.term = n.T := if_pos hle
  have hdown : ¬ pcTermMustStepdown true (max n.syncTerm n.mapTerm) m.term = true := by
    simp [pcTermMustStepdown, h.asserted, hm]
  have hstale : ¬ m.term < max n.syncTerm n.mapTerm := by
    rw [h.asserted, hm]
    exact lt_irrefl t
  unfold handleMasterAlive
  split
  · exact .inl rfl
  · split
    · exact .inl rfl
    · split
      · rename_i hmaster
        dsimp only
        rw [hT, if_neg hdown, if_neg hstale]
        split
        · split
          · rename_i hrank
            exact .inr ⟨hmaster, hrank, rfl⟩
          · exact .inl rfl
        · exact .inl rfl
      · exact .inl rfl

end Node

/-- What is on its way says what its sender counts, and one who yielded is outranked as long as a
keepalive of it is on its way. -/
structure Inv (t : Nat) (s : State α) : Prop where
  at' : ∀ i, (s.node i).At t
  flight : ∀ i, ∀ m ∈ s.flight i, m = (s.node (!i)).masterAlive
  yielded : ∀ i, (s.node i).master = false →
    (s.node (!i)).master = true ∧ (s.flight (!i) ≠ [] → (s.node (!i)).Outranks (s.node i))

variable {t : Nat} {s s' : State α} {i : Bool}

theorem forall_node {P : Bool → Prop} (i : Bool) (h : P i) (h' : P (!i)) : ∀ j, P j := by
  intro j
  cases i <;> cases j <;> assumption

theorem Inv.count {live : Nat} (h : Inv t s) (hflight : ∀ i, s.flight i = []) :
    Inv t (s.setNode i { s.node i with live }) := by
  refine ⟨?_, fun j m hm => ?_, ?_⟩
  · refine forall_node i ?_ ?_
    · rw [node_setNode_self]
      exact ⟨(h.at' i).current, (h.at' i).asserted⟩
    · rw [node_setNode_not]
      exact h.at' _
  · rw [flight_setNode, hflight] at hm
    cases hm
  · refine forall_node i ?_ ?_
    · rw [node_setNode_self, node_setNode_not]
      exact fun hi => ⟨(h.yielded i hi).1, fun hne => absurd (hflight _) hne⟩
    · rw [Bool.not_not, node_setNode_self, node_setNode_not]
      intro hi
      have hstays := (h.yielded (!i) hi).1
      rw [Bool.not_not] at hstays
      exact ⟨hstays, fun hne => absurd (hflight _) hne⟩

theorem Inv.send (h : Inv t s) (hmaster : (s.node i).master = true) :
    Inv t (s.setFlight (!i) (s.flight (!i) ++ [(s.node i).masterAlive])) := by
  refine ⟨h.at', ?_, ?_⟩
  · refine forall_node i ?_ ?_
    · rw [flight_setFlight_of_not]
      exact h.flight i
    · rw [flight_setFlight_self, Bool.not_not]
      intro m hm
      rcases mem_append.mp hm with hm | hm
      · have hm' := h.flight (!i) m hm
        rwa [Bool.not_not] at hm'
      · exact mem_singleton.mp hm
  · refine forall_node i (fun hi => absurd hi (by simp [hmaster])) fun hi => ?_
    rw [Bool.not_not, flight_setFlight_of_not]
    have hy := h.yielded (!i) hi
    rwa [Bool.not_not] at hy

/-- What is left on its way is as it was sent, whatever the receiver becomes. -/
theorem Inv.flight_recv {n : Node α} {k : Nat} (h : Inv t s)
    (hn : n.masterAlive = (s.node i).masterAlive) : ∀ j,
    ∀ m ∈ ((s.setNode i n).setFlight i ((s.flight i).eraseIdx k)).flight j,
      m = (((s.setNode i n).setFlight i ((s.flight i).eraseIdx k)).node (!j)).masterAlive := by
  refine forall_node i ?_ ?_
  · rw [flight_setFlight_self, node_setFlight, node_setNode_not]
    exact fun m hm => h.flight i m (mem_of_mem_eraseIdx hm)
  · rw [flight_setFlight_not, node_setFlight, Bool.not_not, node_setNode_self, hn]
    intro m hm
    have hm' := h.flight (!i) m hm
    rwa [Bool.not_not] at hm'

/-- A master that is outranked yields to one that stays. -/
theorem Inv.recv {k : Nat} {m : Malive α} {ok : Bool} (h : Inv t s)
    (hm : (s.flight i)[k]? = some m) :
    Inv t ((s.setNode i ((s.node i).handleMasterAlive ok m)).setFlight i
      ((s.flight i).eraseIdx k)) := by
  have hmem : m ∈ s.flight i := mem_of_getElem? hm
  have hsent := h.flight i m hmem
  have hterm : m.term = t := by
    rw [hsent]
    exact (h.at' (!i)).current
  rcases (s.node i).handleMasterAlive_cases (h.at' i) hterm with hsame | ⟨hmaster, hrank, hyield⟩
  · rw [hsame]
    refine ⟨?_, h.flight_recv rfl, ?_⟩
    · refine forall_node i ?_ ?_
      · rw [node_setFlight, node_setNode_self]
        exact h.at' i
      · rw [node_setFlight, node_setNode_not]
        exact h.at' _
    · refine forall_node i (fun hi => ?_) fun hi => ?_
      · rw [node_setFlight, node_setNode_self] at hi ⊢
        rw [node_setNode_not, flight_setFlight_not]
        exact h.yielded i hi
      · rw [node_setFlight, node_setNode_not] at hi
        obtain ⟨hother, hout⟩ := h.yielded (!i) hi
        rw [Bool.not_not] at hother hout
        rw [Bool.not_not, node_setFlight, node_setNode_self, node_setNode_not]
        exact ⟨hother, fun _ => hout (ne_nil_of_mem hmem)⟩
  · rw [hyield]
    have hout : (s.node (!i)).Outranks (s.node i) := by
      rw [hsent] at hrank
      rcases hrank with hlt | ⟨heq, haddr⟩
      · exact .inl (lt_of_succ_lt_succ hlt)
      · exact .inr ⟨succ.inj heq, haddr⟩
    -- the other did not yield: this keepalive was on its way then
    have hstays : (s.node (!i)).master = true := by
      by_contra hnot
      have hy := (h.yielded (!i) (Bool.not_eq_true _ ▸ hnot)).2
      rw [Bool.not_not] at hy
      exact hout.asymm (hy (ne_nil_of_mem hmem))
    refine ⟨?_, h.flight_recv rfl, ?_⟩
    · refine forall_node i ?_ ?_
      · rw [node_setFlight, node_setNode_self]
        exact ⟨(h.at' i).current, (h.at' i).asserted⟩
      · rw [node_setFlight, node_setNode_not]
        exact h.at' _
    · refine forall_node i (fun _ => ?_) fun hi => ?_
      · rw [node_setFlight, node_setNode_self, node_setNode_not]
        exact ⟨hstays, fun _ => hout⟩
      · rw [node_setFlight, node_setNode_not, hstays] at hi
        cases hi

theorem Inv.step {a : Act} (h : Inv t s) (hsteady : Steady s a)
    (hstep : step s a = some s') : Inv t s' := by
  cases a with
  | count i live =>
    cases hstep
    exact h.count hsteady
  | send i =>
    obtain ⟨hmaster, ⟨⟩⟩ := ite_none_right_eq_some.mp hstep
    exact h.send hmaster
  | recv i k ok =>
    obtain ⟨m, hm, rfl⟩ := map_eq_some_iff.mp hstep
    exact h.recv hm

/-- Of two masters at the same term one stays, as long as their counts do not change while a
keepalive is on its way. -/
theorem one_stays_master (node : Bool → Node α) (t : Nat) (hmaster : ∀ i, (node i).master = true)
    (ht : ∀ i, (node i).At t) (acts : List Act) (s : State α)
    (hrun : run Rival.step ⟨node, fun _ => []⟩ acts = some s)
    (hsteady : Along Rival.step Steady ⟨node, fun _ => []⟩ acts) :
    ∃ i, (s.node i).master = true := by
  have hinit : Inv t (⟨node, fun _ => []⟩ : State α) :=
    ⟨ht, nofun, fun i hi => absurd hi (by simp [hmaster])⟩
  have hkept : ∀ (s : State α) a s', Inv t s → Steady s a → Rival.step s a = some s' → Inv t s' :=
    fun _ _ _ h hs hstep => h.step hs hstep
  have h : Inv t s := run_invariant hkept hinit hsteady hrun
  by_cases hi : (s.node false).master = true
  · exact ⟨false, hi⟩
  · exact ⟨true, (h.yielded false (Bool.not_eq_true _ ▸ hi)).1⟩

/-- Two masters at term 3, with two and four live members beside them. -/
def rivals (i : Bool) : Node Nat := ⟨cond i 2 1, true, ⟨3, 3⟩, 3, 2, cond i 4 2⟩

theorem one_stays_master_rivals : ∃ s, run step ⟨rivals, fun _ => []⟩
        [.send true, .send false, .recv true 0 true, .recv false 0 true, .count true 1] = some s ∧
      (s.node false).master = false ∧ ∃ i, (s.node i).master = true := by
  have hrun : ((run step ⟨rivals, fun _ => []⟩
      [.send true, .send false, .recv true 0 true, .recv false 0 true, .count true 1]).map
        fun s => (s.node false).master) = some false := by decide
  obtain ⟨s, hs, hyielded⟩ := map_eq_some_iff.mp hrun
  exact ⟨s, hs, hyielded, one_stays_master rivals 3 (by decide)
    (fun i => ⟨by cases i <;> rfl, by cases i <;> rfl⟩) _ s hs (by decide)⟩

/-- Node `true` loses three members after its keepalive has left. -/
theorem both_yield : (run step ⟨rivals, fun _ => []⟩
      [.send true, .count true 1, .send false, .recv true 0 true, .recv false 0 true]).map
        (fun s => ((s.node false).master, (s.node true).master)) = some (false, false) := by
  decide

end Perfcached.Cluster.Rival
