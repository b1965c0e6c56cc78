import Perfcached.Cluster.Term
import Perfcached.Lib.Machine

/-!
# Perfcached.Cluster.TermFile

The term in its file (`term_store`, `pc_term_init` in `src/clterm.c`), over crashes.

A store writes a temporary file, syncs it, renames it into place and syncs the directory. Until the
directory is synced a crash may leave what the name stood for before. `term_store` says that it
failed when one of the first steps fails; whether the directory was opened and synced it does not
ask. `Sound` says that it was, that at the start a file that is there can be opened and a crash
would not take it back, and that the term of a map the node takes is stored: that of a map that
arrives by the store before it, and that of a change taken over at a promotion, which
`handle_clsync` does not store, by the claim.

`now` is what the name stands for while the machine runs, and `left` is what a crash may leave. Over
the lives of the process its history is kept: the terms `pc_term_claim` returned and those of the
maps it took.
-/

namespace Perfcached.Cluster.TermFile

open Machine List

/-! ### The file -/

inductive Content
  | absent
  /-- the magic and the term, in eight bytes -/
  | legacy (term : Nat)
  | text (term : Nat)
  /-- what `term_parse` refuses -/
  | other
  deriving DecidableEq

/-- The term it stands for. -/
def Content.term : Content → Nat
  | .legacy t | .text t => t
  | .absent | .other => 0

/-- A start from it does not go below a term. -/
def Content.Covers (t : Nat) (c : Content) : Prop := c = .other ∨ t ≤ c.term
  deriving Decidable

structure Dir where
  now : Content
  left : List Content
  deriving DecidableEq

/-- The first operation of a store that fails. -/
inductive Fault
  | openTmp
  | write
  | fsync
  | rename
  | openDir
  | fsyncDir
  deriving DecidableEq

def termStore (d : Dir) (t : Nat) : Option Fault → Bool × Dir
  | some .openTmp | some .write | some .fsync | some .rename => (false, d)
  | some .openDir | some .fsyncDir => (true, ⟨.text t, .text t :: d.left⟩)
  | none => (true, ⟨.text t, [.text t]⟩)

/-- What fails in `pc_term_init` before a store. -/
inductive InitFault
  | openFile
  | readFile
  deriving DecidableEq

/-- `pc_term_init`; `none` is its -1, at which the daemon does not start. -/
def pcTermInit (d : Dir) (fault : Option InitFault) (store : Option Fault) : Option Term × Dir :=
  let first := (some (Cluster.pcTermInit 0), (termStore d 0 store).2)
  if d.now = .absent ∨ fault = some .openFile then first
  else if fault = some .readFile then (none, d)
  else
    match d.now with
    | .legacy t =>
      match termStore d t store with
      | (true, d) => (some (Cluster.pcTermInit t), d)
      | (false, d) => (none, d)
    | .text t => (some (Cluster.pcTermInit t), d)
    | _ => (none, d)

/-- `pc_term_observe`, with the store in it. -/
def pcTermObserve (T : Term) (d : Dir) (seen : Nat) (store : Option Fault) : Term × Dir :=
  if T.term < seen ∧ pcTermPlausible T seen = true then
    let (ok, d) := termStore d seen store
    (Cluster.pcTermObserve T ok seen, d)
  else (T, d)

/-- `pc_term_claim`, with the store in it. -/
def pcTermClaim (T : Term) (d : Dir) (store : Option Fault) : Option Nat × Term × Dir :=
  let next := (T.term + 1) % 2 ^ 32
  if next < T.term then (none, T, d)
  else
    let (ok, d) := termStore d next store
    let (t, T) := Cluster.pcTermClaim T ok
    (t, T, d)

/-! ### The lives of a node -/

structure Node where
  T : Term
  /-- the epoch of the map it has -/
  map : Option Epoch
  /-- the epoch of the change it holds for the master and owes the fleet -/
  owed : Option Epoch
  deriving DecidableEq

inductive Event
  | claimed (term : Nat)
  | adopted (term : Nat)
  deriving DecidableEq

def Event.term : Event → Nat
  | .claimed t | .adopted t => t

structure State where
  dir : Dir
  /-- the process, while it runs -/
  node : Option Node
  history : List Event
  deriving DecidableEq

inductive Act
  | boot (fault : Option InitFault) (store : Option Fault)
  /-- a beacon's term -/
  | observe (seen : Nat) (store : Option Fault)
  /-- `handle_clmap` -/
  | clmap (term seq : Nat) (store : Option Fault)
  /-- `handle_clsync` -/
  | clsync (term seq : Nat)
  | becomeMaster (store : Option Fault)
  /-- the process ends, perhaps in a store whose rename was done -/
  | stop (storing : Option Nat)
  /-- the machine does, and leaves one of what it may -/
  | crash (left : Content)
  deriving DecidableEq

/-- The terms that a store under way may be of. -/
def State.storing (s : State) (t : Nat) : Bool :=
  match s.node with
  | some n => decide (n.T.term < t) && pcTermPlausible n.T t
  | none => decide (s.dir.now = .absent ∧ t = 0 ∨ s.dir.now = .legacy t)

/-- `pc_clsync_saw`: what is owed after a map has come. -/
def Node.saw (n : Node) (e : Epoch) : Option Epoch := n.owed.filter fun o => decide (Newer o e)

/-- The claim in `become_master`, and what the node does by it: a change it owes becomes its map. -/
def Node.promote (n : Node) (d : Dir) (store : Option Fault) : Node × Dir × List Event :=
  match pcTermClaim n.T d store with
  | (none, T, d) => ({ n with T }, d, [])
  | (some t, T, d) =>
    (⟨T, n.owed.or n.map, none⟩, d, .claimed t :: (n.owed.map fun o => .adopted o.1).toList)

def step (s : State) : Act → Option State
  | .boot fault store =>
    if s.node = none then
      match pcTermInit s.dir fault store with
      | (T, dir) => some { s with dir, node := T.map fun T => ⟨T, none, none⟩ }
    else none
  | .observe seen store =>
    s.node.map fun n =>
      match pcTermObserve n.T s.dir seen store with
      | (T, dir) => { s with dir, node := some { n with T } }
  | .clmap term seq store =>
    s.node.map fun n =>
      if pcTermPlausible n.T term = true then
        match pcTermObserve n.T s.dir term store with
        | (T, dir) =>
          -- the result of `pc_term_observe` is not read
          if isNewer n.map (term, seq) = true then
            { s with
              dir
              node := some ⟨T, some (term, seq), n.saw (term, seq)⟩
              history := s.history ++ [.adopted term] }
          else { s with dir, node := some { n with T } }
      else s
  | .clsync term seq => s.node.map fun n => { s with node := some { n with owed := (term, seq) } }
  | .becomeMaster store =>
    s.node.map fun n =>
      match n.promote s.dir store with
      | (n, dir, events) => { s with dir, node := some n, history := s.history ++ events }
  | .stop none => some { s with node := none }
  | .stop (some t) =>
    if s.storing t = true then
      some { s with dir := ⟨.text t, .text t :: s.dir.left⟩, node := none }
    else none
  | .crash left =>
    if left ∈ s.dir.left then some { s with dir := ⟨left, [left]⟩, node := none } else none

/-- A node with a state directory, before its first start. -/
def init (c : Content) : State := ⟨⟨c, [c]⟩, none, []⟩

/-- The directory is synced. -/
def Synced (store : Option Fault) : Prop := store ≠ some .openDir ∧ store ≠ some .fsyncDir
  deriving Decidable

/-- A file that is there is opened, and a crash does not take it back; after a rename the directory
is synced; the term of a map that arrives and is taken is stored; and what a node owes when it is
promoted is of no higher term than the one it claims. -/
def Sound (s : State) : Act → Prop
  | .boot fault _ => (fault = some .openFile → s.dir.now = .absent) ∧
      ∀ c ∈ s.dir.left, c.Covers s.dir.now.term
  | .observe _ store => Synced store
  | .clmap term seq store => Synced store ∧
      ∀ n ∈ s.node, n.T.term < term → isNewer n.map (term, seq) = true → store = none
  | .becomeMaster store => Synced store ∧ ∀ n ∈ s.node, ∀ o ∈ n.owed, o.1 ≤ n.T.term + 1
  | .clsync _ _ | .stop _ | .crash _ => True

instance decidableSound (s : State) : DecidablePred (Sound s) := fun a => by
  unfold Sound
  split <;> infer_instance

/-! ### What the functions do -/

section Functions

variable {T : Term} {d : Dir} {t seen : Nat} {store : Option Fault}

theorem Content.Covers.mono {c : Content} {t' : Nat} (h : c.Covers t) (hle : t' ≤ t) :
    c.Covers t' :=
  h.imp_right fun hc => Nat.le_trans hle hc

theorem covers_text {u : Nat} (hle : t ≤ u) : (Content.text u).Covers t := .inr hle

theorem termStore_cases (hsynced : Synced store) : termStore d t store = (false, d) ∨
      termStore d t store = (true, ⟨.text t, [.text t]⟩) := by
  cases store with
  | none => exact .inr rfl
  | some fault =>
    cases fault with
    | openTmp | write | fsync | rename => exact .inl rfl
    | openDir => exact absurd rfl hsynced.1
    | fsyncDir => exact absurd rfl hsynced.2

/-- What a store leaves stands for what there was, or for its term. -/
theorem termStore_left {c : Content}
    (hc : c ∈ (termStore d t store).2.now :: (termStore d t store).2.left) :
    c = .text t ∨ c ∈ d.now :: d.left := by
  unfold termStore at hc
  split at hc
  · exact .inr hc
  · exact .inr hc
  · exact .inr hc
  · exact .inr hc
  · simp only [mem_cons] at hc ⊢
    tauto
  · simp only [mem_cons] at hc ⊢
    tauto
  · simp only [mem_cons, not_mem_nil, or_false, or_self] at hc
    exact .inl hc

theorem pcTermObserve_cases (hsynced : Synced store) :
    pcTermObserve T d seen store = (T, d) ∨ T.term < seen ∧
      pcTermObserve T d seen store = (⟨seen, seen⟩, ⟨.text seen, [.text seen]⟩) := by
  unfold pcTermObserve
  split
  · rename_i h
    have hlt : ¬ seen ≤ T.term := Nat.not_le_of_lt h.1
    rcases termStore_cases (d := d) (t := seen) hsynced with heq | heq
    · left
      simp [heq, Cluster.pcTermObserve]
    · refine .inr ⟨h.1, ?_⟩
      simp [heq, Cluster.pcTermObserve, hlt, h.2]
  · exact .inl rfl

/-- A store that nothing fails in raises the term to what was seen. -/
theorem pcTermObserve_le (hjump : pcTermPlausible T seen = true)
    (hstored : T.term < seen → store = none) : seen ≤ (pcTermObserve T d seen store).1.term := by
  unfold pcTermObserve
  by_cases hlt : T.term < seen
  · have hnot : ¬ seen ≤ T.term := Nat.not_le_of_lt hlt
    simp [hlt, hjump, hstored hlt, termStore, Cluster.pcTermObserve, hnot]
  · simp [hlt]
    omega

theorem pcTermClaim_cases (hsynced : Synced store) : pcTermClaim T d store = (none, T, d) ∨
      pcTermClaim T d store = (some (T.term + 1), ⟨T.term + 1, T.term + 1⟩,
        ⟨.text (T.term + 1), [.text (T.term + 1)]⟩) := by
  unfold pcTermClaim
  dsimp only
  split
  · exact .inl rfl
  · rename_i hwrap
    have hnext : (T.term + 1) % 2 ^ 32 = T.term + 1 := by omega
    rw [hnext] at hwrap
    rcases termStore_cases (d := d) (t := T.term + 1) hsynced with heq | heq
    · left
      simp only [hnext, heq, Cluster.pcTermClaim, hwrap, if_false, Bool.false_eq_true]
    · right
      simp only [hnext, heq, Cluster.pcTermClaim, hwrap, if_false, if_true]

/-- A start, if it succeeds, is at the term the file stands for. -/
theorem pcTermInit_spec {fault : Option InitFault} (store : Option Fault)
    (hopen : fault = some .openFile → d.now = .absent) :
    ((pcTermInit d fault store).1 = none ∨
      d.now ≠ .other ∧ (pcTermInit d fault store).1 = some (Cluster.pcTermInit d.now.term)) ∧
    ∀ c ∈ (pcTermInit d fault store).2.now :: (pcTermInit d fault store).2.left,
      c ∈ d.now :: d.left ∨ d.now ≠ .other ∧ c = .text d.now.term := by
  unfold pcTermInit
  split
  · rename_i hfirst
    have habsent : d.now = .absent := hfirst.elim id hopen
    have hne : d.now ≠ .other := by rw [habsent]; simp
    have hzero : d.now.term = 0 := by rw [habsent]; rfl
    rw [hzero]
    exact ⟨.inr ⟨hne, rfl⟩, fun c hc => (termStore_left hc).symm.imp_right fun h => ⟨hne, h⟩⟩
  · split
    · exact ⟨.inl rfl, fun c hc => .inl hc⟩
    · split
      · rename_i t hlegacy
        have hne : d.now ≠ .other := by rw [hlegacy]; simp
        have hterm : d.now.term = t := by rw [hlegacy]; rfl
        have hleft : ∀ c ∈ (termStore d t store).2.now :: (termStore d t store).2.left,
            c ∈ d.now :: d.left ∨ d.now ≠ .other ∧ c = .text t := fun c hc =>
          (termStore_left hc).symm.imp_right fun h => ⟨hne, h⟩
        rw [hterm]
        split
        · rename_i d' heq
          rw [heq] at hleft
          exact ⟨.inr ⟨hne, rfl⟩, hleft⟩
        · rename_i d' heq
          rw [heq] at hleft
          exact ⟨.inl rfl, hleft⟩
      · rename_i t htext
        rw [htext]
        exact ⟨.inr ⟨by simp, rfl⟩, fun c hc => .inl hc⟩
      · exact ⟨.inl rfl, fun c hc => .inl hc⟩

end Functions

/-! ### Over the lives of a node -/

/-- What the directory has and what a crash may leave is not below the node's term, nor below what
the node did; and a claim is above what came before. -/
structure Inv (s : State) : Prop where
  history : ∀ c ∈ s.dir.now :: s.dir.left, ∀ e ∈ s.history, c.Covers e.term
  term : ∀ n ∈ s.node, ∀ c ∈ s.dir.now :: s.dir.left, c.Covers n.T.term
  node : ∀ n ∈ s.node, ∀ e ∈ s.history, e.term ≤ n.T.term
  past : s.history.Pairwise fun e e' => (∃ t, e' = .claimed t) → e.term < e'.term

section Lives

variable {s s' : State} {n : Node}

theorem Inv.stop (h : Inv s) : Inv { s with node := none } :=
  ⟨h.history, nofun, nofun, h.past⟩

theorem Inv.stopStoring {t : Nat} (h : Inv s) (hstoring : s.storing t = true) :
    Inv { s with dir := ⟨.text t, .text t :: s.dir.left⟩, node := none } := by
  refine ⟨fun c hc e he => ?_, nofun, nofun, h.past⟩
  have hle : e.term ≤ t := by
    unfold State.storing at hstoring
    cases hnode : s.node with
    | some n =>
      rw [hnode] at hstoring
      simp only [Bool.and_eq_true, decide_eq_true_eq] at hstoring
      exact Nat.le_trans (h.node n hnode e he) (Nat.le_of_lt hstoring.1)
    | none =>
      rw [hnode] at hstoring
      have hnow := h.history s.dir.now mem_cons_self e he
      rcases of_decide_eq_true hstoring with ⟨habsent, ht⟩ | hlegacy
      · rw [habsent] at hnow
        exact Nat.le_trans (hnow.resolve_left (by simp)) (Nat.zero_le t)
      · rw [hlegacy] at hnow
        exact hnow.resolve_left (by simp)
  simp only [mem_cons] at hc
  rcases hc with rfl | rfl | hc
  · exact covers_text hle
  · exact covers_text hle
  · exact h.history c (mem_cons_of_mem _ hc) e he

theorem Inv.crash {left : Content} (h : Inv s) (hleft : left ∈ s.dir.left) :
    Inv { s with dir := ⟨left, [left]⟩, node := none } := by
  refine ⟨fun c hc => ?_, nofun, nofun, h.past⟩
  have hc : c = left := by simpa using hc
  rw [hc]
  exact h.history left (mem_cons_of_mem _ hleft)

variable {store : Option Fault}

section

variable (h : Inv s)
include h

theorem Inv.boot {fault : Option InitFault} (hopen : fault = some .openFile → s.dir.now = .absent)
    (hleft : ∀ c ∈ s.dir.left, c.Covers s.dir.now.term) :
    Inv { s with
      dir := (pcTermInit s.dir fault store).2
      node := (pcTermInit s.dir fault store).1.map fun T => ⟨T, none, none⟩ } := by
  obtain ⟨hT, hdir⟩ := pcTermInit_spec store hopen
  have hle : s.dir.now ≠ .other → ∀ e ∈ s.history, e.term ≤ s.dir.now.term := fun hne e he =>
    (h.history _ mem_cons_self e he).resolve_left hne
  have hcovers : ∀ c ∈ (pcTermInit s.dir fault store).2.now ::
      (pcTermInit s.dir fault store).2.left, c.Covers s.dir.now.term := by
    intro c hc
    rcases hdir c hc with hold | ⟨-, rfl⟩
    · rcases mem_cons.mp hold with rfl | hold
      · exact .inr le_rfl
      · exact hleft c hold
    · exact covers_text le_rfl
  refine ⟨fun c hc e he => ?_, ?_, ?_, h.past⟩
  · rcases hdir c hc with hold | ⟨hne, rfl⟩
    · exact h.history c hold e he
    · exact covers_text (hle hne e he)
  · intro n hn
    obtain ⟨T, hsome, rfl⟩ := Option.map_eq_some_iff.mp hn
    rcases hT with hnone | ⟨-, hterm⟩
    · cases hnone.symm.trans hsome
    · obtain rfl := Option.some.inj (hterm.symm.trans hsome)
      exact hcovers
  · intro n hn
    obtain ⟨T, hsome, rfl⟩ := Option.map_eq_some_iff.mp hn
    rcases hT with hnone | ⟨hne, hterm⟩
    · cases hnone.symm.trans hsome
    · obtain rfl := Option.some.inj (hterm.symm.trans hsome)
      exact hle hne

section

variable (hn : s.node = some n)
include hn

/-- The term is what it was, or above it and stored. -/
theorem Inv.raise {T : Term} {dir : Dir}
    (hor : T = n.T ∧ dir = s.dir ∨ n.T.term < T.term ∧ dir = ⟨.text T.term, [.text T.term]⟩) :
    Inv { s with dir, node := some { n with T } } := by
  rcases hor with ⟨rfl, rfl⟩ | ⟨hlt, rfl⟩
  · have hsame : ({ s with dir := s.dir, node := some { n with T := n.T } } : State) = s := by
      rw [← hn]
    rw [hsame]
    exact h
  · have hle : ∀ e ∈ s.history, e.term ≤ T.term := fun e he =>
      Nat.le_trans (h.node n hn e he) (Nat.le_of_lt hlt)
    have hdir : ∀ t ≤ T.term, ∀ c ∈ [Content.text T.term, .text T.term], c.Covers t := by
      intro t ht c hc
      have hc : c = .text T.term := by simpa using hc
      rw [hc]
      exact covers_text ht
    refine ⟨fun c hc e he => hdir _ (hle e he) c hc, ?_, ?_, h.past⟩
    · intro n' hn'
      obtain rfl := Option.some.inj hn'
      exact hdir _ le_rfl
    · intro n' hn'
      obtain rfl := Option.some.inj hn'
      exact hle

theorem Inv.observe {seen : Nat} (hsynced : Synced store) :
    Inv { s with
      dir := (pcTermObserve n.T s.dir seen store).2
      node := some { n with T := (pcTermObserve n.T s.dir seen store).1 } } := by
  refine h.raise hn ?_
  rcases pcTermObserve_cases hsynced with heq | ⟨hlt, heq⟩
  · rw [heq]
    exact .inl ⟨rfl, rfl⟩
  · rw [heq]
    exact .inr ⟨hlt, rfl⟩

/-- What the node does is not above its term, and a claim is above what came before. -/
theorem Inv.happen {e : Event} (hle : e.term ≤ n.T.term)
    (hnew : (∃ t, e = .claimed t) → ∀ e' ∈ s.history, e'.term < e.term) :
    Inv { s with history := s.history ++ [e] } := by
  refine ⟨fun c hc e' he' => ?_, h.term, fun n' hn' e' he' => ?_, ?_⟩
  · rcases mem_append.mp he' with he' | he'
    · exact h.history c hc e' he'
    · rw [mem_singleton.mp he']
      exact (h.term n hn c hc).mono hle
  · rcases mem_append.mp he' with he' | he'
    · exact h.node n' hn' e' he'
    · obtain rfl := Option.some.inj (hn.symm.trans hn')
      rw [mem_singleton.mp he']
      exact hle
  · refine pairwise_append.mpr ⟨h.past, pairwise_singleton _ _, ?_⟩
    intro e' he' e'' he'' hclaim
    rw [mem_singleton.mp he''] at hclaim ⊢
    exact hnew hclaim e' he'

/-- The node's map and what it owes do not matter. -/
theorem Inv.hold (map owed : Option Epoch) : Inv { s with node := some { n with map, owed } } := by
  refine ⟨h.history, fun n' hn' => ?_, fun n' hn' => ?_, h.past⟩
  · cases hn'
    exact h.term n hn
  · cases hn'
    exact h.node n hn

theorem Inv.promote (hsynced : Synced store) (howed : ∀ o ∈ n.owed, o.1 ≤ n.T.term + 1) :
    Inv { s with
      dir := (n.promote s.dir store).2.1
      node := some (n.promote s.dir store).1
      history := s.history ++ (n.promote s.dir store).2.2 } := by
  unfold Node.promote
  rcases pcTermClaim_cases hsynced with heq | heq
  · rw [heq, append_nil]
    exact h.raise hn (.inl ⟨rfl, rfl⟩)
  · rw [heq]
    have hraised := h.raise (T := ⟨n.T.term + 1, n.T.term + 1⟩) hn (.inr ⟨Nat.lt_succ_self _, rfl⟩)
    have hclaimed := hraised.happen (e := .claimed (n.T.term + 1)) rfl le_rfl
      fun _ e' he' => Nat.lt_succ_of_le (h.node n hn e' he')
    -- the claim comes before the change that is taken over
    cases ho : n.owed with
    | none => exact hclaimed.hold rfl _ _
    | some o =>
      have hadopted := (hclaimed.hold rfl (some o) none).happen
        (e := .adopted o.1) rfl (howed o ho) fun ⟨_, hclaim⟩ => (nomatch hclaim)
      rwa [append_assoc] at hadopted

theorem Inv.clmap {term seq : Nat} (hjump : pcTermPlausible n.T term = true)
    (hsynced : Synced store) (hstored : n.T.term < term → store = none) :
    Inv { s with
      dir := (pcTermObserve n.T s.dir term store).2
      node := some ⟨(pcTermObserve n.T s.dir term store).1, some (term, seq), n.saw (term, seq)⟩
      history := s.history ++ [.adopted term] } :=
  ((h.observe hn hsynced).hold rfl _ _).happen rfl (pcTermObserve_le hjump hstored)
    fun ⟨_, hclaim⟩ => (nomatch hclaim)

end

theorem Inv.step {a : Act} (hsound : Sound s a) (hstep : TermFile.step s a = some s') : Inv s' := by
  cases a with
  | boot fault store =>
    simp only [TermFile.step, Option.ite_none_right_eq_some, Option.some.injEq] at hstep
    obtain ⟨-, rfl⟩ := hstep
    exact h.boot hsound.1 hsound.2
  | observe seen store =>
    obtain ⟨n, hn, rfl⟩ := Option.map_eq_some_iff.mp hstep
    exact h.observe hn hsound
  | clmap term seq store =>
    obtain ⟨n, hn, rfl⟩ := Option.map_eq_some_iff.mp hstep
    split
    · rename_i hjump
      dsimp only
      split
      · rename_i hnewer
        exact h.clmap hn hjump hsound.1 fun hlt => hsound.2 n hn hlt hnewer
      · exact h.observe hn hsound.1
    · exact h
  | clsync term seq =>
    obtain ⟨n, hn, rfl⟩ := Option.map_eq_some_iff.mp hstep
    exact h.hold hn _ _
  | becomeMaster store =>
    obtain ⟨n, hn, rfl⟩ := Option.map_eq_some_iff.mp hstep
    exact h.promote hn hsound.1 (hsound.2 n hn)
  | stop storing =>
    cases storing with
    | none =>
      cases hstep
      exact h.stop
    | some t =>
      simp only [TermFile.step, Option.ite_none_right_eq_some, Option.some.injEq] at hstep
      obtain ⟨hstoring, rfl⟩ := hstep
      exact h.stopStoring hstoring
  | crash left =>
    simp only [TermFile.step, Option.ite_none_right_eq_some, Option.some.injEq] at hstep
    obtain ⟨hleft, rfl⟩ := hstep
    exact h.crash hleft

end

/-- Every term that `pc_term_claim` returns is above those it returned before and those of the maps
taken before, in any life of the node. -/
theorem claim_is_new (c : Content) (acts : List Act) (s : State)
    (hrun : run TermFile.step (init c) acts = some s)
    (hsound : Along TermFile.step Sound (init c) acts) :
    s.history.Pairwise fun e e' => (∃ t, e' = .claimed t) → e.term < e'.term := by
  have hinit : Inv (init c) := ⟨nofun, nofun, nofun, Pairwise.nil⟩
  exact (run_invariant (fun _ _ _ h hok hstep => h.step hok hstep) hinit hsound hrun).past

/-- A node claims, takes a map, is killed in a store and claims again after a crash, now with a
change it owes. -/
def lives : List Act :=
  [.boot none none, .becomeMaster none, .clmap 8 1 none, .becomeMaster (some .rename),
    .stop (some 9), .crash (.text 8), .boot none none, .clsync 8 2, .becomeMaster none]

theorem claim_is_new_lives : ∃ s, run step (init (.legacy 4)) lives = some s ∧
      s.history = [.claimed 5, .adopted 8, .claimed 9, .adopted 8] ∧
      s.history.Pairwise fun e e' => (∃ t, e' = .claimed t) → e.term < e'.term :=
  ⟨_, rfl, by decide, claim_is_new (.legacy 4) lives _ rfl (by decide)⟩

/-- The directory is not synced after a claim, and a crash takes the rename back. -/
theorem claim_not_new :
    ∃ s, run step (init (.text 4)) [.boot none none, .becomeMaster (some .fsyncDir),
        .crash (.text 4), .boot none none, .becomeMaster none] = some s ∧
      s.history = [.claimed 5, .claimed 5] :=
  ⟨_, rfl, by decide⟩

end Lives

end Perfcached.Cluster.TermFile
