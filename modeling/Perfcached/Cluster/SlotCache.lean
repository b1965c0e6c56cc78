import Perfcached.Cluster.Place
import Perfcached.Cluster.Publish

/-!
# Perfcached.Cluster.SlotCache

Each worker's cache of slot owners (`slot_map_owner` in `src/clwork.c`).

The cluster thread replaces the map with a structure assignment, and the words of the new map become
visible to the workers one at a time and in any order. A worker loads the epoch, forgets its cache
if the epoch is not the one the cache is for, computes the owner from the words it sees and keeps it
if the epoch still reads the same.

The two reads of the epoch say nothing of the words between them: the new epoch can be visible
before the new nodes are (`owner_of_older_nodes`), and the check of the term and that of the
sequence are two loads. Nor is a map always replaced by a newer one: `become_master` and
`clmap_publish` do not compare. `Whole` says that a worker never loads from a map half replaced,
that the term it has checked is still the map's when it checks the sequence, and that epochs go up.
Then what is kept under an epoch is the owner in that epoch's map (`kept_owner_of_map`).

A worker's reads of the nodes are plain loads: they may come in any order, and a word may be read
again.
-/

namespace Perfcached.Cluster.SlotCache

open Machine Publish List Option Function Nat

/-! ### The map in memory -/

/-- The fields of `struct pc_clmap_node` that placement reads. -/
inductive Field where
  | nodeId | addr | clusterPort | state | capWeight | adminWeight
  deriving DecidableEq

/-- The words of `struct pc_clmap` that a lookup reads. -/
inductive Word where
  | term
  | seq
  | nnodes
  | node (i : Nat) (f : Field)
  deriving DecidableEq

def field (n : ClmapNode) : Field → Nat
  | .nodeId => n.nodeId.toNat
  | .addr => n.addr.toNat
  | .clusterPort => n.clusterPort.toNat
  | .state => n.state.toNat
  | .capWeight => n.capWeight.toNat
  | .adminWeight => n.adminWeight.toNat

/-- What is in memory for a map. The entries past `nnodes` are zero. -/
def words (m : Map Clmap) : Word → Nat
  | .term => m.term
  | .seq => m.seq
  | .nnodes => m.body.node.length
  | .node i f => (m.body.node[i]?).elim 0 fun n => field n f

/-- The words a worker has read in its call of `pc_clplace_owner`. -/
abbrev Seen := Word → Option Nat

/-- A node, if every field of it has been read. -/
def Seen.node (seen : Seen) (i : Nat) : Option ClmapNode := do
  let nodeId ← seen (.node i .nodeId)
  let addr ← seen (.node i .addr)
  let clusterPort ← seen (.node i .clusterPort)
  let state ← seen (.node i .state)
  let capWeight ← seen (.node i .capWeight)
  let adminWeight ← seen (.node i .adminWeight)
  return {
    nodeId := BitVec.ofNat 16 nodeId
    addr := BitVec.ofNat 32 addr
    clusterPort := BitVec.ofNat 16 clusterPort
    state := BitVec.ofNat 8 state
    capWeight := BitVec.ofNat 16 capWeight
    adminWeight := BitVec.ofNat 16 adminWeight }

/-- The nodes below `k`. -/
def Seen.nodes (seen : Seen) : Nat → Option (List ClmapNode)
  | 0 => some []
  | k + 1 => do
      let ns ← seen.nodes k
      let n ← seen.node k
      return ns ++ [n]

/-- The map `pc_clplace_owner` has gone through, if it is through with it. -/
def Seen.clmap (seen : Seen) : Option Clmap := do
  let k ← seen .nnodes
  let ns ← seen.nodes k
  return ⟨ns⟩

/-! ### The workers -/

/-- Where a worker is in `slot_map_owner`. -/
inductive Pc where
  | idle
  /-- `t` is loaded. -/
  | term (slot t : Nat)
  /-- In `pc_clplace_owner`, called with the epoch `t`, `s`. -/
  | owner (slot t s : Nat) (seen : Seen)
  /-- It has answered `o`. -/
  | checkTerm (slot t s : Nat) (o : BitVec 16)
  /-- The term has been found to be `t` still. -/
  | checkSeq (slot t s : Nat) (o : BitVec 16)

/-- A worker's thread-local cache. `slcOwner` is the array with the bits of `slc_have`. -/
structure Worker where
  slcTerm : Nat
  slcSeq : Nat
  slcOwner : Nat → Option (BitVec 16)
  pc : Pc

/-- `C.map` and the workers. While a replacement is not visible as a whole, `torn` has the map it
replaces and the words of the new one that are visible. -/
structure State where
  cur : Map Clmap
  past : List (Map Clmap)
  torn : Option (Map Clmap × List Word)
  worker : Nat → Worker

/-- A word as a load sees it. -/
def State.load (s : State) (w : Word) : Nat :=
  match s.torn with
  | none => words s.cur w
  | some (old, fresh) => if w ∈ fresh then words s.cur w else words old w

def State.maps (s : State) : List (Map Clmap) := s.cur :: s.past

def State.setWorker (s : State) (i : Nat) (w : Worker) : State :=
  { s with worker := update s.worker i w }

def Worker.goto (w : Worker) (pc : Pc) : Worker := { w with pc }

/-- The cache for the epoch just loaded. -/
def Worker.turn (w : Worker) (t s : Nat) : Worker :=
  if t ≠ w.slcTerm ∨ s ≠ w.slcSeq then
    { w with slcTerm := t, slcSeq := s, slcOwner := fun _ => none }
  else w

/-- `slc_owner[slot] = o`, and its bit. -/
def Worker.keep (w : Worker) (slot : Nat) (o : BitVec 16) : Worker :=
  { w with slcOwner := update w.slcOwner slot (some o) }

inductive Act where
  /-- `C.map = m` in `clmap_publish`, `handle_clmap` or `become_master`. -/
  | replace (m : Map Clmap)
  /-- A word of the new map becomes visible. -/
  | appear (w : Word)
  /-- The rest of it does. -/
  | whole
  /-- A worker calls `slot_map_owner` and loads the term. -/
  | call (i slot : Nat)
  /-- It loads the sequence and looks into its cache. -/
  | loadSeq (i : Nat)
  /-- It reads a word in `pc_clplace_owner`. -/
  | read (i : Nat) (w : Word)
  /-- `pc_clplace_owner` returns. -/
  | answer (i : Nat)
  | checkTerm (i : Nat)
  | checkSeq (i : Nat)

/-- The second load of the epoch, after the cache is turned to it. -/
def loaded (w : Worker) (slot t s : Nat) : Worker :=
  let w := w.turn t s
  w.goto (if (w.slcOwner slot).isSome then .idle else .owner slot t s fun _ => none)

/-- A worker's load from memory. -/
def loads (load : Word → Nat) (w : Worker) : Act → Option Worker
  | .call _ slot =>
    match w.pc with
    | .idle => some (w.goto (.term slot (load .term)))
    | _ => none
  | .loadSeq _ =>
    match w.pc with
    | .term slot t => some (loaded w slot t (load .seq))
    | _ => none
  | .read _ wd =>
    match w.pc with
    | .owner slot t s seen =>
      some (w.goto (.owner slot t s (update seen wd (some (load wd)))))
    | _ => none
  | .answer _ =>
    match w.pc with
    | .owner slot t s seen => seen.clmap.map fun m =>
      let o := pcClplaceOwner m (BitVec.ofNat 64 slot)
      w.goto (if o = 0 then .idle else .checkTerm slot t s o)
    | _ => none
  | .checkTerm _ =>
    match w.pc with
    | .checkTerm slot t s o =>
      some (w.goto (if load .term = t then .checkSeq slot t s o else .idle))
    | _ => none
  | .checkSeq _ =>
    match w.pc with
    | .checkSeq slot _ s o =>
      some ((if load .seq = s then w.keep slot o else w).goto .idle)
    | _ => none
  | _ => none

def Act.of : Act → Option Nat
  | .call i _ | .loadSeq i | .read i _ | .answer i | .checkTerm i | .checkSeq i => some i
  | .replace _ | .appear _ | .whole => none

def replaces (s : State) : Act → Option State
  | .replace m =>
    if s.torn = none then
      some { s with cur := m, past := s.cur :: s.past, torn := some (s.cur, []) }
    else none
  | .appear w => s.torn.map fun (old, fresh) => { s with torn := some (old, w :: fresh) }
  | .whole => some { s with torn := none }
  | _ => none

def step (s : State) (a : Act) : Option State :=
  match a.of with
  | none => replaces s a
  | some i => (loads s.load (s.worker i) a).map (s.setWorker i)

/-- A map and workers that have not looked anything up. -/
def boot (m : Map Clmap) : State where
  cur := m
  past := []
  torn := none
  worker _ := ⟨0, 0, fun _ => none, .idle⟩

/-- A map is replaced by a newer one, no worker loads from a map half replaced, and the term a
worker has checked is the map's when it checks the sequence. -/
def Whole (s : State) : Act → Prop
  | .replace m => Newer m.epoch s.cur.epoch
  | .appear _ | .whole | .answer _ => True
  | .call _ _ | .loadSeq _ | .read _ _ | .checkTerm _ => s.torn = none
  | .checkSeq i => s.torn = none ∧ match (s.worker i).pc with
      | .checkSeq _ t _ _ => s.cur.term = t
      | _ => True

instance decidableWhole (s : State) : DecidablePred (Whole s) := fun a => by
  unfold Whole
  repeat' split
  all_goals infer_instance

/-! ### What is read of one map -/

/-- Every word that has been read is the map's. -/
def Seen.Of (seen : Seen) (m : Map Clmap) : Prop := ∀ w v, seen w = some v → v = words m w

section
variable {seen : Seen} {m : Map Clmap}

theorem Seen.Of.update (h : seen.Of m) (w : Word) :
    Seen.Of (update seen w (some (words m w))) m := by
  intro w' v hv
  by_cases hw : w' = w
  · subst hw
    rw [update_self] at hv
    exact (some.inj hv).symm
  · rw [update_of_ne hw] at hv
    exact h w' v hv

theorem Seen.Of.node (h : seen.Of m) {i : Nat} {n n' : ClmapNode}
    (hn : m.body.node[i]? = some n) (hn' : seen.node i = some n') : n' = n := by
  have hfield : ∀ f v, seen (.node i f) = some v → v = field n f := by
    intro f v hv
    rw [h _ v hv]
    simp [words, hn]
  simp only [Seen.node, Option.bind_eq_bind, Option.bind_eq_some_iff, Option.pure_def,
    Option.some.injEq] at hn'
  obtain ⟨v₁, h₁, v₂, h₂, v₃, h₃, v₄, h₄, v₅, h₅, v₆, h₆, rfl⟩ := hn'
  rw [hfield _ _ h₁, hfield _ _ h₂, hfield _ _ h₃, hfield _ _ h₄, hfield _ _ h₅, hfield _ _ h₆]
  simp [field]

theorem Seen.Of.nodes (h : seen.Of m) {k : Nat} (hk : k ≤ m.body.node.length)
    {ns : List ClmapNode} (hns : seen.nodes k = some ns) : ns = m.body.node.take k := by
  induction k generalizing ns with
  | zero =>
    cases hns
    rfl
  | succ k ih =>
    simp only [Seen.nodes, Option.bind_eq_bind, Option.bind_eq_some_iff, Option.pure_def,
      Option.some.injEq] at hns
    obtain ⟨ns₀, h₀, n, hn, rfl⟩ := hns
    have hget : m.body.node[k]? = some m.body.node[k] := getElem?_eq_getElem hk
    rw [ih (le_of_succ_le hk) h₀, h.node hget hn, take_add_one, hget]
    rfl

/-- Reading every word of a map gives the map. -/
theorem Seen.Of.clmap (h : seen.Of m) {c : Clmap} (hc : seen.clmap = some c) : c = m.body := by
  simp only [Seen.clmap, Option.bind_eq_bind, Option.bind_eq_some_iff, Option.pure_def,
    Option.some.injEq] at hc
  obtain ⟨k, hk, ns, hns, rfl⟩ := hc
  obtain rfl : k = m.body.node.length := h _ k hk
  rw [h.nodes le_rfl hns, take_length]

end

/-! ### The invariant -/

/-- The epoch of the worker's cache is not past the map's. -/
def Worker.Below (w : Worker) (m : Map Clmap) : Prop :=
  w.slcTerm < m.term ∨ w.slcTerm = m.term ∧ w.slcSeq ≤ m.seq

/-- The worker's cache is for the map's epoch. -/
def Worker.For (w : Worker) (m : Map Clmap) : Prop :=
  m.term = w.slcTerm ∧ m.seq = w.slcSeq

/-- What the worker has in hand is of the map, if the map is the one its cache is for. -/
def Worker.PcOk (w : Worker) (m : Map Clmap) : Prop :=
  match w.pc with
  | .idle => True
  | .term _ t => t ≤ m.term
  | .owner _ t s seen => t = w.slcTerm ∧ s = w.slcSeq ∧ (w.For m → seen.Of m)
  | .checkTerm slot t s o | .checkSeq slot t s o => t = w.slcTerm ∧ s = w.slcSeq ∧
      (w.For m → o = pcClplaceOwner m.body (BitVec.ofNat 64 slot))

/-- What the worker keeps is for a map there was, and is the owner in it. -/
def Worker.Right (w : Worker) (maps : List (Map Clmap)) : Prop :=
  ∀ slot o, w.slcOwner slot = some o → (∃ m ∈ maps, w.For m) ∧
    ∀ m ∈ maps, w.For m → o = pcClplaceOwner m.body (BitVec.ofNat 64 slot)

structure WorkerOk (cur : Map Clmap) (past : List (Map Clmap)) (w : Worker) : Prop where
  below : w.Below cur
  pc : w.PcOk cur
  right : w.Right (cur :: past)

structure Inv (s : State) : Prop where
  older : ∀ m ∈ s.past, Newer s.cur.epoch m.epoch
  worker : ∀ i, WorkerOk s.cur s.past (s.worker i)

section
variable {cur m : Map Clmap} {past : List (Map Clmap)} {w : Worker}

theorem not_for_of_newer (hbelow : w.Below cur) (hnew : Newer m.epoch cur.epoch) : ¬ w.For m := by
  unfold Worker.For
  unfold Worker.Below at hbelow
  simp only [Newer, Map.epoch] at hnew
  omega

/-- A newer map is not the one any worker's cache is for. -/
theorem WorkerOk.replace (h : WorkerOk cur past w) (hnew : Newer m.epoch cur.epoch) :
    WorkerOk m (cur :: past) w := by
  have hnot := not_for_of_newer h.below hnew
  simp only [Newer, Map.epoch] at hnew
  refine ⟨?_, ?_, ?_⟩
  · have hbelow := h.below
    unfold Worker.Below at hbelow ⊢
    omega
  · have hpc := h.pc
    unfold Worker.PcOk at hpc ⊢
    split at hpc
    · trivial
    · omega
    all_goals exact ⟨hpc.1, hpc.2.1, fun hfor => absurd hfor hnot⟩
  · intro slot o ho
    obtain ⟨⟨m', hm', hfor⟩, hall⟩ := h.right slot o ho
    refine ⟨⟨m', mem_cons_of_mem _ hm', hfor⟩, ?_⟩
    intro m₁ hm₁ hfor₁
    rcases mem_cons.mp hm₁ with rfl | hm₁
    · exact absurd hfor₁ hnot
    · exact hall m₁ hm₁ hfor₁

theorem WorkerOk.goto (h : WorkerOk cur past w) {pc : Pc} (hpc : (w.goto pc).PcOk cur) :
    WorkerOk cur past (w.goto pc) := ⟨h.below, hpc, h.right⟩

/-- The cache after the epoch is loaded: the term `t` earlier, the sequence now. -/
theorem WorkerOk.turn (h : WorkerOk cur past w) {t : Nat} (ht : t ≤ cur.term) :
    WorkerOk cur past ((w.turn t cur.seq).goto .idle) := by
  unfold Worker.turn
  split
  · refine ⟨?_, trivial, ?_⟩
    · change t < cur.term ∨ t = cur.term ∧ cur.seq ≤ cur.seq
      omega
    · intro slot o ho
      cases ho
  · exact h.goto trivial

theorem turn_epoch (w : Worker) (t s : Nat) :
    (w.turn t s).slcTerm = t ∧ (w.turn t s).slcSeq = s := by
  unfold Worker.turn
  split
  · exact ⟨rfl, rfl⟩
  · next h =>
      rw [not_or, not_not, not_not] at h
      exact ⟨h.1.symm, h.2.symm⟩

theorem WorkerOk.loaded (h : WorkerOk cur past w) {slot t : Nat} (ht : t ≤ cur.term) :
    WorkerOk cur past (loaded w slot t cur.seq) := by
  have hturn := h.turn ht
  obtain ⟨hterm, hseq⟩ := turn_epoch w t cur.seq
  refine ⟨hturn.below, ?_, hturn.right⟩
  unfold SlotCache.loaded
  dsimp only
  split
  · trivial
  · refine ⟨hterm.symm, hseq.symm, fun _ wd v hv => ?_⟩
    cases hv

/-- The map of the cache's epoch is the current one, which no other has the epoch of. -/
theorem WorkerOk.keep (h : WorkerOk cur past w) (holder : ∀ m ∈ past, Newer cur.epoch m.epoch)
    (hfor : w.For cur) (slot : Nat) :
    WorkerOk cur past
      ((w.keep slot (pcClplaceOwner cur.body (BitVec.ofNat 64 slot))).goto .idle) := by
  refine ⟨h.below, trivial, ?_⟩
  intro slot' o ho
  by_cases hslot : slot' = slot
  · subst hslot
    change update w.slcOwner slot' _ slot' = some o at ho
    rw [update_self] at ho
    refine ⟨⟨cur, mem_cons_self, hfor⟩, fun m hm hm' => ?_⟩
    rcases mem_cons.mp hm with rfl | hm
    · exact (some.inj ho).symm
    · have hnew := holder m hm
      have hm' : m.term = w.slcTerm ∧ m.seq = w.slcSeq := hm'
      obtain ⟨hterm, hseq⟩ := hfor
      simp only [Newer, Map.epoch] at hnew
      omega
  · change update w.slcOwner slot _ slot' = some o at ho
    rw [update_of_ne hslot] at ho
    exact h.right slot' o ho

end

/-! ### The steps -/

variable {s : State}

theorem load_of_whole (h : s.torn = none) : s.load = words s.cur := by
  funext w
  unfold State.load
  rw [h]

/-- A worker's step in a run that loads whole maps. -/
theorem WorkerOk.loads {a : Act} {i : Nat} {w' : Worker} (hi : a.of = some i) (h : Inv s)
    (hok : Whole s a) (hstep : loads s.load (s.worker i) a = some w') :
    WorkerOk s.cur s.past w' := by
  have hw := h.worker i
  have hpc := hw.pc
  unfold Worker.PcOk at hpc
  cases a with
  | replace | appear | whole => cases hi
  | call _ slot =>
    rw [load_of_whole hok] at hstep
    simp only [SlotCache.loads] at hstep
    split at hstep <;> cases hstep
    exact hw.goto (le_refl s.cur.term)
  | loadSeq =>
    rw [load_of_whole hok] at hstep
    simp only [SlotCache.loads] at hstep
    split at hstep <;> cases hstep
    next heq =>
      rw [heq] at hpc
      exact hw.loaded hpc
  | read _ wd =>
    rw [load_of_whole hok] at hstep
    simp only [SlotCache.loads] at hstep
    split at hstep <;> cases hstep
    next heq =>
      rw [heq] at hpc
      exact hw.goto ⟨hpc.1, hpc.2.1, fun hfor => (hpc.2.2 hfor).update wd⟩
  | answer =>
    simp only [SlotCache.loads] at hstep
    split at hstep
    · next heq =>
        rw [heq] at hpc
        obtain ⟨c, hc, rfl⟩ := map_eq_some_iff.mp hstep
        refine hw.goto ?_
        split
        · trivial
        · refine ⟨hpc.1, hpc.2.1, fun hfor => ?_⟩
          rw [(hpc.2.2 hfor).clmap hc]
    · cases hstep
  | checkTerm =>
    rw [load_of_whole hok] at hstep
    simp only [SlotCache.loads] at hstep
    split at hstep <;> cases hstep
    next heq =>
      rw [heq] at hpc
      refine hw.goto ?_
      split
      · exact hpc
      · trivial
  | checkSeq =>
    cases hi
    rw [load_of_whole hok.1] at hstep
    simp only [SlotCache.loads] at hstep
    have hterm := hok.2
    split at hstep <;> cases hstep
    next slot t q o heq =>
      rw [heq] at hpc hterm
      obtain ⟨ht, hq, howner⟩ := hpc
      split
      · next hseq =>
          have hfor : (s.worker i).For s.cur := ⟨hterm.trans ht, hseq.trans hq⟩
          rw [howner hfor]
          exact hw.keep h.older hfor slot
      · exact hw.goto trivial

theorem Inv.step {s' : State} {a : Act} (h : Inv s) (hok : Whole s a) (hstep : step s a = some s') :
    Inv s' := by
  unfold SlotCache.step at hstep
  split at hstep
  · cases a with
    | replace m =>
      simp only [replaces] at hstep
      split at hstep <;> cases hstep
      have hnew : Newer m.epoch s.cur.epoch := hok
      refine ⟨fun m' hm' => ?_, fun i => (h.worker i).replace hnew⟩
      rcases mem_cons.mp hm' with rfl | hm'
      · exact hnew
      · have holder := h.older m' hm'
        simp only [Newer, Map.epoch] at holder hnew ⊢
        omega
    | appear w =>
      obtain ⟨⟨old, fresh⟩, -, rfl⟩ := map_eq_some_iff.mp hstep
      exact ⟨h.older, h.worker⟩
    | whole =>
      cases hstep
      exact ⟨h.older, h.worker⟩
    | _ => cases hstep
  · next i hi =>
      obtain ⟨w', hw', rfl⟩ := map_eq_some_iff.mp hstep
      refine ⟨h.older, fun j => ?_⟩
      by_cases hj : j = i
      · subst hj
        simpa [State.setWorker] using WorkerOk.loads hi h hok hw'
      · simpa [State.setWorker, hj] using h.worker j

theorem inv_boot (m : Map Clmap) : Inv (boot m) := by
  refine ⟨nofun, fun i => ⟨?_, trivial, nofun⟩⟩
  change 0 < m.term ∨ 0 = m.term ∧ 0 ≤ m.seq
  omega

/-- Every owner a worker keeps is for a map that was the node's, and is the owner of the slot in the
map of that epoch. -/
theorem kept_owner_of_map (m₀ : Map Clmap) (acts : List Act) (s : State)
    (hok : Along step Whole (boot m₀) acts) (hrun : run step (boot m₀) acts = some s)
    (i slot : Nat) (o : BitVec 16) (hkept : (s.worker i).slcOwner slot = some o) :
    (∃ m ∈ s.maps, m.term = (s.worker i).slcTerm ∧ m.seq = (s.worker i).slcSeq) ∧
      ∀ m ∈ s.maps, m.term = (s.worker i).slcTerm ∧ m.seq = (s.worker i).slcSeq →
        o = pcClplaceOwner m.body (BitVec.ofNat 64 slot) := by
  have hinv : Inv s := run_invariant (fun _ _ _ h => h.step) (inv_boot m₀) hok hrun
  exact (hinv.worker i).right slot o hkept

/-- A map with one node that keys can be placed on. -/
def mapOfNode (term seq : Nat) (nodeId : BitVec 16) : Map Clmap :=
  ⟨term, seq, ⟨[⟨nodeId, 0, 0, pcClmapStReady, 1, pcClmapWUnset⟩]⟩⟩

/-- What `pc_clplace_owner` reads of such a map. -/
def readsOf (i : Nat) : List Act :=
  [.read i .nnodes, .read i (.node 0 .nodeId), .read i (.node 0 .addr),
    .read i (.node 0 .clusterPort), .read i (.node 0 .state), .read i (.node 0 .capWeight),
    .read i (.node 0 .adminWeight), .answer i]

/-- A worker looks a slot up before the map is replaced and after. -/
def lookTwice : List Act :=
  List.flatten [[.call 0 5, .loadSeq 0], readsOf 0, [.checkTerm 0, .checkSeq 0],
    [.replace (mapOfNode 1 2 8), .appear .seq, .whole],
    [.call 0 5, .loadSeq 0], readsOf 0, [.checkTerm 0, .checkSeq 0]]

def lookedTwice : State :=
  (run step (boot (mapOfNode 1 1 7)) lookTwice).getD (boot (mapOfNode 1 1 7))

theorem kept_owner_of_map_twice : (lookedTwice.worker 0).slcOwner 5 = some 8 ∧
      8 = pcClplaceOwner (mapOfNode 1 2 8).body (BitVec.ofNat 64 5) :=
  ⟨by decide, (kept_owner_of_map (mapOfNode 1 1 7) lookTwice lookedTwice (by decide) rfl 0 5 8
    (by decide)).2 (mapOfNode 1 2 8) mem_cons_self (by decide)⟩

/-- The epoch of the new map is visible and its nodes are not. -/
def epochFirst : List Act :=
  List.flatten [[.replace (mapOfNode 1 2 8), .appear .term, .appear .seq],
    [.call 0 5, .loadSeq 0], readsOf 0, [.checkTerm 0, .checkSeq 0], [.whole]]

/-- The worker keeps the owner in the older map for the epoch of the newer. -/
theorem owner_of_older_nodes : ∃ s, run step (boot (mapOfNode 1 1 7)) epochFirst = some s ∧
      (s.worker 0).slcTerm = 1 ∧ (s.worker 0).slcSeq = 2 ∧ (s.worker 0).slcOwner 5 = some 7 ∧
      s.cur = mapOfNode 1 2 8 ∧ pcClplaceOwner (mapOfNode 1 2 8).body (BitVec.ofNat 64 5) = 8 :=
  ⟨_, rfl, rfl, rfl, rfl, rfl, rfl⟩

/-- A replacement before the nodes are read, and one between the two loads of the check to a term
whose sequence begins again. -/
def termBetween : List Act :=
  List.flatten [[.call 0 5, .loadSeq 0], [.replace (mapOfNode 1 2 8), .whole], readsOf 0,
    [.checkTerm 0], [.replace (mapOfNode 2 1 9), .whole], [.checkSeq 0]]

-- no map is seen half replaced here: the worker keeps node 8 for the epoch in which 7 is the owner
example : (run step (boot (mapOfNode 1 1 7)) termBetween).map
    (fun s => ((s.worker 0).slcTerm, (s.worker 0).slcSeq, (s.worker 0).slcOwner 5)) =
      some (1, 1, some 8) := rfl

end Perfcached.Cluster.SlotCache
