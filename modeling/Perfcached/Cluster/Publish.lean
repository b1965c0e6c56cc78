import Perfcached.Cluster.Term
import Perfcached.Lib.Machine

/-!
# Perfcached.Cluster.Publish

The maps a node publishes (`src/cluster.c`): promotion, staging, publication and step-down, with
what the node hears of other masters.

The cluster thread runs one handler at a time, and each is a step. A node's inputs are arbitrary:
any beacon, any map and any sync may arrive, in any order, and whether a term can be stored is
decided each time. So a fleet is any number of nodes that step in any order.

Beside the node's state its history is kept: what `pc_term_claim` returned when it last became
master, and the maps it published, each with that claim. Also kept is what a crash may leave in the
term's file: until the directory is synced after a rename that is still what was there before, and
`term_store` does not tell its caller whether it was.

A master that claimed its term keeps it: a higher one makes it step down, as long as the map it
compares with is not itself above its claim. `Sound` says that a promotion leaves it so, and that
the term it claims is on the disk for good.
-/

namespace Perfcached.Cluster.Publish

open Machine List Option Nat

/-! ### The node -/

/-- `struct pc_clmap`: the epoch, and the rest. -/
structure Map (β : Type) where
  term : Nat
  seq : Nat
  body : β
  deriving DecidableEq

def Map.epoch {β : Type} (m : Map β) : Epoch := (m.term, m.seq)

/-- What becomes of the store of a term. -/
inductive Store
  /-- `term_store` returns 0 -/
  | failed
  /-- the file is renamed into place and the directory is not synced -/
  | renamed
  | synced
  deriving DecidableEq

/-- What `term_store` returns. -/
def Store.ok (store : Store) : Bool := store ≠ .failed

/-- A map that went to the fleet, and the claim of the mastership it was published in. -/
structure Publication (β : Type) where
  map : Map β
  claim : Option Nat
  deriving DecidableEq

structure Node (β : Type) where
  T : Term
  /-- the terms a crash may leave in the file -/
  left : List Nat
  /-- `PC_ROLE_MASTER` -/
  master : Bool
  sync : Clsync
  staged : Option (Map β)
  /-- `C.map` while `map_valid` -/
  map : Option (Map β)
  /-- `C.held_map` while `held_valid` -/
  held : Option (Map β)
  claim : Option Nat
  published : List (Publication β)
  deriving DecidableEq

variable {β : Type}

namespace Node

/-- `C.map.term`, 0 before the first map. -/
def mapTerm (n : Node β) : Nat := (n.map.map Map.term).getD 0

/-- The process starts, with what its state directory holds. -/
def boot (disk : Nat) (left : List Nat) (published : List (Publication β)) : Node β :=
  ⟨pcTermInit disk, left, false, pcClsyncInit disk 0, none, none, none, none, published⟩

/-- The term after a function of `clterm.c`, which has stored it if it is another. -/
def setTerm (n : Node β) (store : Store) (T : Term) : Node β :=
  { n with
    T
    left := if T = n.T then n.left
      else if store = .synced then [T.disk] else T.disk :: n.left }

def yieldMastership (n : Node β) : Node β := { n with master := false, claim := none }

/-- `clmap_stage`, with `clmap_build` inlined: the map is stamped with the current term. -/
def clmapStage (n : Node β) (backup : Bool) (body : β) : Node β :=
  if n.master = true ∧ n.T.term ≠ 0 then
    match pcClsyncStage (pcClsyncSetBackup n.sync backup) with
    | some sync => { n with sync, staged := some ⟨n.T.term, sync.stagedSeq, body⟩ }
    | none => n
  else n

/-- The claim in `become_master`: a change owed to the fleet becomes the node's map. -/
def promote (n : Node β) (store : Store) : Node β :=
  match pcTermClaim n.T store.ok with
  | (none, _) => { n with master := true, claim := none }
  | (some t, T) =>
    { n.setTerm store T with
      master := true
      sync := pcClsyncInit t 0
      map := if pcClsyncOwed n.sync then n.held.or n.map else n.map
      claim := some t }

/-- `handle_master_alive` at a master, as far as the term goes. -/
def masterAlive (n : Node β) (store : Store) (theirs : Nat) : Node β :=
  if pcTermPlausible n.T theirs = true then
    let mine := max n.sync.term n.mapTerm
    let n := n.setTerm store (pcTermObserve n.T store.ok theirs)
    if pcTermMustStepdown true mine theirs = true then n.yieldMastership else n
  else n

/-- The map is newer than the node's. -/
def newer (n : Node β) (m : Map β) : Bool := isNewer (n.map.map Map.epoch) m.epoch

/-- `handle_clmap`, for a map from an admitted sender. The result of `pc_term_observe` is not
read. -/
def handleClmap (n : Node β) (store : Store) (m : Map β) : Node β :=
  if pcTermPlausible n.T m.term = true then
    let n := n.setTerm store (pcTermObserve n.T store.ok m.term)
    if n.newer m = true then
      let n := if pcTermMustStepdown n.master n.mapTerm m.term = true then n.yieldMastership else n
      { n with map := some m, sync := pcClsyncSaw n.sync m.term m.seq }
    else n
  else n

end Node

/-- What becomes of a map that is ready. -/
inductive Send
  | sent
  /-- `ctl_send` fails; the next tick tries again -/
  | unsent
  /-- `pc_clmap_encode` fails -/
  | unencoded
  deriving DecidableEq

inductive Act (β : Type)
  /-- a beacon's term, at a node that is not master -/
  | observe (store : Store) (seen : Nat)
  /-- a beacon's term, at a master -/
  | masterAlive (store : Store) (theirs : Nat)
  | clmap (store : Store) (m : Map β)
  /-- `handle_clsync` -/
  | clsync (m : Map β)
  | becomeMaster (store : Store) (backup : Bool) (body : β)
  | stage (backup : Bool) (body : β)
  /-- `handle_clsync_ack` -/
  | ack (term seq : Nat)
  /-- the deadline of a staged change passes -/
  | abort
  | publish (send : Send)
  /-- the other reasons to step down: member counts, addresses, an established cluster -/
  | yield
  /-- the process stops, perhaps in a store whose rename was done, and starts again -/
  | stop (storing : Nat)
  /-- the machine stops, and starts again with one of what may be left -/
  | crash (disk : Nat)
  deriving DecidableEq

def step (n : Node β) : Act β → Option (Node β)
  | .observe store seen =>
    if n.master = true then none
    else some (n.setTerm store (pcTermObserve n.T store.ok seen))
  | .masterAlive store theirs => if n.master = true then some (n.masterAlive store theirs) else none
  | .clmap store m => some (n.handleClmap store m)
  | .clsync m => some { n with held := some m, sync := pcClsyncHold n.sync m.term m.seq }
  | .becomeMaster store backup body =>
    if n.master = true then none else some ((n.promote store).clmapStage backup body)
  | .stage backup body => some (n.clmapStage backup body)
  | .ack term seq => some { n with sync := pcClsyncAck n.sync term seq }
  | .abort =>
    if n.master = true ∧ n.sync.state = .staged then
      some { n with sync := pcClsyncAbort n.sync }
    else none
  | .publish send =>
    if n.master = true ∧ n.sync.state = .acked then
      n.staged.map fun m =>
        match send with
        | .sent =>
          { n with
            sync := pcClsyncPublished n.sync
            map := some m
            published := n.published ++ [⟨m, n.claim⟩] }
        | .unsent => n
        | .unencoded => { n with sync := pcClsyncAbort n.sync }
    else none
  | .yield => if n.master = true then some n.yieldMastership else none
  | .stop storing =>
    if n.T.disk < storing then some (Node.boot storing (storing :: n.left) n.published)
    else some (Node.boot n.T.disk n.left n.published)
  | .crash disk => if disk ∈ n.left then some (Node.boot disk [disk] n.published) else none

/-! ### The fleet -/

def fleetStep (ns : List (Node β)) (a : Nat × Act β) : Option (List (Node β)) :=
  ns[a.1]?.bind fun n => (step n a.2).map fun n' => ns.set a.1 n'

/-- A fleet that boots, with what each state directory holds. -/
def fleet (disks : List Nat) : List (Node β) := disks.map fun disk => Node.boot disk [disk] []

/-- What a promotion and a stage need: there is a term to claim, its store is synced, or the node
has seen none and the store fails; the node's map is not above the term; and the sequence does not
wrap. -/
def SoundAt (n : Node β) : Act β → Prop
  | .becomeMaster store _ _ =>
    (store = .synced ∧ n.T.term + 1 < 2 ^ 32 ∨ store = .failed ∧ n.T.term = 0) ∧
      (n.promote store).mapTerm ≤ (n.promote store).T.term
  | .stage _ _ => n.sync.nextSeq + 1 < 2 ^ 32
  | _ => True

def Sound (ns : List (Node β)) (a : Nat × Act β) : Prop := ∀ n ∈ ns[a.1]?, SoundAt n a.2

instance decidableSoundAt (n : Node β) : DecidablePred (SoundAt n) := fun a => by
  unfold SoundAt
  split <;> infer_instance

instance decidableSound (ns : List (Node β)) (a : Nat × Act β) : Decidable (Sound ns a) :=
  inferInstanceAs (Decidable (∀ n ∈ ns[a.1]?, SoundAt n a.2))

/-! ### A master keeps the term it claimed -/

section Claim

variable {n n' : Node β}

/-- What a master knows of its term and of the change in flight. -/
structure Reign (n : Node β) : Prop where
  /-- the term is claimed, and no crash leaves a lower one -/
  claim : n.claim = some n.T.term ∧ (∀ d ∈ n.left, n.T.term ≤ d) ∨ n.T.term = 0
  mapTerm : n.mapTerm ≤ n.T.term
  /-- what went out under this term has a lower sequence than what comes -/
  fresh : ∀ p ∈ n.published, p.map.term = n.T.term → p.map.seq < n.sync.nextSeq
  staged : n.sync.state ≠ .idle → ∃ m, n.staged = some m ∧ m.term = n.T.term ∧
    n.claim = some n.T.term ∧ m.seq < n.sync.nextSeq ∧
    ∀ p ∈ n.published, p.map.term = n.T.term → p.map.seq < m.seq

structure Inv (n : Node β) : Prop where
  disk : n.T.disk = n.T.term
  syncTerm : n.sync.term ≤ n.T.term
  quiet : n.T.term = 0 → n.sync.state = .idle
  reign : n.master = true → Reign n
  past : ∀ p ∈ n.published, 0 < p.map.term ∧ p.map.term ≤ n.T.term
  left : ∀ p ∈ n.published, ∀ d ∈ n.left, p.map.term ≤ d
  claimed : ∀ p ∈ n.published, p.claim = some p.map.term
  once : (n.published.map fun p => (p.map.term, p.map.seq)).Nodup

theorem Inv.boot {disk : Nat} {left : List Nat} (h : Inv n)
    (hdisk : ∀ p ∈ n.published, p.map.term ≤ disk)
    (hleft : ∀ p ∈ n.published, ∀ d ∈ left, p.map.term ≤ d) :
    Inv (Node.boot disk left n.published) :=
  ⟨rfl, le_rfl, fun _ => rfl, nofun, fun p hp => ⟨(h.past p hp).1, hdisk p hp⟩, hleft,
    h.claimed, h.once⟩

/-- The process may stop in a store, and what it was storing is above what it had. -/
theorem Inv.stop {storing : Nat} (h : Inv n) (hlt : n.T.disk < storing) :
    Inv (Node.boot storing (storing :: n.left) n.published) := by
  have hle : ∀ p ∈ n.published, p.map.term ≤ storing := fun p hp =>
    le_trans (h.past p hp).2 (h.disk ▸ le_of_lt hlt)
  refine h.boot hle fun p hp d hd => ?_
  rcases mem_cons.mp hd with rfl | hd
  · exact hle p hp
  · exact h.left p hp d hd

theorem Inv.crash {disk : Nat} (h : Inv n) (hdisk : disk ∈ n.left) :
    Inv (Node.boot disk [disk] n.published) := by
  have hle : ∀ p ∈ n.published, p.map.term ≤ disk := fun p hp => h.left p hp disk hdisk
  refine h.boot hle fun p hp d hd => ?_
  rw [mem_singleton.mp hd]
  exact hle p hp

theorem Inv.yield (h : Inv n) : Inv n.yieldMastership :=
  ⟨h.disk, h.syncTerm, h.quiet, nofun, h.past, h.left, h.claimed, h.once⟩

variable {store : Store}

theorem setTerm_self (n : Node β) (store : Store) : n.setTerm store n.T = n := by
  rw [Node.setTerm, if_pos rfl]

/-- A crash leaves the new term or what it could leave before. -/
theorem left_setTerm {T : Term} {d : Nat} (h : d ∈ (n.setTerm store T).left) :
    d = T.disk ∨ d ∈ n.left := by
  simp only [Node.setTerm] at h
  split_ifs at h
  · exact .inr h
  · exact .inl (mem_singleton.mp h)
  · exact mem_cons.mp h

/-- A node that is not master may see any term. -/
theorem Inv.observe {seen : Nat} (h : Inv n) (hm : n.master ≠ true) :
    Inv (n.setTerm store (pcTermObserve n.T store.ok seen)) := by
  rcases pcTermObserve_cases n.T store.ok seen with heq | ⟨hlt, heq⟩
  · rw [heq, setTerm_self]
    exact h
  · rw [heq]
    have hpos : seen ≠ 0 := ne_zero_of_lt hlt
    have hle : ∀ p ∈ n.published, p.map.term ≤ seen := fun p hp =>
      le_trans (h.past p hp).2 (le_of_lt hlt)
    refine ⟨rfl, le_trans h.syncTerm (le_of_lt hlt), fun h0 => absurd h0 hpos,
      fun hm' => absurd hm' hm, fun p hp => ⟨(h.past p hp).1, hle p hp⟩, fun p hp d hd => ?_,
      h.claimed, h.once⟩
    rcases left_setTerm hd with rfl | hd
    · exact hle p hp
    · exact h.left p hp d hd

/-- A master that hears a term above its own asserts a lower one. -/
theorem Inv.masterAlive {theirs : Nat} (h : Inv n) (hm : n.master = true) :
    Inv (n.masterAlive store theirs) := by
  unfold Node.masterAlive
  split
  · by_cases hstep : pcTermMustStepdown true (max n.sync.term n.mapTerm) theirs = true
    · simp only [hstep, if_true]
      have hyield := h.yield
      exact hyield.observe (by simp [Node.yieldMastership])
    · simp only [hstep, Bool.false_eq_true, if_false]
      have hmine : theirs ≤ n.T.term := by
        have hmap := (h.reign hm).mapTerm
        have hsync := h.syncTerm
        simp only [pcTermMustStepdown, Bool.true_and, decide_eq_true_eq] at hstep
        omega
      rw [pcTermObserve, if_pos hmine, setTerm_self]
      exact h
  · exact h

/-! ### The staging machine beside it -/

/-- The staging machine changes, but for a change it gives up. -/
theorem Inv.resync {sync : Clsync} (h : Inv n)
    (hstate : sync.state ≠ .idle → n.sync.state ≠ .idle) (hterm : sync.term = n.sync.term)
    (hnext : sync.nextSeq = n.sync.nextSeq) : Inv { n with sync } := by
  refine ⟨h.disk, hterm ▸ h.syncTerm, ?_, ?_, h.past, h.left, h.claimed, h.once⟩
  · intro h0
    by_contra hne
    exact hstate hne (h.quiet h0)
  · intro hm
    obtain ⟨hclaim, hmap, hfresh, hstaged⟩ := h.reign hm
    refine ⟨hclaim, hmap, ?_, ?_⟩
    · intro p hp ht
      rw [hnext]
      exact hfresh p hp ht
    · intro hne
      rw [hnext]
      exact hstaged (hstate hne)

variable {m : Map β}

/-- A map is adopted, at a master none above its term. -/
theorem Inv.adopt (h : Inv n) (hm : n.master = true → m.term ≤ n.T.term) :
    Inv { n with map := some m, sync := pcClsyncSaw n.sync m.term m.seq } := by
  obtain ⟨hstate, hterm, hnext, -⟩ := pcClsyncSaw_fields n.sync m.term m.seq
  have hsaw : Inv { n with sync := pcClsyncSaw n.sync m.term m.seq } :=
    h.resync (fun hne => hstate ▸ hne) hterm hnext
  refine ⟨hsaw.disk, hsaw.syncTerm, hsaw.quiet, ?_, hsaw.past, hsaw.left, hsaw.claimed, hsaw.once⟩
  intro hmaster
  obtain ⟨hclaim, -, hfresh, hstaged⟩ := hsaw.reign hmaster
  exact ⟨hclaim, hm hmaster, hfresh, hstaged⟩

theorem newer_of_lt (hlt : n.mapTerm < m.term) : n.newer m = true := by
  unfold Node.newer
  cases hmap : n.map with
  | none => rfl
  | some mine =>
    rw [Node.mapTerm, hmap] at hlt
    exact decide_eq_true (.inl hlt)

theorem Inv.handleClmap (h : Inv n) : Inv (n.handleClmap store m) := by
  unfold Node.handleClmap
  split
  · by_cases hle : m.term ≤ n.T.term
    · have hsame : pcTermObserve n.T store.ok m.term = n.T := if_pos hle
      simp only [hsame, setTerm_self]
      split
      · split
        · exact h.yield.adopt nofun
        · exact h.adopt fun _ => hle
      · exact h
    · by_cases hm : n.master = true
      · -- the map outranks what the master asserts, stored or not
        have hlt : n.mapTerm < m.term := by
          have hmap := (h.reign hm).mapTerm
          omega
        have hnewer := newer_of_lt hlt
        have hdown : pcTermMustStepdown n.master n.mapTerm m.term = true := by
          simp [pcTermMustStepdown, hm, hlt]
        have hy : Inv (n.yieldMastership.setTerm store (pcTermObserve n.T store.ok m.term)) :=
          h.yield.observe (by simp [Node.yieldMastership])
        have hres := @Inv.adopt β _ m hy nofun
        -- neither test reads the term
        have hnewer' : ∀ T, (n.setTerm store T).newer m = true := fun _ => hnewer
        have hdown' : ∀ T, pcTermMustStepdown (n.setTerm store T).master
            (n.setTerm store T).mapTerm m.term = true := fun _ => hdown
        simp only [hnewer', hdown', if_true]
        exact hres
      · have hres : Inv (n.setTerm store (pcTermObserve n.T store.ok m.term)) := h.observe hm
        dsimp only
        split
        · split
          · rename_i hdown
            simp [pcTermMustStepdown, Node.setTerm, hm] at hdown
          · exact hres.adopt fun hm' => absurd hm' hm
        · exact hres
  · exact h

theorem Inv.stage {backup : Bool} {body : β} (h : Inv n)
    (hwrap : n.T.term ≠ 0 → n.sync.nextSeq + 1 < 2 ^ 32) : Inv (n.clmapStage backup body) := by
  unfold Node.clmapStage
  split
  · rename_i hm
    obtain ⟨hreign, hmap, hfresh, -⟩ := h.reign hm.1
    have hclaim := (hreign.resolve_right hm.2).1
    unfold pcClsyncStage
    split
    · rename_i sync heq
      obtain ⟨-, heq⟩ := ite_none_right_eq_some.mp heq
      cases heq
      have hnext : (n.sync.nextSeq + 1) % 2 ^ 32 = n.sync.nextSeq + 1 := mod_eq_of_lt (hwrap hm.2)
      refine ⟨h.disk, h.syncTerm, fun h0 => absurd h0 hm.2, fun _ => ?_, h.past, h.left, h.claimed,
        h.once⟩
      refine ⟨hreign, hmap, ?_, fun _ => ⟨_, rfl, rfl, hclaim, ?_, hfresh⟩⟩
      · intro p hp ht
        exact lt_of_lt_of_eq (lt_succ_of_lt (hfresh p hp ht)) hnext.symm
      · exact lt_of_lt_of_eq (lt_succ_self _) hnext.symm
    · exact h
  · exact h

/-- A promotion whose term is stored claims the one after the highest seen. -/
theorem Inv.claim (h : Inv n) (hterm : n.T.term + 1 < 2 ^ 32)
    (hmap : (n.promote .synced).mapTerm ≤ (n.promote .synced).T.term) :
    Inv (n.promote .synced) ∧ (n.promote .synced).sync.nextSeq = 1 := by
  have hclaim : pcTermClaim n.T Store.synced.ok =
      (some (n.T.term + 1), ⟨n.T.term + 1, n.T.term + 1⟩) := by
    have hnext : (n.T.term + 1) % 2 ^ 32 = n.T.term + 1 := mod_eq_of_lt hterm
    rw [pcTermClaim, hnext, if_neg (by omega)]
    rfl
  have hne : (⟨n.T.term + 1, n.T.term + 1⟩ : Term) ≠ n.T := fun heq =>
    succ_ne_self _ (congrArg Term.term heq)
  unfold Node.promote Node.setTerm at hmap ⊢
  simp only [hclaim, hne, if_false, if_true] at hmap ⊢
  have hbelow : ∀ p ∈ n.published, p.map.term < n.T.term + 1 := fun p hp =>
    lt_succ_of_le (h.past p hp).2
  have hleft : ∀ d ∈ [n.T.term + 1], n.T.term + 1 ≤ d := by simp
  refine ⟨⟨rfl, le_rfl, fun _ => rfl, fun _ => ?_, ?_, ?_, h.claimed, h.once⟩, rfl⟩
  · exact ⟨.inl ⟨rfl, hleft⟩, hmap, fun p hp ht => absurd ht (Nat.ne_of_lt (hbelow p hp)),
      fun hne => absurd rfl hne⟩
  · exact fun p hp => ⟨(h.past p hp).1, le_of_lt (hbelow p hp)⟩
  · exact fun p hp d hd => le_trans (le_of_lt (hbelow p hp)) (hleft d hd)

/-- Without a term nothing is in flight and nothing went out. -/
theorem Inv.unclaimed (h : Inv n) (h0 : n.T.term = 0)
    (hmap : (n.promote .failed).mapTerm ≤ (n.promote .failed).T.term) :
    Inv (n.promote .failed) ∧ (n.promote .failed).T.term = 0 := by
  have hclaim : pcTermClaim n.T Store.failed.ok = (none, n.T) := by
    unfold pcTermClaim
    simp [Store.ok]
  unfold Node.promote at hmap ⊢
  rw [hclaim] at hmap ⊢
  refine ⟨⟨h.disk, h.syncTerm, h.quiet, fun _ => ?_, h.past, h.left, h.claimed, h.once⟩, h0⟩
  refine ⟨.inr h0, hmap, ?_, fun hne => absurd (h.quiet h0) hne⟩
  intro p hp
  have hpast := h.past p hp
  omega

theorem Inv.publish (h : Inv n) (hm : n.master = true) (hstate : n.sync.state = .acked)
    (hstaged : n.staged = some m) :
    Inv { n with
      sync := pcClsyncPublished n.sync
      map := some m
      published := n.published ++ [⟨m, n.claim⟩] } := by
  obtain ⟨hreign, -, hfresh, hinflight⟩ := h.reign hm
  obtain ⟨m', hm', hterm, hclaim, hlt, hbelow⟩ := hinflight (by rw [hstate]; decide)
  obtain rfl := some.inj (hstaged.symm.trans hm')
  have hpos : 0 < n.T.term := by
    refine pos_of_ne_zero fun h0 => ?_
    rw [h.quiet h0] at hstate
    cases hstate
  rw [pcClsyncPublished, if_pos hstate]
  refine ⟨h.disk, h.syncTerm, fun _ => rfl, fun _ => ⟨hreign, ?_, ?_, ?_⟩, ?_, ?_, ?_, ?_⟩
  · exact le_of_eq hterm
  · intro p hp ht
    rcases mem_append.mp hp with hp | hp
    · exact hfresh p hp ht
    · obtain rfl := mem_singleton.mp hp
      exact hlt
  · exact fun hne => absurd rfl hne
  · intro p hp
    rcases mem_append.mp hp with hp | hp
    · exact h.past p hp
    · obtain rfl := mem_singleton.mp hp
      exact ⟨hterm ▸ hpos, le_of_eq hterm⟩
  · -- what is published under the claim is not above what a crash leaves
    intro p hp d hd
    rcases mem_append.mp hp with hp | hp
    · exact h.left p hp d hd
    · obtain rfl := mem_singleton.mp hp
      exact hterm ▸ (hreign.resolve_right (ne_of_gt hpos)).2 d hd
  · intro p hp
    rcases mem_append.mp hp with hp | hp
    · exact h.claimed p hp
    · obtain rfl := mem_singleton.mp hp
      exact hclaim.trans (by rw [hterm])
  · rw [map_append, map_singleton, ← concat_eq_append]
    refine h.once.concat fun hmem => ?_
    obtain ⟨p, hp, heq⟩ := mem_map.mp hmem
    obtain ⟨ht, hq⟩ := Prod.mk.inj heq
    exact absurd hq (Nat.ne_of_lt (hbelow p hp (ht.trans hterm)))

theorem Inv.step {a : Act β} (h : Inv n) (hok : SoundAt n a) (hstep : Publish.step n a = some n') :
    Inv n' := by
  cases a with
  | observe store seen =>
    simp only [Publish.step, ite_none_left_eq_some, some.injEq] at hstep
    obtain ⟨hm, rfl⟩ := hstep
    exact h.observe hm
  | masterAlive store theirs =>
    simp only [Publish.step, ite_none_right_eq_some, some.injEq] at hstep
    obtain ⟨hm, rfl⟩ := hstep
    exact h.masterAlive hm
  | clmap store m =>
    obtain rfl := some.inj hstep
    exact h.handleClmap
  | clsync m =>
    obtain rfl := some.inj hstep
    have hheld : Inv { n with sync := pcClsyncHold n.sync m.term m.seq } := h.resync id rfl rfl
    refine ⟨hheld.disk, hheld.syncTerm, hheld.quiet, fun hm => ?_, hheld.past, hheld.left,
      hheld.claimed, hheld.once⟩
    obtain ⟨hclaim, hmap, hfresh, hstaged⟩ := hheld.reign hm
    exact ⟨hclaim, hmap, hfresh, hstaged⟩
  | becomeMaster store backup body =>
    simp only [Publish.step, ite_none_left_eq_some, some.injEq] at hstep
    obtain ⟨-, rfl⟩ := hstep
    -- the claim is stored, or its store failed and the term is 0 still
    obtain ⟨⟨rfl, hterm⟩ | ⟨rfl, h0⟩, hmap⟩ := hok
    · obtain ⟨hpromoted, hnext⟩ := h.claim hterm hmap
      refine hpromoted.stage fun _ => ?_
      rw [hnext]
      decide
    · obtain ⟨hpromoted, hzero⟩ := h.unclaimed h0 hmap
      exact hpromoted.stage fun hne => absurd hzero hne
  | stage backup body =>
    obtain rfl := some.inj hstep
    exact h.stage fun _ => hok
  | ack term seq =>
    obtain rfl := some.inj hstep
    obtain ⟨hstate, hterm, hnext, -⟩ := pcClsyncAck_fields n.sync term seq
    exact h.resync (fun hne heq => hne (hstate.mpr heq)) hterm hnext
  | abort =>
    simp only [Publish.step, ite_none_right_eq_some, some.injEq] at hstep
    obtain ⟨-, rfl⟩ := hstep
    exact h.resync (fun hne => absurd rfl hne) rfl rfl
  | publish send =>
    simp only [Publish.step, ite_none_right_eq_some, map_eq_some_iff] at hstep
    obtain ⟨⟨hm, hstate⟩, m, hstaged, rfl⟩ := hstep
    cases send with
    | sent => exact h.publish hm hstate hstaged
    | unsent => exact h
    | unencoded => exact h.resync (fun hne => absurd rfl hne) rfl rfl
  | yield =>
    simp only [Publish.step, ite_none_right_eq_some, some.injEq] at hstep
    obtain ⟨-, rfl⟩ := hstep
    exact h.yield
  | stop storing =>
    simp only [Publish.step] at hstep
    split at hstep
    · next hlt =>
      obtain rfl := some.inj hstep
      exact h.stop hlt
    · obtain rfl := some.inj hstep
      exact h.boot (fun p hp => h.disk ▸ (h.past p hp).2) h.left
  | crash disk =>
    simp only [Publish.step, ite_none_right_eq_some, some.injEq] at hstep
    obtain ⟨hdisk, rfl⟩ := hstep
    exact h.crash hdisk

end Claim

/-! ### What the fleet publishes -/

theorem fleet_inv (disks : List Nat) : ∀ n ∈ (fleet disks : List (Node β)), Inv n := by
  intro n hn
  obtain ⟨disk, -, rfl⟩ := mem_map.mp hn
  exact ⟨rfl, le_rfl, fun _ => rfl, nofun, nofun, nofun, nofun, nodup_nil⟩

theorem fleetStep_inv {ns ns' : List (Node β)} {a : Nat × Act β} (h : ∀ n ∈ ns, Inv n)
    (hok : Sound ns a) (hstep : fleetStep ns a = some ns') : ∀ n ∈ ns', Inv n := by
  obtain ⟨n, hn, hset⟩ := bind_eq_some_iff.mp hstep
  obtain ⟨n', hnode, rfl⟩ := map_eq_some_iff.mp hset
  intro q hq
  rcases mem_or_eq_of_mem_set hq with hq | rfl
  · exact h q hq
  · exact (h n (mem_of_getElem? hn)).step (hok n hn) hnode

/-- Every map a node published carries the term that `pc_term_claim` returned to it in that
mastership, and two that share their epoch are one, if every promotion claims its term for good (or
the node has seen none) and leaves the node with no map above it. -/
theorem published_under_claim (disks : List Nat) (acts : List (Nat × Act β)) (ns : List (Node β))
    (hrun : run fleetStep (fleet disks) acts = some ns)
    (hok : Along fleetStep Sound (fleet disks) acts) :
    ∀ n ∈ ns, (∀ p ∈ n.published, p.claim = some p.map.term) ∧
      ∀ p ∈ n.published, ∀ q ∈ n.published, p.map.term = q.map.term → p.map.seq = q.map.seq →
        p.map = q.map := by
  intro n hn
  have hinv := run_invariant (fun _ _ _ h hok hstep => fleetStep_inv h hok hstep)
    (fleet_inv disks) hok hrun n hn
  refine ⟨hinv.claimed, fun p hp q hq hterm hseq => ?_⟩
  rw [inj_on_of_nodup_map hinv.once hp hq (by rw [hterm, hseq])]

/-- Two nodes; the second takes over when it has seen the first's term, and the first, after a crash
that takes the term it had stored last back, from the second. -/
def takenOver : List (Nat × Act Nat) :=
  [(0, .becomeMaster .synced false 7), (0, .publish .sent), (1, .observe .renamed 1),
    (1, .becomeMaster .synced true 8), (1, .ack 2 1), (1, .publish .sent),
    (0, .clmap .renamed ⟨2, 1, 8⟩), (0, .crash 1), (0, .observe .synced 2),
    (0, .becomeMaster .synced false 9), (0, .publish .sent)]

theorem published_under_claim_takenOver : ∃ ns, run fleetStep (fleet [0, 0]) takenOver = some ns ∧
      (ns.map fun n => n.published.map Publication.map) =
        [[⟨1, 1, 7⟩, ⟨3, 1, 9⟩], [⟨2, 1, 8⟩]] ∧
      ∀ n ∈ ns, ∀ p ∈ n.published, p.claim = some p.map.term :=
  ⟨_, rfl, by decide, fun n hn =>
    (published_under_claim [0, 0] takenOver _ rfl (by decide) n hn).1⟩

/-- A node that saw term 5 becomes master when its term cannot be stored, twice. -/
def unclaimed : List (Nat × Act Nat) :=
  [(0, .observe .synced 5), (0, .becomeMaster .failed false 7), (0, .publish .sent), (0, .stop 0),
    (0, .becomeMaster .failed false 8), (0, .publish .sent)]

/-- It publishes under a term it did not claim, and two maps at one epoch. -/
theorem unclaimed_published : ∃ n, run fleetStep (fleet [0]) unclaimed = some [n] ∧
      n.published = [⟨⟨5, 1, 7⟩, none⟩, ⟨⟨5, 1, 8⟩, none⟩] :=
  ⟨_, rfl, by decide⟩

end Perfcached.Cluster.Publish
