import Perfcached.Cluster.Publish

/-!
# Perfcached.Cluster.Standby

A master and its standby: a change is staged, sent to the standby, acked, and published
(`clmap_stage`, `handle_clsync`, `handle_clsync_ack`, `clmap_publish` in `src/cluster.c`).

Each of the two is a node of the fleet, and between them the messages on their way: syncs, acks and
maps. Any of them may be lost, and one that was sent first may arrive last; none arrives twice. A
stage may time out, and its sequence is not used again.

The standby keeps the last sync that arrives, whatever its epoch. `InOrder` says that syncs arrive
in the order they were sent in, but for those that are lost.
-/

namespace Perfcached.Cluster.Standby

open Machine Publish List Option

variable {β : Type}

/-- `pc_clmap_epoch_cmp` is not above zero. -/
def EpochLe (e e' : Epoch) : Prop := e.1 < e'.1 ∨ (e.1 = e'.1 ∧ e.2 ≤ e'.2)

theorem EpochLe.refl (e : Epoch) : EpochLe e e := .inr ⟨rfl, le_rfl⟩

variable {e : Epoch}

theorem EpochLe.trans {e' e'' : Epoch} (h : EpochLe e e') (h' : EpochLe e' e'') :
    EpochLe e e'' := by
  rcases h with hlt | ⟨heq, hle⟩ <;> rcases h' with hlt' | ⟨heq', hle'⟩
  · exact .inl (Nat.lt_trans hlt hlt')
  · exact .inl (heq' ▸ hlt)
  · exact .inl (heq ▸ hlt')
  · exact .inr ⟨heq.trans heq', Nat.le_trans hle hle'⟩

structure State (β : Type) where
  master : Node β
  standby : Node β
  syncs : List (Map β)
  acks : List Epoch
  maps : List (Map β)
  /-- what the master published after the standby's ack -/
  committed : List Epoch
  deriving DecidableEq

inductive Act (β : Type)
  /-- `clmap_stage`, with the standby picked or passed over -/
  | stage (backup : Bool) (body : β)
  /-- the deadline of a staged change passes -/
  | abort
  | publish (send : Send)
  | recvSync (k : Nat)
  | recvAck (k : Nat)
  | recvMap (k : Nat) (store : Store)
  | loseSync (k : Nat)
  | loseAck (k : Nat)
  | loseMap (k : Nat)
  deriving DecidableEq

/-- A change is staged now. -/
def CanStage (n : Node β) : Prop := n.master = true ∧ n.T.term ≠ 0 ∧ n.sync.state = .idle
  deriving Decidable

def step (s : State β) : Act β → Option (State β)
  | .stage backup body =>
    let n := s.master.clmapStage backup body
    some
      { s with
        master := n
        syncs := if CanStage s.master ∧ backup = true then s.syncs ++ n.staged.toList
          else s.syncs }
  | .abort => (Publish.step s.master .abort).map fun n => { s with master := n }
  | .publish send =>
    (Publish.step s.master (.publish send)).map fun n =>
      { s with
        master := n
        maps := if send = .sent then s.maps ++ s.master.staged.toList else s.maps
        committed := if send = .sent ∧ s.master.sync.haveBackup = true then
          s.committed ++ (s.master.staged.map Map.epoch).toList else s.committed }
  | .recvSync k =>
    s.syncs[k]?.bind fun m => (Publish.step s.standby (.clsync m)).map fun n =>
      { s with standby := n, syncs := s.syncs.eraseIdx k, acks := s.acks ++ [m.epoch] }
  | .recvAck k =>
    s.acks[k]?.bind fun e => (Publish.step s.master (.ack e.1 e.2)).map fun n =>
      { s with master := n, acks := s.acks.eraseIdx k }
  | .recvMap k store =>
    s.maps[k]?.bind fun m => (Publish.step s.standby (.clmap store m)).map fun n =>
      { s with standby := n, maps := s.maps.eraseIdx k }
  | .loseSync k => some { s with syncs := s.syncs.eraseIdx k }
  | .loseAck k => some { s with acks := s.acks.eraseIdx k }
  | .loseMap k => some { s with maps := s.maps.eraseIdx k }

/-- A master that has claimed its term, and a node that becomes its standby. -/
def init (master standby : Node β) : State β := ⟨master, standby, [], [], [], []⟩

/-- Syncs arrive in order, and the sequence does not wrap. -/
def InOrder (s : State β) : Act β → Prop
  | .recvSync k => k = 0
  | .stage _ _ => s.master.sync.nextSeq + 1 < 2 ^ 32
  | _ => True

instance decidableInOrder (s : State β) : DecidablePred (InOrder s) := fun a => by
  unfold InOrder
  split <;> infer_instance

/-! ### The node's functions -/

section Functions

variable {n n' : Node β} {backup : Bool} {body : β}

theorem clmapStage_of_canStage (h : CanStage n) : n.clmapStage backup body =
    { n with
      sync := { n.sync with
        haveBackup := backup
        stagedSeq := n.sync.nextSeq
        nextSeq := (n.sync.nextSeq + 1) % 2 ^ 32
        state := if backup then .staged else .acked }
      staged := some ⟨n.T.term, n.sync.nextSeq, body⟩ } := by
  obtain ⟨hmaster, hterm, hidle⟩ := h
  simp [Node.clmapStage, hmaster, hterm, pcClsyncStage, pcClsyncSetBackup, hidle]

theorem clmapStage_of_not (h : ¬ CanStage n) : n.clmapStage backup body = n := by
  unfold Node.clmapStage
  split
  · rename_i hm
    have hbusy : n.sync.state ≠ .idle := fun hidle => h ⟨hm.1, hm.2, hidle⟩
    simp [pcClsyncStage, pcClsyncSetBackup, hbusy]
  · rfl

theorem held_handleClmap (store : Store) (m : Map β) : (n.handleClmap store m).held = n.held := by
  unfold Node.handleClmap
  split
  · dsimp only
    split
    · split <;> rfl
    · rfl
  · rfl

end Functions

/-! ### What the standby has reached -/

/-- What the standby holds is of the epoch or of a later one. -/
def Reached (s : State β) (e : Epoch) : Prop := ∃ h ∈ s.standby.held, EpochLe e h.epoch

/-- The master's epochs go up in the order they are sent, the standby is behind those on their way
and not behind what it acked. -/
structure Inv (t : Nat) (s : State β) : Prop where
  term : s.master.T.term = t ∧ s.master.sync.term = t
  order : s.syncs.Pairwise fun m m' => m.seq < m'.seq
  syncs : ∀ m ∈ s.syncs, m.term = t ∧ m.seq < s.master.sync.nextSeq
  ahead : ∀ m ∈ s.syncs, ∀ h ∈ s.standby.held, EpochLe h.epoch m.epoch
  held : ∀ h ∈ s.standby.held, h.term < t ∨ h.term = t ∧ h.seq < s.master.sync.nextSeq
  acks : ∀ e ∈ s.acks, Reached s e
  staged : s.master.sync.state ≠ .idle → ∃ m, s.master.staged = some m ∧
    m.epoch = (t, s.master.sync.stagedSeq)
  acked : s.master.sync.state = .acked → s.master.sync.haveBackup = true →
    Reached s (t, s.master.sync.stagedSeq)
  committed : ∀ e ∈ s.committed, Reached s e

section Steps

variable {t : Nat} {s s' : State β}

section

variable (h : Inv t s)
include h

theorem Inv.stage {backup : Bool} {body : β} (hwrap : s.master.sync.nextSeq + 1 < 2 ^ 32)
    (hstep : step s (.stage backup body) = some s') : Inv t s' := by
  obtain rfl := some.inj hstep
  by_cases hcan : CanStage s.master
  · have hnext : (s.master.sync.nextSeq + 1) % 2 ^ 32 = s.master.sync.nextSeq + 1 :=
      Nat.mod_eq_of_lt hwrap
    rw [clmapStage_of_canStage hcan, hnext]
    have hsub : ∀ m ∈ (if CanStage s.master ∧ backup = true then
        s.syncs ++ [⟨s.master.T.term, s.master.sync.nextSeq, body⟩] else s.syncs),
        m ∈ s.syncs ∨ m = ⟨s.master.T.term, s.master.sync.nextSeq, body⟩ := by
      intro m hm
      split at hm
      · exact (mem_append.mp hm).imp_right mem_singleton.mp
      · exact .inl hm
    refine ⟨h.term, ?_, ?_, ?_, ?_, h.acks, fun _ => ⟨_, rfl, ?_⟩, ?_, h.committed⟩
    · show Pairwise _ (if _ then _ else _)
      split
      · refine pairwise_append.mpr ⟨h.order, pairwise_singleton _ _, ?_⟩
        intro m hm m' hm'
        rw [mem_singleton.mp hm']
        exact (h.syncs m hm).2
      · exact h.order
    · intro m hm
      rcases hsub m hm with hm | rfl
      · exact ⟨(h.syncs m hm).1, Nat.lt_succ_of_lt (h.syncs m hm).2⟩
      · exact ⟨h.term.1, Nat.lt_succ_self _⟩
    · intro m hm held hheld
      rcases hsub m hm with hm | rfl
      · exact h.ahead m hm held hheld
      -- what the standby holds was staged before
      · rcases h.held held hheld with hlt | ⟨heq, hlt⟩
        · exact .inl (Nat.lt_of_lt_of_eq hlt h.term.1.symm)
        · exact .inr ⟨heq.trans h.term.1.symm, Nat.le_of_lt hlt⟩
    · intro held hheld
      exact (h.held held hheld).imp_right fun ⟨heq, hlt⟩ => ⟨heq, Nat.lt_succ_of_lt hlt⟩
    · exact Prod.ext h.term.1 rfl
    · intro hacked hbackup
      subst hbackup
      cases hacked
  · have hnot : ¬ (CanStage s.master ∧ backup = true) := fun hand => hcan hand.1
    rw [clmapStage_of_not hcan, if_neg hnot]
    exact h

/-- The master's staging machine goes on without a new stage. -/
theorem Inv.resync {sync : Clsync} (hterm : sync.term = s.master.sync.term)
    (hnext : sync.nextSeq = s.master.sync.nextSeq)
    (hstaged : sync.stagedSeq = s.master.sync.stagedSeq)
    (hstate : sync.state ≠ .idle → s.master.sync.state ≠ .idle)
    (hacked : sync.state = .acked → sync.haveBackup = true → Reached s (t, sync.stagedSeq)) :
    Inv t { s with master := { s.master with sync } } := by
  refine ⟨⟨h.term.1, hterm.trans h.term.2⟩, h.order, ?_, h.ahead, ?_, h.acks, ?_, hacked,
    h.committed⟩
  · intro m hm
    rw [hnext]
    exact h.syncs m hm
  · intro held hheld
    rw [hnext]
    exact h.held held hheld
  · intro hne
    rw [hstaged]
    exact h.staged (hstate hne)

theorem Inv.ack {k : Nat} (he : s.acks[k]? = some e) : Inv t { s with
      master := { s.master with sync := pcClsyncAck s.master.sync e.1 e.2 }
      acks := s.acks.eraseIdx k } := by
  have hreached : Reached s e := h.acks e (mem_of_getElem? he)
  have hsync : Inv t { s with master :=
      { s.master with sync := pcClsyncAck s.master.sync e.1 e.2 } } := by
    unfold pcClsyncAck
    split
    · rename_i hmatch
      obtain ⟨hstate, hterm, hseq⟩ := hmatch
      refine h.resync rfl rfl rfl (fun _ => by rw [hstate]; decide) fun _ _ => ?_
      have heq : e = (t, s.master.sync.stagedSeq) := Prod.ext (hterm.trans h.term.2) hseq
      exact heq ▸ hreached
    · exact h
  exact ⟨hsync.term, hsync.order, hsync.syncs, hsync.ahead, hsync.held,
    fun e' he' => h.acks e' (mem_of_mem_eraseIdx he'), hsync.staged, hsync.acked,
    hsync.committed⟩

theorem Inv.abort :
    Inv t { s with master := { s.master with sync := pcClsyncAbort s.master.sync } } :=
  h.resync rfl rfl rfl (fun hne => absurd rfl hne) nofun

theorem Inv.publish {m : Map β} (hstate : s.master.sync.state = .acked)
    (hm : s.master.staged = some m) (maps : List (Map β)) (published : List (Publication β))
    (committed : List Epoch)
    (hcommitted : ∀ e ∈ committed, e ∈ s.committed ∨ s.master.sync.haveBackup = true ∧
      e = m.epoch) :
    Inv t { s with
      master := { s.master with
        sync := pcClsyncPublished s.master.sync, map := some m, published }
      maps
      committed } := by
  have hpublished : pcClsyncPublished s.master.sync =
      { s.master.sync with publishedSeq := s.master.sync.stagedSeq, state := .idle } :=
    if_pos hstate
  rw [hpublished]
  obtain ⟨m', hm', hepoch⟩ := h.staged (by rw [hstate]; decide)
  obtain rfl := some.inj (hm.symm.trans hm')
  refine ⟨h.term, h.order, h.syncs, h.ahead, h.held, h.acks, fun hne => absurd rfl hne,
    nofun, fun e he => ?_⟩
  rcases hcommitted e he with hold | ⟨hbackup, rfl⟩
  · exact h.committed e hold
  · rw [hepoch]
    exact h.acked hstate hbackup

/-- The standby's part: what it holds does not go back. -/
theorem Inv.recvSync {m : Map β} {sync : Clsync} (hm : s.syncs[0]? = some m) :
    Inv t { s with
      standby := { s.standby with held := some m, sync }
      syncs := s.syncs.eraseIdx 0
      acks := s.acks ++ [m.epoch] } := by
  obtain ⟨rest, hsyncs⟩ : ∃ rest, s.syncs = m :: rest := by
    cases hs : s.syncs with
    | nil =>
      rw [hs] at hm
      cases hm
    | cons m' rest =>
      rw [hs] at hm
      exact ⟨rest, by rw [some.inj hm]⟩
  have hmem : m ∈ s.syncs := hsyncs ▸ mem_cons_self
  have herase : s.syncs.eraseIdx 0 = rest := by
    rw [hsyncs]
    rfl
  rw [herase]
  have horder := h.order
  rw [hsyncs] at horder
  have hrest : ∀ m' ∈ rest, m' ∈ s.syncs := fun m' hm' => hsyncs ▸ mem_cons_of_mem _ hm'
  -- what was reached is reached by the sync that arrives
  have hkept : ∀ e, Reached s e → ∃ h' ∈ some m, EpochLe e h'.epoch := by
    rintro e ⟨held, hheld, hle⟩
    exact ⟨m, rfl, hle.trans (h.ahead m hmem held hheld)⟩
  refine ⟨h.term, (pairwise_cons.mp horder).2, fun m' hm' => h.syncs m' (hrest m' hm'), ?_, ?_,
    ?_, h.staged, fun hacked hbackup => hkept _ (h.acked hacked hbackup),
    fun e he => hkept e (h.committed e he)⟩
  · intro m' hm' held hheld
    obtain rfl := some.inj hheld
    have hlt := (pairwise_cons.mp horder).1 m' hm'
    exact .inr ⟨(h.syncs _ hmem).1.trans (h.syncs m' (hrest m' hm')).1.symm, Nat.le_of_lt hlt⟩
  · intro held hheld
    obtain rfl := some.inj hheld
    exact .inr (h.syncs _ hmem)
  · intro e he
    rcases mem_append.mp he with he | he
    · exact hkept e (h.acks e he)
    · rw [mem_singleton.mp he]
      exact ⟨m, rfl, EpochLe.refl _⟩

/-- A map that arrives at the standby does not change what it holds. -/
theorem Inv.standby {n : Node β} {maps : List (Map β)} (hheld : n.held = s.standby.held) :
    Inv t { s with standby := n, maps } := by
  have hreached : ∀ e, Reached s e → Reached ({ s with standby := n, maps } : State β) e := by
    rintro e ⟨held, hmem, hle⟩
    exact ⟨held, hheld.symm ▸ hmem, hle⟩
  refine ⟨h.term, h.order, h.syncs, ?_, ?_, fun e he => hreached e (h.acks e he), h.staged,
    fun ha hb => hreached _ (h.acked ha hb), fun e he => hreached e (h.committed e he)⟩
  · show ∀ m ∈ s.syncs, ∀ held ∈ n.held, _
    rw [hheld]
    exact h.ahead
  · show ∀ held ∈ n.held, _
    rw [hheld]
    exact h.held

end

theorem Inv.loseSync (k : Nat) (h : Inv t s) : Inv t { s with syncs := s.syncs.eraseIdx k } :=
  ⟨h.term, h.order.sublist (eraseIdx_sublist _ _),
    fun m hm => h.syncs m (mem_of_mem_eraseIdx hm),
    fun m hm => h.ahead m (mem_of_mem_eraseIdx hm), h.held, h.acks, h.staged, h.acked,
    h.committed⟩

theorem Inv.step {a : Act β} (h : Inv t s) (horder : InOrder s a)
    (hstep : Standby.step s a = some s') : Inv t s' := by
  cases a with
  | stage backup body => exact h.stage horder hstep
  | abort =>
    obtain ⟨n, hn, rfl⟩ := map_eq_some_iff.mp hstep
    simp only [Publish.step, ite_none_right_eq_some, some.injEq] at hn
    obtain ⟨-, rfl⟩ := hn
    exact h.abort
  | publish send =>
    obtain ⟨n, hn, rfl⟩ := map_eq_some_iff.mp hstep
    simp only [Publish.step, ite_none_right_eq_some, map_eq_some_iff] at hn
    obtain ⟨⟨-, hstate⟩, m, hm, rfl⟩ := hn
    cases send with
    | sent =>
      refine h.publish hstate hm _ _ _ fun e he => ?_
      split at he
      · rename_i hsent
        rw [hm] at he
        rcases mem_append.mp he with hold | hnew
        · exact .inl hold
        · exact .inr ⟨hsent.2, mem_singleton.mp hnew⟩
      · exact .inl he
    | unsent => simpa using h
    | unencoded => simpa using h.abort
  | recvSync k =>
    obtain ⟨m, hm, hstep⟩ := bind_eq_some_iff.mp hstep
    obtain ⟨n, hn, rfl⟩ := map_eq_some_iff.mp hstep
    cases hn
    obtain rfl : k = 0 := horder
    exact h.recvSync hm
  | recvAck k =>
    obtain ⟨e, he, hstep⟩ := bind_eq_some_iff.mp hstep
    obtain ⟨n, hn, rfl⟩ := map_eq_some_iff.mp hstep
    cases hn
    exact h.ack he
  | recvMap k store =>
    obtain ⟨m, hm, hstep⟩ := bind_eq_some_iff.mp hstep
    obtain ⟨n, hn, rfl⟩ := map_eq_some_iff.mp hstep
    cases hn
    exact h.standby (held_handleClmap store m)
  | loseSync k =>
    cases hstep
    exact h.loseSync k
  | loseAck k =>
    cases hstep
    exact ⟨h.term, h.order, h.syncs, h.ahead, h.held,
      fun e he => h.acks e (mem_of_mem_eraseIdx he), h.staged, h.acked, h.committed⟩
  | loseMap k =>
    cases hstep
    exact ⟨h.term, h.order, h.syncs, h.ahead, h.held, h.acks, h.staged, h.acked, h.committed⟩

/-- What the standby holds changes when a sync arrives. -/
theorem reached_step {a : Act β} (h : Inv t s) (hstep : Standby.step s a = some s')
    (hreached : Reached s e) : Reached s' e := by
  cases a with
  | stage backup body | loseSync k | loseAck k | loseMap k =>
    cases hstep
    exact hreached
  | abort | publish send =>
    obtain ⟨n, -, rfl⟩ := map_eq_some_iff.mp hstep
    exact hreached
  | recvSync k =>
    obtain ⟨m, hm, hstep⟩ := bind_eq_some_iff.mp hstep
    obtain ⟨n, hn, rfl⟩ := map_eq_some_iff.mp hstep
    cases hn
    obtain ⟨held, hheld, hle⟩ := hreached
    exact ⟨m, rfl, hle.trans (h.ahead m (mem_of_getElem? hm) held hheld)⟩
  | recvAck k =>
    obtain ⟨e, -, hstep⟩ := bind_eq_some_iff.mp hstep
    obtain ⟨n, -, rfl⟩ := map_eq_some_iff.mp hstep
    exact hreached
  | recvMap k store =>
    obtain ⟨m, -, hstep⟩ := bind_eq_some_iff.mp hstep
    obtain ⟨n, hn, rfl⟩ := map_eq_some_iff.mp hstep
    cases hn
    obtain ⟨held, hheld, hle⟩ := hreached
    exact ⟨held, (held_handleClmap store m).symm ▸ hheld, hle⟩

end Steps

/-- What the master published after the standby's ack, the standby has reached, and the epoch it
holds does not go back; as long as syncs arrive in the order they were sent in. -/
theorem standby_not_behind (master standby : Node β)
    (hclaimed : master.sync = pcClsyncInit master.T.term 0)
    (hold : ∀ h ∈ standby.held, h.term < master.T.term) (acts acts' : List (Act β))
    (s s' : State β) (hrun : run step (init master standby) acts = some s)
    (hrun' : run step s acts' = some s') (horder : Along step InOrder (init master standby) acts)
    (horder' : Along step InOrder s acts') :
    (∀ e ∈ s.committed, Reached s e) ∧ ∀ h ∈ s.standby.held, Reached s' h.epoch := by
  have hinit : Inv master.T.term (init master standby) := by
    have hidle : master.sync.state = .idle := by rw [hclaimed]; rfl
    have hterm : master.sync.term = master.T.term := by rw [hclaimed]; rfl
    refine ⟨⟨rfl, hterm⟩, Pairwise.nil, nofun, nofun,
      fun h hh => .inl (hold h hh), nofun, fun hne => absurd hidle hne,
      fun hacked => ?_, nofun⟩
    cases hidle.symm.trans hacked
  have hinv : Inv master.T.term s :=
    run_invariant (fun _ _ _ h hok hstep => h.step hok hstep) hinit horder hrun
  refine ⟨hinv.committed, fun h hh => ?_⟩
  have hkept : ∀ (s : State β) a s', Inv master.T.term s ∧ Reached s h.epoch → InOrder s a →
      step s a = some s' → Inv master.T.term s' ∧ Reached s' h.epoch :=
    fun _ _ _ hboth hok hstep => ⟨hboth.1.step hok hstep, reached_step hboth.1 hstep hboth.2⟩
  exact (run_invariant hkept ⟨hinv, h, hh, EpochLe.refl _⟩ horder' hrun').2

/-- A master of term 3 that has published nothing. -/
def claimed : Node Nat := ⟨⟨3, 3⟩, [3], true, pcClsyncInit 3 0, none, none, none, some 3, []⟩

def blank : Node Nat := ⟨⟨3, 3⟩, [3], false, pcClsyncInit 3 0, none, none, none, none, []⟩

/-- A stage times out with its sync on the way; the next is acked and published. -/
def timedOut : List (Act Nat) :=
  [.stage true 7, .abort, .stage true 8, .recvSync 0, .recvSync 0, .recvAck 1, .publish .sent]

theorem standby_not_behind_timedOut : ∃ s s', run step (init claimed blank) timedOut = some s ∧
      run step s [.recvMap 0 .synced] = some s' ∧ s.committed = [(3, 2)] ∧
      (∀ e ∈ s.committed, Reached s e) ∧ ∀ h ∈ s.standby.held, Reached s' h.epoch := by
  refine ⟨_, _, rfl, rfl, by decide, ?_⟩
  exact standby_not_behind claimed blank rfl (by decide) timedOut [.recvMap 0 .synced] _ _ rfl rfl
    (by decide) (by decide)

/-- The sync of the stage that timed out arrives after the other. -/
theorem standby_goes_back :
    ∃ s, run step (init claimed blank) [.stage true 7, .abort, .stage true 8, .recvSync 1,
        .recvAck 0, .publish .sent, .recvSync 0] = some s ∧
      s.committed = [(3, 2)] ∧ s.standby.held.map Map.epoch = some (3, 1) :=
  ⟨_, rfl, by decide, by decide⟩

end Perfcached.Cluster.Standby
