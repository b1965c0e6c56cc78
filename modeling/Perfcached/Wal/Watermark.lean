import Perfcached.Lib.Greatest
import Perfcached.Wal.Pump

/-!
# Perfcached.Wal.Watermark

The durable watermark (`produce`, `note_drop`, `pc_wal_pump`, `wal_sync_commit`,
`pc_wal_durable_seq` and `pc_wal_sync` of `src/wal.c`).

Producers stamp a sequence first and publish the record to their ring afterwards, or drop
it; the pump drains the rings one after the other, within its limits, appends the batch
in sequence order and syncs. `Node` is the machine of these steps, in any interleaving.

A sync that claims moves the watermark to `pending_hi`, the highest sequence drained so
far. `watermark_sound` says that the watermark can be trusted after every run in which no
claiming sync finds a lower sequence still in the hands of a producer, in a ring or in
the batch (`SyncClear`).
-/

namespace Perfcached.Wal

open List Nat

def batchMax : Nat := 4096

/-- A producer between its stamp and its publish. -/
structure Flight where
  ring : Nat
  entry : Entry
  deriving DecidableEq

/-- A pass of the pump: the next ring, what was drained so far, and the room of the
stage. -/
structure Pass where
  next : Nat
  recs : List Entry
  cap : Nat
  deriving DecidableEq

/-- The producers, their rings and the pump. -/
structure Node where
  wal : WalState
  inflight : List Flight
  rings : List (List Entry)
  pass : Option Pass
  /-- `drop_lo`, `drop_hi`: 0 for none. -/
  dropLo : Nat
  dropHi : Nat
  /-- The sequences dropped. -/
  dropped : List Nat
  /-- The device refused a write or a sync. -/
  failed : Bool
  deriving DecidableEq

/-- A step of a producer or of the pump. -/
inductive NodeAct
  | stamp (ring len : Nat)
  | publish (i : Nat)
  | drop (i : Nat)
  | begin (cap : Nat)
  | drain
  | flush (refused : Option Nat)
  | sync
  | refuse

def batchLen (es : List Entry) : Nat := (es.map Entry.len).sum

/-- The inner loop of the drain: what stays in the ring, and the batch. -/
def drainRing (cap : Nat) : List Entry → List Entry → List Entry × List Entry
  | [], batch => ([], batch)
  | e :: r, batch =>
    if batchMax ≤ batch.length then (e :: r, batch)
    else if cap < batchLen batch + e.len then (e :: r, batch)
    else drainRing cap r (batch ++ [e])

def Node.noteDrop (n : Node) (seq : Nat) : Node :=
  { n with
    dropLo := if n.dropLo = 0 ∨ seq < n.dropLo then seq else n.dropLo
    dropHi := max n.dropHi seq
    dropped := n.dropped ++ [seq] }

/-- One step. A ring has one producer, with one record at a time; `publish` and `drop` are
of the record at an index of those in flight. `flush (some k)` is a device that refuses
after `k` records of the batch. -/
def nodeStep (n : Node) : NodeAct → Option Node
  | .stamp ring len =>
    if ¬ n.failed ∧ ring < n.rings.length ∧ ∀ f ∈ n.inflight, f.ring ≠ ring then
      some { n with
        wal := { n.wal with seq := n.wal.seq + 1 }
        inflight := n.inflight ++ [⟨ring, ⟨n.wal.seq + 1, len⟩⟩] }
    else none
  | .publish i =>
    n.inflight[i]?.bind fun f =>
      n.rings[f.ring]?.map fun r =>
        { n with
          inflight := n.inflight.eraseIdx i
          rings := n.rings.set f.ring (r ++ [f.entry]) }
  | .drop i =>
    n.inflight[i]?.map fun f =>
      { n with inflight := n.inflight.eraseIdx i }.noteDrop f.entry.seq
  | .begin cap =>
    if ¬ n.failed ∧ n.pass.isNone then some { n with pass := some ⟨0, [], cap⟩ } else none
  | .drain =>
    n.pass.bind fun p =>
      n.rings[p.next]?.map fun r =>
        { n with
          rings := n.rings.set p.next (drainRing p.cap r p.recs).1
          pass := some { p with next := p.next + 1, recs := (drainRing p.cap r p.recs).2 } }
  | .flush refused =>
    n.pass.bind fun p =>
      if n.rings.length ≤ p.next ∨ batchMax ≤ p.recs.length then
        let es := p.recs.insertionSort fun a b => a.seq ≤ b.seq
        some { n with
          wal := n.wal.appendAll (refused.elim es es.take)
          pass := none
          failed := n.failed || refused.isSome }
      else none
  | .sync =>
    if ¬ n.failed ∧ n.pass.isNone then some { n with wal := n.wal.syncCommit true } else none
  | .refuse => if n.pass.isNone then some { n with failed := true } else none

def Node.start (w : WalState) (nrings : Nat) : Node where
  wal := w
  inflight := []
  rings := List.replicate nrings []
  pass := none
  dropLo := 0
  dropHi := 0
  dropped := []
  failed := false

/-- `pc_wal_durable_seq`, of a log that is up. -/
def Node.durableSeq (n : Node) (covered : Nat) : Nat :=
  let s := n.wal.syncedSeq
  let s :=
    if covered < n.dropHi then
      let lowest := if covered < n.dropLo then n.dropLo else covered + 1
      if lowest ≤ s then lowest - 1 else s
    else s
  if covered < s then s else covered

/-- `pc_wal_sync` answers 0, for the sequence it read when it was called. -/
def Node.syncAnswers (n : Node) (target : Nat) : Prop := target ≤ n.wal.syncedSeq
  deriving Decidable

/-- The sequences that were stamped and are on their way to the log. -/
def Node.waiting (n : Node) : List Nat :=
  n.inflight.map (fun f => f.entry.seq) ++ n.rings.flatten.map Entry.seq ++
    (n.pass.elim [] Pass.recs).map Entry.seq

/-- A claiming sync finds every sequence up to `pending_hi` out of the producers' hands,
the rings and the batch. -/
def SyncClear (n : Node) : NodeAct → Prop
  | .sync => ∀ k ∈ n.waiting, n.wal.pendingHi < k
  | _ => True

instance (n : Node) : DecidablePred (SyncClear n) := fun a => by
  unfold SyncClear
  split <;> infer_instance

/-! ### What an append writes -/

def WalState.written (w : WalState) : List Nat := w.durable ++ w.dirty

/-- A record that is appended is written; nothing written is lost, nothing durable
becomes less so, and no watermark moves. -/
structure WalState.Grew (w w' : WalState) (seqs : List Nat) : Prop where
  written : ∀ k, k ∈ w'.written ↔ k ∈ w.written ∨ k ∈ seqs
  durable : ∀ k ∈ w.durable, k ∈ w'.durable
  seq : w'.seq = w.seq
  syncedSeq : w'.syncedSeq = w.syncedSeq
  pendingHi : w'.pendingHi = seqs.foldl max w.pendingHi

theorem append_grew (w : WalState) (e : Entry) : w.Grew (w.append e) [e.seq] := by
  have hput : ∀ v : WalState, v.durable ++ v.dirty = w.durable ++ w.dirty →
      (∀ k ∈ w.durable, k ∈ v.durable) → v.seq = w.seq → v.syncedSeq = w.syncedSeq →
      v.pendingHi = max w.pendingHi e.seq → w.Grew (v.put e) [e.seq] := by
    intro v hw hd hs hy hp
    refine ⟨fun k => ?_, hd, hs, hy, hp⟩
    change k ∈ v.durable ++ (v.dirty ++ [e.seq]) ↔ k ∈ w.durable ++ w.dirty ∨ k ∈ [e.seq]
    rw [← append_assoc, hw, mem_append]
  rw [WalState.append]
  simp only [seqNote_eq]
  split
  · -- the rotation syncs what the old segment holds
    refine hput _ ?_ ?_ rfl rfl rfl
    · change (w.durable ++ w.dirty) ++ [] = _
      rw [append_nil]
    · exact fun k hk => mem_append_left _ hk
  · exact hput _ rfl (fun _ hk => hk) rfl rfl rfl

theorem appendAll_grew (w : WalState) (es : List Entry) :
    w.Grew (w.appendAll es) (es.map Entry.seq) := by
  rw [appendAll_eq]
  induction es generalizing w with
  | nil => exact ⟨by simp, fun _ hk => hk, rfl, rfl, rfl⟩
  | cons e es ih =>
    have h₁ := append_grew w e
    have h₂ := ih (w.append e)
    refine ⟨fun k => ?_, fun k hk => h₂.durable k (h₁.durable k hk), h₂.seq.trans h₁.seq,
      h₂.syncedSeq.trans h₁.syncedSeq, ?_⟩
    · rw [foldl_cons, h₂.written, h₁.written]
      simp [or_assoc]
    · rw [foldl_cons, h₂.pendingHi, h₁.pendingHi]
      rfl

/-! ### What holds in every run -/

/-- The invariant of the machine; `base` is the sequence it started from. -/
structure Node.Inv (base : Nat) (n : Node) : Prop where
  stamped : n.failed = false → ∀ k, base < k → k ≤ n.wal.seq →
    k ∈ n.waiting ∨ k ∈ n.wal.written ∨ k ∈ n.dropped
  bounded : ∀ k ∈ n.waiting, k ≤ n.wal.seq
  pendingHi : n.wal.pendingHi ≤ n.wal.seq
  synced : ∀ k, base < k → k ≤ n.wal.syncedSeq → k ∈ n.wal.durable ∨ k ∈ n.dropped
  drops : ∀ k ∈ n.dropped, 0 < n.dropLo ∧ n.dropLo ≤ k ∧ k ≤ n.dropHi
  positive : ∀ f ∈ n.inflight, 0 < f.entry.seq

variable {α : Type} {i : Nat}

theorem mem_eraseIdx_or {l : List α} {a x : α} (hi : l[i]? = some a) :
    x ∈ l ↔ x = a ∨ x ∈ l.eraseIdx i := by
  obtain ⟨hlt, rfl⟩ := List.getElem?_eq_some_iff.mp hi
  exact (getElem_cons_eraseIdx_perm hlt).mem_iff.symm.trans mem_cons

theorem mem_flatten_set {l : List (List α)} (hi : i < l.length) (r : List α) (x : α) :
    x ∈ (l.set i r).flatten ↔ x ∈ r ∨ x ∈ (l.eraseIdx i).flatten := by
  have hset : (l.set i r)[i]? = some r := by rw [getElem?_set_self hi]
  simp only [mem_flatten]
  constructor
  · rintro ⟨y, hy, hx⟩
    rw [mem_eraseIdx_or hset, eraseIdx_set_eq] at hy
    rcases hy with rfl | hy
    · exact .inl hx
    · exact .inr ⟨y, hy, hx⟩
  · rintro (hx | ⟨y, hy, hx⟩)
    · exact ⟨r, (mem_eraseIdx_or hset).mpr (.inl rfl), hx⟩
    · refine ⟨y, (mem_eraseIdx_or hset).mpr (.inr ?_), hx⟩
      rwa [eraseIdx_set_eq]

theorem mem_flatten_of_getElem {l : List (List α)} {r : List α} (hr : l[i]? = some r) (x : α) :
    x ∈ l.flatten ↔ x ∈ r ∨ x ∈ (l.eraseIdx i).flatten := by
  obtain ⟨hlt, rfl⟩ := List.getElem?_eq_some_iff.mp hr
  rw [← mem_flatten_set hlt, set_getElem_self]

/-- The drain moves records from the front of the ring to the batch. -/
theorem drainRing_split (cap : Nat) (r batch : List Entry) :
    (drainRing cap r batch).2 ++ (drainRing cap r batch).1 = batch ++ r := by
  induction r generalizing batch with
  | nil => rfl
  | cons e r ih =>
    rw [drainRing]
    split
    · rfl
    · split
      · rfl
      · rw [ih, append_assoc]
        rfl

variable {n : Node}

open Node

theorem Node.mem_waiting {k : Nat} :
    k ∈ n.waiting ↔ (∃ f ∈ n.inflight, f.entry.seq = k) ∨
      (∃ e ∈ n.rings.flatten, e.seq = k) ∨ ∃ e ∈ n.pass.elim [] Pass.recs, e.seq = k := by
  simp only [waiting, mem_append, mem_map, or_assoc]

variable {base : Nat}

/-- The steps that only move records towards the log. -/
theorem Node.Inv.move {n' : Node} (h : n.Inv base) (hwal : n'.wal = n.wal)
    (hfail : n'.failed = n.failed) (hlo : n'.dropLo = n.dropLo) (hhi : n'.dropHi = n.dropHi)
    (hdrop : n'.dropped = n.dropped) (hpos : ∀ f ∈ n'.inflight, f ∈ n.inflight)
    (hwait : ∀ k, k ∈ n'.waiting ↔ k ∈ n.waiting) : n'.Inv base where
  stamped := by
    intro hf k hb hk
    rw [hwait, hwal, hdrop]
    exact h.stamped (hfail ▸ hf) k hb (hwal ▸ hk)
  bounded := fun k hk => hwal ▸ h.bounded k ((hwait k).mp hk)
  pendingHi := hwal ▸ h.pendingHi
  synced := by
    rw [hwal, hdrop]
    exact h.synced
  drops := by
    rw [hlo, hhi, hdrop]
    exact h.drops
  positive := fun f hf => h.positive f (hpos f hf)

section

variable (h : n.Inv base)
include h

theorem Node.Inv.publish {f : Flight} {r : List Entry} (hf : n.inflight[i]? = some f)
    (hr : n.rings[f.ring]? = some r) :
    Inv base { n with
      inflight := n.inflight.eraseIdx i
      rings := n.rings.set f.ring (r ++ [f.entry]) } := by
  refine h.move rfl rfl rfl rfl rfl (fun f hf => List.mem_of_mem_eraseIdx hf) fun k => ?_
  have hlt := (List.getElem?_eq_some_iff.mp hr).1
  simp only [mem_waiting, mem_flatten_set hlt, mem_flatten_of_getElem hr,
    mem_eraseIdx_or hf, List.mem_append, List.mem_singleton]
  constructor
  · rintro (⟨g, hg, rfl⟩ | ⟨e, (he | rfl) | he, rfl⟩ | hp)
    · exact .inl ⟨g, .inr hg, rfl⟩
    · exact .inr (.inl ⟨e, .inl he, rfl⟩)
    · exact .inl ⟨f, .inl rfl, rfl⟩
    · exact .inr (.inl ⟨e, .inr he, rfl⟩)
    · exact .inr (.inr hp)
  · rintro (⟨g, rfl | hg, rfl⟩ | ⟨e, he | he, rfl⟩ | hp)
    · exact .inr (.inl ⟨g.entry, .inl (.inr rfl), rfl⟩)
    · exact .inl ⟨g, hg, rfl⟩
    · exact .inr (.inl ⟨e, .inl (.inl he), rfl⟩)
    · exact .inr (.inl ⟨e, .inr he, rfl⟩)
    · exact .inr (.inr hp)

theorem Node.Inv.drain {p : Pass} {r : List Entry} (hp : n.pass = some p)
    (hr : n.rings[p.next]? = some r) :
    Inv base { n with
      rings := n.rings.set p.next (drainRing p.cap r p.recs).1
      pass := some { p with next := p.next + 1, recs := (drainRing p.cap r p.recs).2 } } := by
  refine h.move rfl rfl rfl rfl rfl (fun _ hf => hf) fun k => ?_
  have hlt := (List.getElem?_eq_some_iff.mp hr).1
  have hsplit : ∀ e, e ∈ (drainRing p.cap r p.recs).2 ∨ e ∈ (drainRing p.cap r p.recs).1 ↔
      e ∈ p.recs ∨ e ∈ r := by
    intro e
    rw [← List.mem_append, drainRing_split, List.mem_append]
  simp only [mem_waiting, mem_flatten_set hlt, mem_flatten_of_getElem hr, hp, Option.elim_some]
  refine or_congr Iff.rfl ?_
  constructor
  · rintro (⟨e, he | he, rfl⟩ | ⟨e, he, rfl⟩)
    · rcases (hsplit e).mp (.inr he) with he | he
      · exact .inr ⟨e, he, rfl⟩
      · exact .inl ⟨e, .inl he, rfl⟩
    · exact .inl ⟨e, .inr he, rfl⟩
    · rcases (hsplit e).mp (.inl he) with he | he
      · exact .inr ⟨e, he, rfl⟩
      · exact .inl ⟨e, .inl he, rfl⟩
  · rintro (⟨e, he | he, rfl⟩ | ⟨e, he, rfl⟩)
    · rcases (hsplit e).mpr (.inr he) with he | he
      · exact .inr ⟨e, he, rfl⟩
      · exact .inl ⟨e, .inl he, rfl⟩
    · exact .inl ⟨e, .inr he, rfl⟩
    · rcases (hsplit e).mpr (.inl he) with he | he
      · exact .inr ⟨e, he, rfl⟩
      · exact .inl ⟨e, .inl he, rfl⟩

theorem Node.Inv.stamp (ring len : Nat) :
    Inv base { n with
      wal := { n.wal with seq := n.wal.seq + 1 }
      inflight := n.inflight ++ [⟨ring, ⟨n.wal.seq + 1, len⟩⟩] } := by
  have hwait : ∀ k, k ∈ waiting { n with
      wal := { n.wal with seq := n.wal.seq + 1 }
      inflight := n.inflight ++ [⟨ring, ⟨n.wal.seq + 1, len⟩⟩] } ↔
        k ∈ n.waiting ∨ k = n.wal.seq + 1 := by
    intro k
    simp only [waiting, map_append, map_cons, map_nil, mem_append, mem_singleton]
    tauto
  refine ⟨fun hf k hb hk => ?_, fun k hk => ?_, le_succ_of_le h.pendingHi, h.synced, h.drops,
    fun f hf => ?_⟩
  · rw [hwait]
    rcases lt_or_eq_of_le (show k ≤ n.wal.seq + 1 from hk) with hlt | heq
    · rcases h.stamped hf k hb (le_of_lt_succ hlt) with hw | hw
      · exact .inl (.inl hw)
      · exact .inr hw
    · exact .inl (.inr heq)
  · rcases (hwait k).mp hk with hk | rfl
    · exact le_succ_of_le (h.bounded k hk)
    · exact le_rfl
  · rcases mem_append.mp hf with hf | hf
    · exact h.positive f hf
    · rw [mem_singleton.mp hf]
      exact succ_pos _

theorem Node.Inv.drop {f : Flight} (hf : n.inflight[i]? = some f) :
    Inv base ({ n with inflight := n.inflight.eraseIdx i }.noteDrop f.entry.seq) := by
  have hpos := h.positive f (mem_of_getElem? hf)
  have hwait : ∀ k, k ∈ n.waiting ↔
      k ∈ waiting { n with inflight := n.inflight.eraseIdx i } ∨ k = f.entry.seq := by
    intro k
    simp only [mem_waiting, mem_eraseIdx_or hf]
    constructor
    · rintro (⟨g, rfl | hg, rfl⟩ | hrest)
      · exact .inr rfl
      · exact .inl (.inl ⟨g, hg, rfl⟩)
      · exact .inl (.inr hrest)
    · rintro ((⟨g, hg, rfl⟩ | hrest) | rfl)
      · exact .inl ⟨g, .inr hg, rfl⟩
      · exact .inr hrest
      · exact .inl ⟨f, .inl rfl, rfl⟩
  refine ⟨fun hfail k hb hk => ?_, fun k hk => h.bounded k ((hwait k).mpr (.inl hk)), h.pendingHi,
    fun k hb hk => ?_, fun k hk => ?_, fun g hg => h.positive g (mem_of_mem_eraseIdx hg)⟩
  · have hdrop : ∀ k', k' ∈ n.dropped ∨ k' = f.entry.seq → k' ∈ n.dropped ++ [f.entry.seq] := by
      simp
    rcases h.stamped hfail k hb hk with hw | hw | hw
    · rcases (hwait k).mp hw with hw | hw
      · exact .inl hw
      · exact .inr (.inr (hdrop k (.inr hw)))
    · exact .inr (.inl hw)
    · exact .inr (.inr (hdrop k (.inl hw)))
  · rcases h.synced k hb hk with hd | hd
    · exact .inl hd
    · exact .inr (mem_append_left _ hd)
  · simp only [noteDrop] at hk ⊢
    rcases mem_append.mp hk with hk | hk
    · obtain ⟨h0, hlo, hhi⟩ := h.drops k hk
      split <;> omega
    · rw [mem_singleton.mp hk]
      split <;> omega

/-- The batch, or what the device took of it, in sequence order. -/
theorem Node.Inv.flush {p : Pass} {es : List Entry} (hp : n.pass = some p)
    (hes : (p.recs.insertionSort fun a b => a.seq ≤ b.seq) = es) (refused : Option Nat) :
    Inv base { n with
      wal := n.wal.appendAll (refused.elim es es.take)
      pass := none
      failed := n.failed || refused.isSome } := by
  have hmem : ∀ e, e ∈ es ↔ e ∈ p.recs := fun e => hes ▸ mem_insertionSort _
  have hsub : ∀ e ∈ refused.elim es es.take, e ∈ p.recs := by
    intro e he
    rw [← hmem]
    cases refused with
    | none => exact he
    | some k => exact mem_of_mem_take he
  have hgrew := appendAll_grew n.wal (refused.elim es es.take)
  have hrecs : ∀ e ∈ p.recs, e.seq ∈ n.waiting := fun e he =>
    mem_waiting.mpr (.inr (.inr ⟨e, by rw [hp]; exact he, rfl⟩))
  refine ⟨fun hf k hb hk => ?_, fun k hk => ?_, ?_, fun k hb hk => ?_, h.drops, h.positive⟩
  · -- nothing was refused, so the whole batch is written
    simp only [Bool.or_eq_false_iff] at hf
    obtain ⟨hfail, hnone⟩ := hf
    have hrefused : refused = none := by simpa using hnone
    subst hrefused
    rw [hgrew.seq] at hk
    rw [hgrew.written]
    rcases h.stamped hfail k hb hk with hw | hw | hw
    · rw [mem_waiting, hp] at hw
      rcases hw with hw | hw | ⟨e, he, rfl⟩
      · exact .inl (mem_waiting.mpr (.inl hw))
      · exact .inl (mem_waiting.mpr (.inr (.inl hw)))
      · refine .inr (.inl (.inr (mem_map_of_mem ?_)))
        exact (hmem e).mpr he
    · exact .inr (.inl (.inl hw))
    · exact .inr (.inr hw)
  · rw [hgrew.seq]
    refine h.bounded k (mem_waiting.mpr ?_)
    rcases mem_waiting.mp hk with hk | hk | ⟨e, he, -⟩
    · exact .inl hk
    · exact .inr (.inl hk)
    · cases he
  · rw [hgrew.pendingHi, hgrew.seq]
    refine (Greatest.foldl_max_le_iff (fun x => x) _ _ _).mpr ⟨h.pendingHi, fun x hx => ?_⟩
    obtain ⟨e, he, rfl⟩ := mem_map.mp hx
    exact h.bounded _ (hrecs e (hsub e he))
  · rw [hgrew.syncedSeq] at hk
    rcases h.synced k hb hk with hd | hd
    · exact .inl (hgrew.durable k hd)
    · exact .inr hd

/-- A sync that claims, with nothing lower on its way. -/
theorem Node.Inv.sync (hf : n.failed = false) (hclear : ∀ k ∈ n.waiting, n.wal.pendingHi < k) :
    Inv base { n with wal := n.wal.syncCommit true } := by
  refine ⟨fun hfail k hb hk => ?_, h.bounded, h.pendingHi, fun k hb hk => ?_, h.drops, h.positive⟩
  · rcases h.stamped hfail k hb hk with hw | hw | hw
    · exact .inl hw
    · refine .inr (.inl ?_)
      change k ∈ (n.wal.durable ++ n.wal.dirty) ++ []
      rwa [append_nil]
    · exact .inr (.inr hw)
  · have hle : k ≤ n.wal.pendingHi := hk
    rcases h.stamped hf k hb (le_trans hle h.pendingHi) with hw | hw | hw
    · exact absurd (hclear k hw) (not_lt.mpr hle)
    · exact .inl hw
    · exact .inr hw

end

/-- **One step keeps the invariant**, where a claiming sync finds nothing lower on its
way. -/
theorem Node.Inv.step {n' : Node} {a : NodeAct} (h : n.Inv base) (hok : SyncClear n a)
    (hs : nodeStep n a = some n') : n'.Inv base := by
  cases a with
  | stamp ring len =>
    obtain ⟨-, ⟨⟩⟩ := Option.ite_none_right_eq_some.mp hs
    exact h.stamp ring len
  | publish i =>
    obtain ⟨f, hf, hs⟩ := Option.bind_eq_some_iff.mp hs
    obtain ⟨r, hr, rfl⟩ := Option.map_eq_some_iff.mp hs
    exact h.publish hf hr
  | drop i =>
    obtain ⟨f, hf, rfl⟩ := Option.map_eq_some_iff.mp hs
    exact h.drop hf
  | begin cap =>
    obtain ⟨hidle, ⟨⟩⟩ := Option.ite_none_right_eq_some.mp hs
    refine h.move rfl rfl rfl rfl rfl (fun _ hf => hf) fun k => ?_
    simp [mem_waiting, Option.isNone_iff_eq_none.mp hidle.2]
  | drain =>
    obtain ⟨p, hp, hs⟩ := Option.bind_eq_some_iff.mp hs
    obtain ⟨r, hr, rfl⟩ := Option.map_eq_some_iff.mp hs
    exact h.drain hp hr
  | flush refused =>
    obtain ⟨p, hp, hs⟩ := Option.bind_eq_some_iff.mp hs
    split at hs
    · cases hs
      exact h.flush hp rfl refused
    · cases hs
  | sync =>
    obtain ⟨hup, ⟨⟩⟩ := Option.ite_none_right_eq_some.mp hs
    exact h.sync (by simpa using hup.1) hok
  | refuse =>
    obtain ⟨-, ⟨⟩⟩ := Option.ite_none_right_eq_some.mp hs
    exact ⟨nofun, h.bounded, h.pendingHi, h.synced, h.drops, h.positive⟩

theorem Node.start_inv {w : WalState} (hp : w.pendingHi = w.seq) (hs : w.syncedSeq = w.seq)
    (nrings : Nat) : (start w nrings).Inv w.seq where
  stamped := fun _ k hb hk => absurd hk (not_le.mpr hb)
  bounded := by
    intro k hk
    obtain ⟨f, hf, -⟩ | ⟨e, he, -⟩ | ⟨e, he, -⟩ := mem_waiting.mp hk
    · cases hf
    · obtain ⟨r, hr, he⟩ := mem_flatten.mp he
      rw [eq_of_mem_replicate hr] at he
      cases he
    · cases he
  pendingHi := hp.le
  synced := fun k hb hk => absurd (hs ▸ hk) (not_le.mpr hb)
  drops := nofun
  positive := nofun

/-- `pc_wal_durable_seq` answers the watermark or the snapshot's marker at most. -/
theorem Node.durableSeq_le (n : Node) (c : Nat) : n.durableSeq c ≤ max n.wal.syncedSeq c := by
  unfold durableSeq
  simp only
  repeat' split
  all_goals omega

/-- It stays below every drop that the snapshot does not cover. -/
theorem Node.durableSeq_lt_drop (n : Node) {c k : Nat} (hc : c < k) (hlo : n.dropLo ≤ k)
    (hhi : k ≤ n.dropHi) : n.durableSeq c < k := by
  unfold durableSeq
  simp only [if_pos (show c < n.dropHi by omega)]
  repeat' split
  all_goals omega

/-- **The durable watermark is sound** in every run in which a claiming sync finds every
sequence up to `pending_hi` out of the producers' hands, the rings and the batch: of the
sequences stamped since the start, those at or below what `pc_wal_durable_seq` answers
were written and synced, or are covered by the snapshot; so are those at or below the target
that `pc_wal_sync` answers 0 for, unless a drop the snapshot does not cover lies there. -/
theorem watermark_sound {w : WalState} (hp : w.pendingHi = w.seq) (hs : w.syncedSeq = w.seq)
    {nrings : Nat} {as : List NodeAct} {n : Node}
    (hok : Machine.Along nodeStep SyncClear (start w nrings) as)
    (hrun : Machine.run nodeStep (start w nrings) as = some n) :
    (∀ c k, w.seq < k → k ≤ n.durableSeq c → k ∈ n.wal.durable ∨ k ≤ c) ∧
    ∀ c target k, n.syncAnswers target → n.dropHi ≤ c ∨ target < n.dropLo → w.seq < k →
      k ≤ target → k ∈ n.wal.durable ∨ k ≤ c := by
  have h : n.Inv w.seq := Machine.run_invariant (fun _ _ _ hI hc hs => hI.step hc hs)
    (start_inv hp hs nrings) hok hrun
  constructor
  · intro c k hb hk
    by_cases hc : k ≤ c
    · exact .inr hc
    refine .inl ?_
    have hsync : k ≤ n.wal.syncedSeq := by
      have := n.durableSeq_le c
      omega
    rcases h.synced k hb hsync with hd | hd
    · exact hd
    · obtain ⟨-, hlo, hhi⟩ := h.drops k hd
      exact absurd hk (Nat.not_le.mpr (n.durableSeq_lt_drop (Nat.lt_of_not_le hc) hlo hhi))
  · intro c target k htarget hdrop hb hk
    rcases h.synced k hb (le_trans hk htarget) with hd | hd
    · exact .inl hd
    · obtain ⟨-, hlo, hhi⟩ := h.drops k hd
      omega

/-- A log that was just made: two segments of 1 MB, the first active. -/
def newLog : WalState where
  segBytes := 1048576
  slots := [⟨1, 0, 1, 1, []⟩, .fresh]
  cur := some 0
  gen := 1
  off := hdr
  seq := 0
  pendingHi := 0
  syncedSeq := 0
  marker := 0
  haveRdb := true
  overruns := 0
  ctrl := some ⟨0, [⟨1, 1, 0⟩, ⟨0, 0, 0⟩]⟩
  dirty := []
  durable := []
  gone := []

/-- One producer stamps 1, another stamps 2 and publishes it, and the pump drains and
syncs: the watermark is 2, and record 1 is not even in a ring. And a record that a full ring
dropped is passed over: `pc_wal_sync` answers 0 for it. -/
theorem watermark_passes_unpublished :
    (∃ n, Machine.run nodeStep (start newLog 2) [.stamp 0 100, .stamp 1 100, .publish 1,
        .begin 4194304, .drain, .drain, .flush none, .sync] = some n ∧
      n.durableSeq 0 = 2 ∧ n.wal.durable = [2] ∧ n.syncAnswers 2 ∧
      n.inflight = [⟨0, ⟨1, 100⟩⟩]) ∧
    ∃ n, Machine.run nodeStep (start newLog 2) [.stamp 0 100, .drop 0, .stamp 1 100,
        .publish 0, .begin 4194304, .drain, .drain, .flush none, .sync] = some n ∧
      n.syncAnswers 2 ∧ n.wal.durable = [2] := by
  refine ⟨⟨_, rfl, ?_⟩, ⟨_, rfl, ?_⟩⟩ <;> decide

def bothPublished : List NodeAct :=
  [.stamp 0 100, .stamp 1 100, .publish 1, .publish 0, .begin 4194304, .drain, .drain,
    .flush none, .sync]

/-- The watermark is 2 then, and both records are durable. -/
theorem watermark_sound_two :
    ∃ n, Machine.run nodeStep (start newLog 2) bothPublished = some n ∧
      n.durableSeq 0 = 2 ∧ 1 ∈ n.wal.durable ∧ 2 ∈ n.wal.durable := by
  have h := (@watermark_sound newLog rfl rfl 2 bothPublished _ (by decide) rfl).1 0
  refine ⟨_, rfl, by decide, ?_, ?_⟩
  · exact (h 1 (by decide) (by decide)).resolve_right (by decide)
  · exact (h 2 (by decide) (by decide)).resolve_right (by decide)

end Perfcached.Wal
