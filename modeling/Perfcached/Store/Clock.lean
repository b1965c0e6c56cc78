import Perfcached.Lib.Greatest
import Perfcached.Lib.Machine
import Perfcached.Store.Operations

/-!
# Perfcached.Store.Clock

The write clock, and the versions it gives a key (`src/compat/compat.c`).

The clustered build has one counter, which every write increments. The standalone build has one
clock per thread, which a write takes above the shared counter; only a delete and a reap raise
the shared one (`pc_lamport_publish`). In both a write is stamped above the record it replaces
(`ver_local`).

A node here takes atomic table operations of any threads, and logs every version a key's record
gets and every version a write or delete is stamped with. Versions are 64 bits wide in the source
and numbers here: where what a node starts with and what peers send it is below 2^64 - 2^32, none
reaches 2^64 in as many operations as that leaves (`Clocked.Below.run`).
-/

namespace Perfcached

open Machine List Option Nat Bool

/-- The two builds. -/
inductive Edition
  | standalone
  | clustered
  deriving DecidableEq

/-- `pc_lamport`, and each thread's `lt_clock`. -/
structure Clocks where
  shared : Nat
  lt : Nat → Nat

/-- What `pc_lamport_tick` counts on from. -/
def Clocks.base (c : Clocks) (ed : Edition) (tid : Nat) : Nat :=
  match ed with
  | .standalone => max (c.lt tid) c.shared
  | .clustered => c.shared

/-- The clocks after a tick of thread `tid` to `v`. -/
def Clocks.ticked (c : Clocks) (ed : Edition) (tid v : Nat) : Clocks :=
  match ed with
  | .standalone => { c with lt := fun i => if i = tid then v else c.lt i }
  | .clustered => { c with shared := v }

/-- `pc_lamport_publish`. -/
def Clocks.publish (c : Clocks) (ed : Edition) (v : Nat) : Clocks :=
  match ed with
  | .standalone => { c with shared := max c.shared v }
  | .clustered => c

/-! ### Local writes -/

/-- A write of a key: `pcache_ht_store_ex`, `pcache_ht_add_ex` or `pcache_ht_touch`. -/
inductive LocalWrite
  | store (v : List Bytes.Byte) (expires : Nat) (rflags : Bytes.Byte)
  | incr (delta : BitVec 64) (expires : Nat)
  | touch (expires : Nat)

/-- The write: whether it went through, the table and the clock. -/
def LocalWrite.run (A : Arena) (ticks clock : Nat) (t : Table) (k : Key) :
    LocalWrite → Bool × Table × Nat
  | .store v expires rflags =>
    let r := htStoreEx A ticks clock t k v expires rflags
    (r.1 = .ok, r.2)
  | .incr delta expires =>
    let r := htAddEx A ticks clock t k delta expires
    (r.1 ≠ .error, r.2)
  | .touch expires => htTouch ticks clock t k expires

/-- **A write that goes through leaves a record stamped by `ver_local`**, and ticks the clock
once; one that does not changes nothing. -/
theorem LocalWrite.run_spec (w : LocalWrite) (A : Arena) (ticks clock : Nat) (t : Table) (k : Key) :
    w.run A ticks clock t k = (false, t, clock) ∨ ∃ r, r.ver = verLocal clock (t.lookup k) ∧
        w.run A ticks clock t k = (true, t.insert k r, clock + 1) := by
  cases w with
  | store v expires rflags =>
    simp only [LocalWrite.run, htStoreEx, storeBody, map_none, getD_none, any_none, isSome_none]
    split
    · exact .inl rfl
    · cases t.lookup k with
      | none =>
        by_cases hnr : A.alloc (recSize k v) = true
        · exact .inr ⟨_, rfl, by simp [hnr]; rfl⟩
        · exact .inl (by simp [hnr])
      | some old =>
        by_cases hroom : v = old.val ∨ recSize k v ≤ A.bound k old ∨ A.alloc (recSize k v) = true
        · exact .inr ⟨_, rfl, by simp [hroom]; rfl⟩
        · exact .inl (by simp [hroom])
  | incr delta expires =>
    simp only [LocalWrite.run, htAddEx, addExBody]
    split
    · exact .inl rfl
    · simp only [addRec]
      cases t.lookup k with
      | none => exact .inr ⟨_, rfl, rfl⟩
      | some r =>
        cases hn : r.number with
        | none => exact .inl (by simp [hn])
        | some n => exact .inr ⟨_, rfl, by simp [hn]; rfl⟩
  | touch expires =>
    simp only [LocalWrite.run, htTouch]
    cases t.lookup k with
    | none => exact .inl rfl
    | some r => exact .inr ⟨_, rfl, rfl⟩

/-! ### The node -/

/-- A version of a key: stamped here by a write or a delete, had by the key's record, or both. -/
structure Event where
  key : Key
  ver : Nat
  stamped : Bool
  record : Bool
  deriving DecidableEq

/-- A node's table and clocks, with the versions so far. -/
structure Clocked where
  table : Table
  clocks : Clocks
  log : List Event

/-- An atomic operation: a local write or delete of thread `tid`, a hold of the sweep, a copy
from a peer. -/
inductive ClockedAct
  | write (tid : Nat) (A : Arena) (ticks : Nat) (k : Key) (w : LocalWrite)
  | remove (tid : Nat) (k : Key)
  | sweep (now : Nat) (ks : List Key)
  | copy (A : Arena) (ticks : Nat) (k : Key) (v : List Bytes.Byte) (expires : Nat)
      (rflags : Bytes.Byte) (ver : Nat)

/-- A write that went through, in the log. -/
def noteWrite (log : List Event) (t : Table) (k : Key) : List Event :=
  match t.lookup k with
  | some r => log ++ [⟨k, r.ver, true, true⟩]
  | none => log

/-- A delete in the log: it is stamped whether or not there was a record. -/
def noteDel (log : List Event) (k : Key) (delVer : Option Nat) : List Event :=
  match delVer with
  | some v => log ++ [⟨k, v, true, false⟩]
  | none => log

def Clocked.step (ed : Edition) (n : Clocked) : ClockedAct → Option Clocked
  | .write tid A ticks k w =>
    let r := w.run A ticks (n.clocks.base ed tid) n.table k
    if r.1 then
      some ⟨r.2.1, n.clocks.ticked ed tid r.2.2, noteWrite n.log r.2.1 k⟩
    else some { n with table := r.2.1 }
  | .remove tid k =>
    let r := removeImpl (n.clocks.base ed tid) n.table k 0 false
    some ⟨r.table, (n.clocks.ticked ed tid r.clock).publish ed (r.delVer.getD 0),
      noteDel n.log k r.delVer⟩
  | .sweep now ks =>
    some { n with table := reap now n.table ks
                  clocks := n.clocks.publish ed (topVer now n.table ks) }
  | .copy A ticks k v expires rflags ver =>
    let r := htStoreVer A ticks n.clocks.shared n.table k v expires rflags ver
    some ⟨r.2.1, { n.clocks with shared := r.2.2 },
      if r.1 = .ok then n.log ++ [⟨k, ver, false, true⟩] else n.log⟩

def Clocked.start (t : Table) (c : Clocks) : Clocked :=
  ⟨t, c, t.entries.map fun e => ⟨e.1, e.2.ver, false, true⟩⟩

/-! ### What a step does to the record of a key -/

theorem verLocal_gt_clock (clock : Nat) (old : Option Rec) : clock < verLocal clock old := by
  unfold verLocal
  split
  · split <;> omega
  · omega

theorem verLocal_gt_old (clock : Nat) (r : Rec) : r.ver < verLocal clock (some r) := by
  simp only [verLocal]
  split <;> omega

variable {k : Key} {r : Rec}

theorem le_topVer {now : Nat} {t : Table} {ks : List Key} (hk : k ∈ ks) (hr : t.lookup k = some r)
    (he : r.expired now = true) : r.ver ≤ topVer now t ks := by
  refine (Greatest.le_foldl_max_iff _ _ _ _).mpr (.inr ⟨r, ?_, le_rfl⟩)
  refine mem_filterMap.mpr ⟨k, hk, ?_⟩
  rw [hr, filter_some, if_pos he]

theorem lookup_reap_cases (now : Nat) {t : Table} (ks : List Key) (hr : t.lookup k = some r) :
    (reap now t ks).lookup k = some r ∨
      k ∈ ks ∧ r.expired now = true ∧ (reap now t ks).lookup k = none := by
  rw [lookup_reap, hr]
  by_cases hk : k ∈ ks
  · cases he : r.expired now <;> simp [hk, he]
  · exact .inl (if_neg hk)

theorem filter_under_zero (o : Option Rec) : o.filter (Rec.under 0) = o := by
  cases o <;> simp [Rec.under]

theorem filter_not_under_zero (o : Option Rec) : (o.filter fun r => !r.under 0) = none := by
  cases o <;> simp [Rec.under]

theorem Clocked.step_write {ed : Edition} {n n' : Clocked} {tid : Nat} {A : Arena} {ticks : Nat}
    {w : LocalWrite} (hstep : n.step ed (.write tid A ticks k w) = some n') :
    n' = n ∨ ∃ r : Rec, r.ver = verLocal (n.clocks.base ed tid) (n.table.lookup k) ∧
      n' = ⟨n.table.insert k r, n.clocks.ticked ed tid (n.clocks.base ed tid + 1),
        n.log ++ [⟨k, r.ver, true, true⟩]⟩ := by
  rcases w.run_spec A ticks (n.clocks.base ed tid) n.table k with hno | ⟨r, hver, hyes⟩
  · simp only [Clocked.step, hno, false_eq_true, if_false, some.injEq] at hstep
    exact .inl hstep.symm
  · simp only [Clocked.step, hyes, if_true, noteWrite, lookup_insert, some.injEq] at hstep
    exact .inr ⟨r, hver, hstep.symm⟩

theorem Clocks.shared_le_base (c : Clocks) (ed : Edition) (tid : Nat) :
    c.shared ≤ c.base ed tid := by
  cases ed with
  | standalone => exact le_max_right _ _
  | clustered => exact le_rfl

theorem Clocks.shared_publish_le (c : Clocks) (ed : Edition) (v : Nat) :
    c.shared ≤ (c.publish ed v).shared := by
  cases ed with
  | standalone => exact le_max_left _ _
  | clustered => exact le_rfl

/-- The clock follows what it sees, or stays. -/
theorem lamportObserve_bounds (clock seen : Nat) :
    clock ≤ lamportObserve clock seen ∧ lamportObserve clock seen ≤ max clock seen := by
  unfold lamportObserve
  split
  · exact ⟨le_rfl, le_max_left _ _⟩
  · exact ⟨le_max_left _ _, le_rfl⟩

/-- **A copy that is stored is newer than the record it replaces**; one that is not leaves the
table. -/
theorem htStoreVer_spec (A : Arena) (ticks clock : Nat) (t : Table) (k : Key)
    (v : List Bytes.Byte) (expires : Nat) (rflags : Bytes.Byte) (ver : Nat) :
    let r := htStoreVer A ticks clock t k v expires rflags ver
    (clock ≤ r.2.2 ∧ r.2.2 ≤ max clock ver) ∧ (r.1 ≠ .ok ∧ r.2.1 = t ∨
      r.1 = .ok ∧ (∀ old ∈ t.lookup k, old.ver < ver) ∧
        ∃ x, x.ver = ver ∧ r.2.1 = t.insert k x) := by
  simp only [htStoreVer, storeBody, map_some, getD_some, any_some, isSome_some, if_true]
  split
  · exact ⟨⟨le_rfl, le_max_left _ _⟩, .inl ⟨by simp, rfl⟩⟩
  · have hclock := lamportObserve_bounds clock ver
    cases t.lookup k with
    | none =>
      by_cases hnr : A.alloc (recSize k v) = true
      · simp only [hnr, if_true]
        exact ⟨hclock, .inr ⟨trivial, fun r hr => by simp at hr, _, rfl, rfl⟩⟩
      · exact ⟨by simpa [hnr] using hclock, .inl (by simp [hnr])⟩
    | some old =>
      by_cases hold : ver ≤ old.ver
      · exact ⟨by simpa [hold] using hclock, .inl (by simp [hold])⟩
      · by_cases hroom : v = old.val ∨ recSize k v ≤ A.bound k old ∨ A.alloc (recSize k v) = true
        · simp only [hold, hroom, decide_false, false_eq_true, if_true, if_false]
          refine ⟨hclock, .inr ⟨trivial, fun r hr => ?_, _, rfl, rfl⟩⟩
          obtain rfl := mem_some_iff.mp hr
          exact Nat.lt_of_not_le hold
        · exact ⟨by simpa [hold, hroom] using hclock, .inl (by simp [hold, hroom])⟩

/-! ### The log -/

/-- A log in which, of one key, a later version with `q` is above every earlier one with `p`; and
the versions with `p` are at or below what `mark` gives for their key. -/
structure Logged (p q : Event → Prop) (mark : Key → Nat) (log : List Event) : Prop where
  rises : log.Pairwise fun a b => a.key = b.key → p a → q b → a.ver < b.ver
  bounded : ∀ e ∈ log, p e → e.ver ≤ mark e.key

section Logged

variable {p q : Event → Prop} {mark mark' : Key → Nat} {log : List Event}

theorem Logged.mono (h : Logged p q mark log) (hle : ∀ k, mark k ≤ mark' k) :
    Logged p q mark' log :=
  ⟨h.rises, fun e he hp => le_trans (h.bounded e he hp) (hle e.key)⟩

theorem Logged.append (h : Logged p q mark log) {e : Event} (hnew : q e → mark e.key < e.ver)
    (hbound : p e → e.ver ≤ mark' e.key) (hle : ∀ k, mark k ≤ mark' k) :
    Logged p q mark' (log ++ [e]) := by
  constructor
  · refine pairwise_append.mpr ⟨h.rises, pairwise_singleton _ _, ?_⟩
    intro a ha b hb hkey hp hq
    obtain rfl := mem_singleton.mp hb
    exact lt_of_le_of_lt (hkey ▸ h.bounded a ha hp) (hnew hq)
  · intro e' he' hp
    rcases mem_append.mp he' with he' | he'
    · exact (h.mono hle).bounded e' he' hp
    · obtain rfl := mem_singleton.mp he'
      exact hbound hp

open Clocked

/-- The records a node starts with are of different keys. -/
theorem logged_start (t : Table) (c : Clocks)
    (hmark : ∀ k r, t.lookup k = some r → r.ver ≤ mark k) :
    Logged p q mark (start t c).log := by
  constructor
  · refine pairwise_map.mpr ?_
    refine Pairwise.imp ?_ (nodupKeys_iff_pairwise.mp t.nodupKeys)
    intro a b hne heq
    exact absurd heq hne
  · intro e he _
    obtain ⟨⟨k, r⟩, hmem, rfl⟩ := mem_map.mp he
    exact hmark k r (AList.mem_lookup_iff.mpr hmem)

end Logged

/-! ### Standalone -/

/-- What bounds a key's versions on a standalone node: its record, or the shared clock where the
record has gone. -/
def Clocked.mark (n : Clocked) (k : Key) : Nat :=
  ((n.table.lookup k).map Rec.ver).getD n.clocks.shared

/-- Not a copy of a peer's. -/
def ClockedAct.isLocal : ClockedAct → Prop
  | .copy .. => False
  | _ => True

variable {n n' : Clocked}

/-- Where neither the record nor the shared clock goes down, nor does the mark. -/
theorem Clocked.mark_le (hlook : n'.table.lookup k = n.table.lookup k)
    (hshared : n.clocks.shared ≤ n'.clocks.shared) : n.mark k ≤ n'.mark k := by
  rw [mark, mark, hlook]
  cases n.table.lookup k with
  | none => exact hshared
  | some r => exact le_rfl

theorem Clocked.mark_lt_verLocal (n : Clocked) (ed : Edition) (tid : Nat) (k : Key) :
    n.mark k < verLocal (n.clocks.base ed tid) (n.table.lookup k) := by
  rw [mark]
  cases n.table.lookup k with
  | none =>
    exact lt_of_le_of_lt (n.clocks.shared_le_base ed tid) (verLocal_gt_clock _ _)
  | some r => exact verLocal_gt_old _ r

/-- Every version rises, and none is above its key's mark. -/
def Clocked.Rising (n : Clocked) : Prop :=
  Logged (fun _ => True) (fun _ => True) n.mark n.log

theorem Clocked.rising_start (t : Table) (c : Clocks) : (start t c).Rising := by
  refine logged_start t c fun k r hr => ?_
  have htable : (start t c).table = t := rfl
  simp [mark, htable, hr]

/-- A stamped version is above the mark and becomes, or bounds, the new one. -/
theorem Clocked.Rising.append (h : n.Rising) {e : Event} (hlog : n'.log = n.log ++ [e])
    (hnew : n.mark e.key < e.ver) (hmark : e.ver ≤ n'.mark e.key)
    (hother : ∀ k, k ≠ e.key → n.mark k ≤ n'.mark k) : n'.Rising := by
  rw [Rising, hlog]
  refine Logged.append h (fun _ => hnew) (fun _ => hmark) fun k => ?_
  by_cases hk : k = e.key
  · subst hk
    exact le_trans (le_of_lt hnew) hmark
  · exact hother k hk

theorem Clocked.Rising.step {a : ClockedAct} (h : n.Rising) (hlocal : a.isLocal)
    (hstep : n.step .standalone a = some n') : n'.Rising := by
  cases a with
  | write tid A ticks k w =>
    rcases Clocked.step_write hstep with rfl | ⟨r, hver, rfl⟩
    · exact h
    · refine h.append rfl ?_ ?_ fun k' hk' => ?_
      · simp only [hver]
        exact n.mark_lt_verLocal _ tid k
      · simp [Clocked.mark]
      · exact Clocked.mark_le (by simp [hk']) le_rfl
  | remove tid k =>
    simp only [Clocked.step, some.injEq] at hstep
    subst hstep
    refine h.append rfl ?_ ?_ fun k' hk' => ?_
    · simp only [filter_under_zero]
      exact n.mark_lt_verLocal _ tid k
    · -- no record is left: the delete's version is what it published
      simp only [Clocked.mark, lookup_removeImpl, if_true, filter_not_under_zero,
        map_none, getD_none]
      exact le_max_right _ _
    · refine Clocked.mark_le ?_ (Clocks.shared_publish_le _ .standalone _)
      rw [lookup_removeImpl, if_neg hk']
  | sweep now ks =>
    simp only [Clocked.step, some.injEq] at hstep
    subst hstep
    refine Logged.mono h fun k => ?_
    cases hl : n.table.lookup k with
    | none => exact Clocked.mark_le (by simp [lookup_reap, hl]) (Clocks.shared_publish_le _ _ _)
    | some r =>
      rcases lookup_reap_cases now ks hl with hkept | ⟨hk, hexp, hgone⟩
      · exact Clocked.mark_le (hkept.trans hl.symm) (Clocks.shared_publish_le _ _ _)
      · -- reaped: the shared clock is raised to the version that goes
        simp only [Clocked.mark, hl, hgone, map_some, map_none, getD_some, getD_none]
        exact le_trans (le_topVer hk hl hexp) (le_max_right _ _)
  | copy => exact hlocal.elim

/-- **On a standalone node the versions of a key rise**: whatever the threads, and whatever the
interleaving of their operations, a version stamped for a key is above every earlier one of that
key, a removed or reaped record's included. -/
theorem standalone_versions_rise (t : Table) (c : Clocks) (as : List ClockedAct) (n : Clocked)
    (hlocal : Along (Clocked.step .standalone) (fun _ a => a.isLocal) (Clocked.start t c) as)
    (hrun : run (Clocked.step .standalone) (Clocked.start t c) as = some n) :
    n.log.Pairwise fun a b => a.key = b.key → a.ver < b.ver := by
  have h : n.Rising :=
    run_invariant (fun _ _ _ hI hok hs => hI.step hok hs) (Clocked.rising_start t c) hlocal hrun
  exact h.rises.imp fun hlt hkey => hlt hkey trivial trivial

/-- A key stored and re-armed by a thread, reaped, and counted and deleted by another thread
whose clock is still at 0. -/
def reapedBetween : List ClockedAct :=
  [.write 0 vastArena 0 [] (.store [] 5 0#8), .write 0 vastArena 0 [] (.touch 6), .sweep 9 [[]],
    .write 1 vastArena 9 [] (.incr 1 0), .remove 1 []]

theorem standalone_versions_rise_reaped :
    ∃ n, run (Clocked.step .standalone) (Clocked.start ∅ ⟨0, fun _ => 0⟩) reapedBetween = some n ∧
      n.log.map Event.ver = [1, 2, 3, 4] ∧
      n.log.Pairwise fun a b => a.key = b.key → a.ver < b.ver := by
  refine ⟨_, rfl, by decide, standalone_versions_rise ∅ _ reapedBetween _ ?_ rfl⟩
  exact ⟨trivial, trivial, trivial, trivial, trivial, trivial⟩

/-! ### Clustered -/

/-- What bounds the versions a key's record has had on a clustered node: the clock or its
record. -/
def Clocked.height (n : Clocked) (k : Key) : Nat :=
  max n.clocks.shared (((n.table.lookup k).map Rec.ver).getD 0)

/-- The records that a delete or a reap takes away are not above the clock: a copy that the clock
did not follow is not among them. A delete itself ticks the clock once. -/
def Clocked.Settled (n : Clocked) : ClockedAct → Prop
  | .remove _ k => ∀ r ∈ n.table.lookup k, r.ver ≤ n.clocks.shared + 1
  | .sweep now ks => ∀ k ∈ ks, ∀ r ∈ n.table.lookup k, r.expired now = true →
      r.ver ≤ n.clocks.shared
  | _ => True

instance (n : Clocked) : DecidablePred n.Settled := fun a => by
  unfold Clocked.Settled
  split <;> infer_instance

/-- What a write or delete is stamped with is above every version the key's record has had. -/
def Clocked.Over (n : Clocked) : Prop :=
  Logged (fun e => e.record = true) (fun e => e.stamped = true) n.height n.log

/-- Where neither the record nor the clock goes down, nor does the height. -/
theorem Clocked.height_le (hlook : ∀ r ∈ n.table.lookup k, r.ver ≤ n'.height k)
    (hshared : n.clocks.shared ≤ n'.clocks.shared) : n.height k ≤ n'.height k := by
  refine Nat.max_le.mpr ⟨le_trans hshared (le_max_left _ _), ?_⟩
  cases hl : n.table.lookup k with
  | none => exact zero_le _
  | some r => exact hlook r hl

theorem Clocked.ver_le_height (hr : n.table.lookup k = some r) : r.ver ≤ n.height k := by
  simp [height, hr]

theorem Clocked.height_lt_verLocal (n : Clocked) (k : Key) :
    n.height k < verLocal n.clocks.shared (n.table.lookup k) := by
  refine Nat.max_lt.mpr ⟨verLocal_gt_clock _ _, ?_⟩
  cases n.table.lookup k with
  | none => exact lt_of_le_of_lt (zero_le _) (verLocal_gt_clock n.clocks.shared none)
  | some r => exact verLocal_gt_old _ r

/-- A record replaced by a newer one, stamped here or not. -/
theorem Clocked.Over.insert (h : n.Over) {x : Rec} {c : Clocks} (stamped : Bool)
    (hnew : stamped = true → n.height k < x.ver) (hold : ∀ r ∈ n.table.lookup k, r.ver ≤ x.ver)
    (hshared : n.clocks.shared ≤ c.shared) :
    Over ⟨n.table.insert k x, c, n.log ++ [⟨k, x.ver, stamped, true⟩]⟩ := by
  refine Logged.append h hnew (fun _ => ver_le_height (by simp)) fun k' =>
    height_le (fun r hr => ?_) hshared
  by_cases hk : k' = k
  · subst hk
    exact le_trans (hold r hr) (ver_le_height (by simp))
  · exact ver_le_height (by simpa [hk] using hr)

theorem Clocked.Over.step {a : ClockedAct} (h : n.Over) (hset : n.Settled a)
    (hstep : n.step .clustered a = some n') : n'.Over := by
  cases a with
  | write tid A ticks k w =>
    rcases Clocked.step_write hstep with rfl | ⟨r, hver, rfl⟩
    · exact h
    -- a stamp is above the clock and the record
    · have hnew : n.height k < r.ver := hver ▸ n.height_lt_verLocal k
      refine h.insert true (fun _ => hnew) (fun old hl => ?_) (le_succ _)
      exact le_of_lt (lt_of_le_of_lt (Clocked.ver_le_height hl) hnew)
  | remove tid k =>
    simp only [Clocked.step, some.injEq] at hstep
    subst hstep
    refine Logged.append h (fun _ => ?_) nofun fun k' =>
      Clocked.height_le (fun r' hr' => ?_) (le_succ _)
    · simp only [filter_under_zero]
      exact n.height_lt_verLocal k
    · by_cases hk : k' = k
      · subst hk
        exact le_trans (hset r' hr') (le_max_left _ _)
      · refine Clocked.ver_le_height ?_
        rw [lookup_removeImpl, if_neg hk]
        exact hr'
  | sweep now ks =>
    simp only [Clocked.step, some.injEq] at hstep
    subst hstep
    refine Logged.mono h fun k => Clocked.height_le (fun r hr => ?_) le_rfl
    rcases lookup_reap_cases now ks hr with hkept | ⟨hk, hexp, _⟩
    · exact Clocked.ver_le_height hkept
    · exact le_trans (hset k hk r hr hexp) (le_max_left _ _)
  | copy A ticks k v expires rflags ver =>
    have hspec := htStoreVer_spec A ticks n.clocks.shared n.table k v expires rflags ver
    simp only [Clocked.step, some.injEq] at hstep
    subst hstep
    obtain ⟨⟨hclock, -⟩, ⟨hrc, htable⟩ | ⟨hrc, hold, x, hx, htable⟩⟩ := hspec
    · rw [if_neg hrc, htable]
      exact Logged.mono h fun k' => Clocked.height_le (fun r hr => Clocked.ver_le_height hr) hclock
    · rw [if_pos hrc, htable]
      subst hx
      exact h.insert false nofun (fun old hl => le_of_lt (hold old hl)) hclock

/-- The versions are below `b`. -/
structure Clocked.Below (b : Nat) (n : Clocked) : Prop where
  clock : n.clocks.shared < b
  records : ∀ k r, n.table.lookup k = some r → r.ver < b
  log : ∀ e ∈ n.log, e.ver < b

/-- A copy of a peer's is below `b`. -/
def ClockedAct.Below (b : Nat) : ClockedAct → Prop
  | .copy _ _ _ _ _ _ ver => ver < b
  | _ => True

section Below

variable {b b' : Nat}

theorem Clocked.Below.mono (h : n.Below b) (hle : b ≤ b') : n.Below b' :=
  ⟨lt_of_lt_of_le h.clock hle, fun k r hr => lt_of_lt_of_le (h.records k r hr) hle,
    fun e he => lt_of_lt_of_le (h.log e he) hle⟩

theorem Clocked.Below.verLocal_lt (h : n.Below b) (k : Key) :
    verLocal n.clocks.shared (n.table.lookup k) < b + 1 := by
  have hclock := h.clock
  cases hl : n.table.lookup k with
  | none => exact succ_lt_succ hclock
  | some r =>
    have hr := h.records k r hl
    simp only [verLocal]
    split <;> omega

/-- The clock moves up, a record comes or goes, and its version is logged. -/
theorem Clocked.Below.next (h : n.Below b) {t : Table} {c : Clocks} {e : Event}
    (hclock : c.shared < b + 1) (he : e.ver < b + 1)
    (ht : ∀ k r, t.lookup k = some r → n.table.lookup k = some r ∨ r.ver = e.ver) :
    Below (b + 1) ⟨t, c, n.log ++ [e]⟩ := by
  refine ⟨hclock, fun k r hr => ?_, fun e' he' => ?_⟩
  · rcases ht k r hr with hr | hr
    · exact lt_succ_of_lt (h.records k r hr)
    · exact hr ▸ he
  · rcases mem_append.mp he' with he' | he'
    · exact lt_succ_of_lt (h.log e' he')
    · exact mem_singleton.mp he' ▸ he

theorem lookup_insert_cases {t : Table} {k' : Key} {x : Rec}
    (hr : (t.insert k x).lookup k' = some r) : t.lookup k' = some r ∨ r.ver = x.ver := by
  rw [lookup_insert] at hr
  split at hr
  · exact .inr (congrArg Rec.ver (some.inj hr).symm)
  · exact .inl hr

theorem Clocked.Below.step {a : ClockedAct} (h : n.Below b) (ha : a.Below b)
    (hstep : n.step .clustered a = some n') : n'.Below (b + 1) := by
  have hmono := h.mono (le_succ b)
  cases a with
  | write tid A ticks k w =>
    rcases Clocked.step_write hstep with rfl | ⟨r, hver, rfl⟩
    · exact hmono
    · exact h.next (succ_lt_succ h.clock) (hver ▸ h.verLocal_lt k) fun _ _ => lookup_insert_cases
  | remove tid k =>
    simp only [Clocked.step, some.injEq] at hstep
    subst hstep
    refine h.next (succ_lt_succ h.clock) ?_ fun k' r hr => .inl ?_
    · simp only [filter_under_zero]
      exact h.verLocal_lt k
    · rw [lookup_removeImpl, filter_not_under_zero, ite_none_left_eq_some] at hr
      exact hr.2
  | sweep now ks =>
    simp only [Clocked.step, some.injEq] at hstep
    subst hstep
    refine ⟨hmono.clock, fun k r hr => ?_, hmono.log⟩
    cases hl : n.table.lookup k with
    | none => simp [lookup_reap, hl] at hr
    | some r' =>
      rcases lookup_reap_cases now ks hl with hkept | ⟨-, -, hgone⟩
      · exact hmono.records k r (hl.trans (hkept.symm.trans hr))
      · cases hgone.symm.trans hr
  | copy A ticks k v expires rflags ver =>
    have hspec := htStoreVer_spec A ticks n.clocks.shared n.table k v expires rflags ver
    simp only [Clocked.step, some.injEq] at hstep
    subst hstep
    obtain ⟨⟨-, hclock⟩, hcase⟩ := hspec
    have hb := lt_succ_of_lt (lt_of_le_of_lt hclock (Nat.max_lt.mpr ⟨h.clock, ha⟩))
    rcases hcase with ⟨hrc, htable⟩ | ⟨hrc, -, x, hx, htable⟩
    · rw [if_neg hrc, htable]
      exact ⟨hb, hmono.records, hmono.log⟩
    · rw [if_pos hrc, htable]
      subst hx
      exact h.next hb (lt_succ_of_lt ha) fun _ _ => lookup_insert_cases

/-- **A version moves up by one with each operation at most.** -/
theorem Clocked.Below.run {as : List ClockedAct} (h : n.Below b) (has : ∀ a ∈ as, a.Below b)
    (hrun : Machine.run (Clocked.step .clustered) n as = some n') : n'.Below (b + as.length) := by
  induction as generalizing n b with
  | nil =>
    cases hrun
    exact h
  | cons a as ih =>
    obtain ⟨n₁, hstep, hrest⟩ := bind_eq_some_iff.mp hrun
    rw [length_cons, add_comm as.length, ← add_assoc]
    refine ih (h.step (has a mem_cons_self) hstep) (fun a' ha' => ?_) hrest
    cases a' with
    | copy => exact lt_succ_of_lt (has _ (mem_cons_of_mem a ha'))
    | _ => trivial

theorem Clocked.below_start {t : Table} {c : Clocks} (hclock : c.shared < b)
    (ht : ∀ k r, t.lookup k = some r → r.ver < b) : (start t c).Below b := by
  refine ⟨hclock, ht, fun e he => ?_⟩
  obtain ⟨⟨k, r⟩, hmem, rfl⟩ := mem_map.mp he
  exact ht k r (AList.mem_lookup_iff.mpr hmem)

end Below

/-- **On a clustered node a write or delete of a key is stamped above every version the key's
record has had**, in every run in which no delete or reap takes a record that sits above the
clock. Where what there is at the start and what the peers send is below 2^64 - 2^32, no version
reaches 2^64 in the first 2^32 operations. -/
theorem clustered_stamps_over_records (t : Table) (c : Clocks) (as : List ClockedAct)
    (hset : Along (Clocked.step .clustered) Clocked.Settled (Clocked.start t c) as) (n : Clocked)
    (hrun : run (Clocked.step .clustered) (Clocked.start t c) as = some n) :
    (n.log.Pairwise fun a b =>
      a.key = b.key → a.record = true → b.stamped = true → a.ver < b.ver) ∧
    (c.shared < 2 ^ 64 - 2 ^ 32 → (∀ k r, t.lookup k = some r → r.ver < 2 ^ 64 - 2 ^ 32) →
      (∀ a ∈ as, a.Below (2 ^ 64 - 2 ^ 32)) → as.length ≤ 2 ^ 32 →
        ∀ e ∈ n.log, e.ver < 2 ^ 64) := by
  have h : n.Over :=
    run_invariant (fun _ _ _ hI hok hs => hI.step hok hs)
      (logged_start t c fun _ _ hr => Clocked.ver_le_height hr) hset hrun
  refine ⟨h.rises, fun hclock ht has hlen e he => ?_⟩
  have hbelow := ((Clocked.below_start hclock ht).run has hrun).log e he
  omega

/-- A copy of an empty key at version `ver`, then a delete and a write of the key here. -/
def copyDeleteWrite (ver : Nat) : List ClockedAct :=
  [.copy vastArena 0 [] [] 0 0#8 ver, .remove 0 [], .write 0 vastArena 0 [] (.store [] 0 0#8)]

theorem clustered_stamps_over_records_followed :
    ∃ n, run (Clocked.step .clustered) (Clocked.start ∅ ⟨0, fun _ => 0⟩)
        (copyDeleteWrite 1000000000) = some n ∧
      n.log.map Event.ver = [1000000000, 1000000001, 1000000002] ∧
      n.log.Pairwise fun a b =>
        a.key = b.key → a.record = true → b.stamped = true → a.ver < b.ver := by
  refine ⟨_, rfl, by decide,
    (clustered_stamps_over_records ∅ _ (copyDeleteWrite 1000000000) ?_ _ rfl).1⟩
  decide

/-- A copy further ahead than `PC_LAMPORT_MAX_JUMP` is stored, but the clock does not follow it.
Deleted, it leaves nothing to stamp above: the next write of the key is below the record the key
had, and below its delete. -/
theorem write_below_deleted_copy :
    ∃ n, run (Clocked.step .clustered) (Clocked.start ∅ ⟨0, fun _ => 0⟩)
        (copyDeleteWrite 2000000000) = some n ∧
      n.log.map Event.ver = [2000000000, 2000000001, 2] ∧
      ¬ n.log.Pairwise fun a b =>
        a.key = b.key → a.record = true → b.stamped = true → a.ver < b.ver :=
  ⟨_, rfl, by decide, by decide⟩

end Perfcached
