import Perfcached.Recover.Order
import Perfcached.Recover.Reload

/-!
# Perfcached.Recover.History

What recovery makes of a key's history.

`memory` is what a history of SETs, touches and DELETEs, in rising version order,
leaves in the running store; recovery has a snapshot's copy of some prefix of it and
the rest in the log. `history_restored_iff` says for exactly which histories a restart
at wall time `T` gives the key back with the value the history left, if that has not
expired, and not at all otherwise.

The replay skips a SET whose deadline has passed as "born dead", and leaves what the
key held before it. `Exposes` is that older copy: a SET that was kept, with nothing
between it and the skipped one that would have taken it away.
-/

namespace Perfcached.Recover

open Bytes Rdb Wal List Option Nat

/-- A key in the running store: its value and the wall-clock second it expires at. -/
structure Held where
  ver : Nat
  val : List Byte
  wall : Nat

/-- What an operation does to the key in the running store. -/
def memStep (m : Option Held) : KeyOp → Option Held
  | .set ver val wall _ => some ⟨ver, val, wall⟩
  | .touch ver wall => m.map fun h => { h with ver, wall }
  | .del _ => none

/-- What a history leaves in the running store. -/
def memory (ops : List KeyOp) : Option Held := ops.foldl memStep none

/-- The expiry is later than the restart. -/
def Later (nowWall wall : Nat) : Prop := wall = 0 ∨ nowWall < wall
  deriving Decidable

/-- The replay keeps a record with this expiry: `wall_to_ticks` does not call it
expired. -/
def Kept (env : ReplayEnv) (wall : Nat) : Prop := wallToTicks env.ticks env.nowWall wall ≠ 1
  deriving Decidable

/-- A reader sees a record with this expiry. -/
def Shown (env : ReplayEnv) (wall : Nat) : Prop :=
  wallToTicks env.ticks env.nowWall wall = 0 ∨ env.ticks < wallToTicks env.ticks env.nowWall wall
  deriving Decidable

variable {env : ReplayEnv}

theorem later_of_kept {wall : Nat} (h : Kept env wall) : Later env.nowWall wall := by
  unfold Kept wallToTicks at h
  unfold Later
  by_contra hl
  rw [if_neg (by omega), if_pos (by omega)] at h
  exact h rfl

def KeyOp.IsTouch : KeyOp → Prop
  | touch _ _ => True
  | _ => False

/-- The expiry after the touches among `ops`. -/
def lastWall (wall : Nat) (ops : List KeyOp) : Nat :=
  ops.foldl (fun w op => match op with | .touch _ w' => w' | _ => w) wall

/-- The replay passes the operation by, or it re-arms: a SET that is skipped, or a touch
that is kept. -/
def LeavesCopy (env : ReplayEnv) : KeyOp → Prop
  | .set _ _ wall _ => ¬ Kept env wall
  | .touch _ wall => Kept env wall
  | .del _ => False

/-- The copy of the key that the operations `q` leave standing: a SET that was kept,
its value, and the expiry later touches gave it. -/
def Exposes (env : ReplayEnv) (q : List KeyOp) (val : List Byte) (wall : Nat) : Prop :=
  ∃ a ver w flags b, q = a ++ KeyOp.set ver val w flags :: b ∧ Kept env w ∧
    (∀ op ∈ b, LeavesCopy env op) ∧ wall = lastWall w b

/-- The histories recovery gives back rightly. Where the last write is a SET that should
be there, it and its touches must all be kept and its deadline one a reader sees (or a
copy of the same value stands in for it). Where it should not be there, it must have
been touched, or have no older copy behind it. -/
def Recoverable (env : ReplayEnv) (ops : List KeyOp) : Prop :=
  ∀ q ver val w flags ts, ops = q ++ KeyOp.set ver val w flags :: ts → (∀ op ∈ ts, op.IsTouch) →
    if Later env.nowWall (lastWall w ts) then
      (∀ op ∈ ts, LeavesCopy env op) ∧ (Kept env w ∧ Shown env (lastWall w ts) ∨
          ¬ Kept env w ∧ ∃ w', Exposes env q val w' ∧ Shown env (lastWall w' ts))
    else ts ≠ [] ∨ ∀ val' w', Exposes env q val' w' → ¬ Shown env w'

/-! ### The replay of a history -/

/-- A key as a replay in version order keeps it: value and expiry. -/
def keepStep (env : ReplayEnv) (c : Option (List Byte × Nat)) : KeyOp → Option (List Byte × Nat)
  | .set _ val wall _ => if Kept env wall then some (val, wall) else c
  | .touch _ wall => if Kept env wall then c.map fun p => (p.1, wall) else none
  | .del _ => none

/-- The replay of a history in version order. -/
def keep (env : ReplayEnv) (ops : List KeyOp) : Option (List Byte × Nat) :=
  ops.foldl (keepStep env) none

/-- A cell whose record and tombstone are older than `v`. -/
structure Cell.Below (s : Cell) (v : Nat) : Prop where
  held : ∀ r, s.held = some r → r.ver < v
  tomb : s.tomb < v

/-- What a cell holds, as `keep` states it. -/
def Cell.Holds (env : ReplayEnv) (s : Cell) (c : Option (List Byte × Nat)) : Prop :=
  s.held.map (fun r => (r.val, r.expires)) =
    c.map fun p => (p.1, wallToTicks env.ticks env.nowWall p.2)

variable {s : Cell} {ver v : Nat}

theorem kill_holds (hb : s.Below ver) (hv : ver < v) :
    (s.kill env.ticks ver).Holds env none ∧ (s.kill env.ticks ver).Below v := by
  have hany : s.held.any (fun r => !r.expired env.ticks && decide (ver ≤ r.ver)) = false := by
    cases hh : s.held with
    | none => rfl
    | some r =>
      have := hb.held r hh
      simp [not_le.mpr this]
  have htomb := hb.tomb
  refine ⟨by simp [Cell.Holds, Cell.kill, hany], ⟨by simp [Cell.kill, hany], ?_⟩⟩
  simp only [Cell.kill]
  omega

variable {c : Option (List Byte × Nat)}

/-- A newer operation takes effect, as `keepStep` says. -/
theorem cellStep_holds {op : KeyOp} (h : s.Holds env c) (hb : s.Below op.ver) (hv : op.ver < v) :
    (cellStep env.ticks env.nowWall s op).Holds env (keepStep env c op) ∧
      (cellStep env.ticks env.nowWall s op).Below v := by
  have htomb := hb.tomb
  have hbv : s.Below v := ⟨fun r hr => lt_trans (hb.held r hr) hv, lt_trans htomb hv⟩
  cases op with
  | del ver => exact kill_holds hb hv
  | set ver val wall flags =>
    simp only [KeyOp.ver] at hv htomb
    simp only [cellStep, keepStep, Kept]
    by_cases he : wallToTicks env.ticks env.nowWall wall = 1
    · simp only [he, if_true, ne_eq, not_true_eq_false, if_false]
      exact ⟨h, hbv⟩
    · simp only [he, if_false, ne_eq, not_false_eq_true, if_true, not_le.mpr htomb]
      cases hh : s.held with
      | none =>
        refine ⟨rfl, ⟨?_, hbv.tomb⟩⟩
        rintro r ⟨⟩
        exact hv
      | some old =>
        have hold : ¬ ver ≤ old.ver := not_le.mpr (hb.held old hh)
        simp only [hold, if_false]
        refine ⟨rfl, ⟨?_, hbv.tomb⟩⟩
        rintro r ⟨⟩
        exact hv
  | touch ver wall =>
    simp only [cellStep, keepStep, Kept]
    by_cases he : wallToTicks env.ticks env.nowWall wall = 1
    · simp only [he, if_true, ne_eq, not_true_eq_false, if_false]
      exact kill_holds hb hv
    · simp only [he, if_false, ne_eq, not_false_eq_true, if_true]
      unfold Cell.Holds at h ⊢
      cases hh : s.held with
      | none =>
        rw [hh] at h
        obtain rfl : c = none := by
          cases c with
          | none => rfl
          | some p => cases h
        exact ⟨by simp [hh], hbv⟩
      | some r =>
        rw [hh] at h
        obtain ⟨p, rfl⟩ : ∃ p, c = some p := by
          cases c with
          | none => cases h
          | some p => exact ⟨p, rfl⟩
        simp only [map_some, some.injEq, Prod.mk.injEq] at h
        have hold : ¬ ver ≤ r.ver := not_le.mpr (hb.held r hh)
        simp only [hold, decide_false, Bool.and_false, Bool.false_eq_true, if_false, map_some, h.1]
        refine ⟨trivial, ⟨?_, hbv.tomb⟩⟩
        rintro r' ⟨⟩
        exact hv

/-- The replay of a whole history in version order. -/
theorem foldl_cellStep_holds {ops : List KeyOp} (h : s.Holds env c)
    (hb : ∀ op ∈ ops, s.Below op.ver) (hrise : ops.Pairwise fun o o' => o.ver < o'.ver) :
    (ops.foldl (cellStep env.ticks env.nowWall) s).Holds env (ops.foldl (keepStep env) c) := by
  induction ops generalizing s c with
  | nil => exact h
  | cons op ops ih =>
    rw [pairwise_cons] at hrise
    have hop := hb op mem_cons_self
    refine ih (cellStep_holds h hop (lt_succ_self _)).1 (fun op' h' => ?_) hrise.2
    exact (cellStep_holds h hop (hrise.1 op' h')).2

/-! ### Which histories come back -/

/-- The value a reader sees after the replay. -/
def shownVal (env : ReplayEnv) (c : Option (List Byte × Nat)) : Option (List Byte) :=
  (c.filter fun p => decide (Shown env p.2)).map Prod.fst

/-- The value the history leaves, if it expires later than the restart. -/
def wantedVal (nowWall : Nat) (m : Option Held) : Option (List Byte) :=
  (m.filter fun h => decide (Later nowWall h.wall)).map Held.val

theorem lastWall_append (w : Nat) (ops ops' : List KeyOp) :
    lastWall w (ops ++ ops') = lastWall (lastWall w ops) ops' := foldl_append

theorem keep_append (env : ReplayEnv) (ops ops' : List KeyOp) :
    keep env (ops ++ ops') = ops'.foldl (keepStep env) (keep env ops) := foldl_append

/-- Operations that leave the copy only re-arm it. -/
theorem foldl_keepStep_leaves {b : List KeyOp} (h : ∀ op ∈ b, LeavesCopy env op)
    (c : Option (List Byte × Nat)) :
    b.foldl (keepStep env) c = c.map fun p => (p.1, lastWall p.2 b) := by
  induction b generalizing c with
  | nil => cases c <;> rfl
  | cons op b ih =>
    have hop := h op mem_cons_self
    rw [foldl_cons, ih (fun o ho => h o (mem_cons_of_mem _ ho))]
    cases op with
    | set ver val wall flags =>
      rw [keepStep, if_neg hop]
      rfl
    | touch ver wall =>
      have hk : Kept env wall := hop
      rw [keepStep, if_pos hk]
      cases c <;> rfl
    | del ver => exact absurd hop id

variable {ts : List KeyOp}

/-- A touch into the past among the touches takes the copy away. -/
theorem foldl_keepStep_touches (h : ∀ op ∈ ts, op.IsTouch) (hdead : ¬ ∀ op ∈ ts, LeavesCopy env op)
    (c : Option (List Byte × Nat)) : ts.foldl (keepStep env) c = none := by
  have hnone : ∀ ts : List KeyOp, (∀ op ∈ ts, op.IsTouch) →
      ts.foldl (keepStep env) none = none := by
    intro ts hts
    induction ts with
    | nil => rfl
    | cons op ts ih =>
      have hop := hts op mem_cons_self
      cases op with
      | touch ver wall =>
        rw [foldl_cons, keepStep, map_none, ite_self]
        exact ih fun o ho => hts o (mem_cons_of_mem _ ho)
      | set | del => exact absurd hop id
  induction ts generalizing c with
  | nil => exact absurd (fun op hop => absurd hop not_mem_nil) hdead
  | cons op ts ih =>
    have hop := h op mem_cons_self
    have hts := fun o (ho : o ∈ ts) => h o (mem_cons_of_mem _ ho)
    cases op with
    | touch ver wall =>
      rw [foldl_cons, keepStep]
      by_cases hk : Kept env wall
      · refine ih hts (fun hall => hdead ?_) _
        rw [forall_mem_cons]
        exact ⟨hk, hall⟩
      · rw [if_neg hk]
        exact hnone ts hts
    | set | del => exact absurd hop id

variable {q : List KeyOp} {val : List Byte}

/-- What the replay keeps of a history is the copy it exposes. -/
theorem keep_eq_some_iff {wall : Nat} : keep env q = some (val, wall) ↔ Exposes env q val wall := by
  constructor
  · induction q using reverseRecOn generalizing wall with
    | nil => intro h; cases h
    | append_singleton q op ih =>
      intro h
      rw [keep_append, foldl_cons, foldl_nil] at h
      cases op with
      | set ver val' w flags =>
        rw [keepStep] at h
        by_cases hk : Kept env w
        · rw [if_pos hk] at h
          cases h
          exact ⟨q, ver, wall, flags, [], rfl, hk, by simp, rfl⟩
        · rw [if_neg hk] at h
          obtain ⟨a, ver', w', flags', b, rfl, hw', hb, rfl⟩ := ih h
          refine ⟨a, ver', w', flags', b ++ [.set ver val' w flags], by simp, hw', ?_, ?_⟩
          · rw [forall_mem_append]
            exact ⟨hb, by simpa [LeavesCopy] using hk⟩
          · rw [lastWall_append]
            rfl
      | touch ver w =>
        rw [keepStep] at h
        by_cases hk : Kept env w
        · rw [if_pos hk] at h
          obtain ⟨⟨v, w'⟩, hq, he⟩ := map_eq_some_iff.mp h
          cases he
          obtain ⟨a, ver', w₀, flags', b, rfl, hw₀, hb, -⟩ := ih hq
          refine ⟨a, ver', w₀, flags', b ++ [.touch ver wall], by simp, hw₀, ?_, ?_⟩
          · rw [forall_mem_append]
            exact ⟨hb, by simpa [LeavesCopy] using hk⟩
          · rw [lastWall_append]
            rfl
        · rw [if_neg hk] at h
          cases h
      | del ver => cases h
  · rintro ⟨a, ver, w, flags, b, rfl, hw, hb, rfl⟩
    rw [keep_append, foldl_cons, keepStep, if_pos hw, foldl_keepStep_leaves hb]
    rfl

theorem foldl_memStep_touches (h : ∀ op ∈ ts, op.IsTouch) (m : Option Held) :
    (ts.foldl memStep m).map (fun h => (h.val, h.wall)) =
      m.map fun h => (h.val, lastWall h.wall ts) := by
  induction ts generalizing m with
  | nil => rfl
  | cons op ts ih =>
    have hop := h op mem_cons_self
    rw [foldl_cons, ih fun o ho => h o (mem_cons_of_mem _ ho)]
    cases op with
    | touch ver wall => cases m <;> rfl
    | set | del => exact absurd hop id

theorem wantedVal_eq (nowWall : Nat) (m : Option Held) :
    wantedVal nowWall m = ((m.map fun h => (h.val, h.wall)).filter fun p =>
      decide (Later nowWall p.2)).map Prod.fst := by
  cases m with
  | none => rfl
  | some h => by_cases hl : Later nowWall h.wall <;> simp [wantedVal, Option.filter, hl]

theorem shownVal_some (env : ReplayEnv) (val : List Byte) (w : Nat) :
    shownVal env (some (val, w)) = if Shown env w then some val else none := by
  by_cases hs : Shown env w <;> simp [shownVal, hs]

variable {w : Nat}

/-- Touches that are all kept leave a kept expiry. -/
theorem kept_lastWall (hts : ∀ op ∈ ts, op.IsTouch) (hall : ∀ op ∈ ts, LeavesCopy env op)
    (h : Kept env w ∨ ts ≠ []) : Kept env (lastWall w ts) := by
  induction ts generalizing w with
  | nil => exact h.resolve_right (fun hn => hn rfl)
  | cons op ts ih =>
    have hop := hts op mem_cons_self
    have hk := hall op mem_cons_self
    cases op with
    | touch ver w' =>
      exact ih (fun o ho => hts o (mem_cons_of_mem _ ho))
        (fun o ho => hall o (mem_cons_of_mem _ ho)) (.inl hk)
    | set | del => exact absurd hop id

variable {flags : Byte}

/-- A history that ends with a SET and touches leaves that SET's value. -/
theorem wantedVal_memory_set {nowWall : Nat} (hts : ∀ op ∈ ts, op.IsTouch) :
    wantedVal nowWall (memory (q ++ .set ver val w flags :: ts)) =
      if Later nowWall (lastWall w ts) then some val else none := by
  rw [wantedVal_eq, memory, foldl_append, foldl_cons, foldl_memStep_touches hts]
  by_cases hl : Later nowWall (lastWall w ts) <;> simp [memStep, hl]

/-- A history that ends with a SET and touches, all kept. -/
theorem shownVal_keep_kept (hall : ∀ op ∈ ts, LeavesCopy env op) (hk : Kept env w) :
    shownVal env (keep env (q ++ .set ver val w flags :: ts)) =
      if Shown env (lastWall w ts) then some val else none := by
  rw [keep_append, foldl_cons, keepStep, if_pos hk, foldl_keepStep_leaves hall]
  exact shownVal_some ..

/-- A skipped SET and touches that are kept: the touches fall on the older copy. -/
theorem shownVal_keep_skipped {val' : List Byte} (hall : ∀ op ∈ ts, LeavesCopy env op)
    (hk : ¬ Kept env w) :
    shownVal env (keep env (q ++ .set ver val w flags :: ts)) = some val' ↔
      ∃ w', Exposes env q val' w' ∧ Shown env (lastWall w' ts) := by
  rw [keep_append, foldl_cons, keepStep, if_neg hk, foldl_keepStep_leaves hall]
  simp only [← keep_eq_some_iff]
  cases hq : keep env q with
  | none => simp [shownVal]
  | some p =>
    obtain ⟨v, w₀⟩ := p
    rw [map_some, shownVal_some]
    constructor
    · intro h
      by_cases hs : Shown env (lastWall w₀ ts)
      · rw [if_pos hs] at h
        cases h
        exact ⟨w₀, rfl, hs⟩
      · rw [if_neg hs] at h
        cases h
    · rintro ⟨w', hp, hs⟩
      cases hp
      rw [if_pos hs]

/-- The last SET of a history, and the touches after it. -/
theorem shownVal_eq_wantedVal_iff (hts : ∀ op ∈ ts, op.IsTouch) :
    shownVal env (keep env (q ++ .set ver val w flags :: ts)) =
        wantedVal env.nowWall (memory (q ++ .set ver val w flags :: ts)) ↔
      if Later env.nowWall (lastWall w ts) then
        (∀ op ∈ ts, LeavesCopy env op) ∧ (Kept env w ∧ Shown env (lastWall w ts) ∨
            ¬ Kept env w ∧ ∃ w', Exposes env q val w' ∧ Shown env (lastWall w' ts))
      else ts ≠ [] ∨ ∀ val' w', Exposes env q val' w' → ¬ Shown env w' := by
  rw [wantedVal_memory_set hts]
  by_cases hall : ∀ op ∈ ts, LeavesCopy env op
  · by_cases hk : Kept env w
    · -- the SET and its touches are all kept, so it should be there
      have hl : Later env.nowWall (lastWall w ts) :=
        later_of_kept (kept_lastWall hts hall (.inl hk))
      rw [shownVal_keep_kept hall hk, if_pos hl, if_pos hl]
      by_cases hs : Shown env (lastWall w ts)
      · rw [if_pos hs]
        exact iff_of_true rfl ⟨hall, .inl ⟨hk, hs⟩⟩
      · simp [hs, hk]
    · by_cases hl : Later env.nowWall (lastWall w ts)
      · rw [if_pos hl, if_pos hl, shownVal_keep_skipped hall hk]
        simp only [hk, false_and, false_or, not_false_eq_true, true_and]
        exact ⟨fun h => ⟨hall, h⟩, fun h => h.2⟩
      · -- a touch that is kept would have been later
        have hnil : ts = [] := by
          by_contra hne
          exact hl (later_of_kept (kept_lastWall hts hall (.inr hne)))
        subst hnil
        rw [if_neg hl, if_neg hl, eq_none_iff_forall_ne_some]
        simp only [ne_eq, shownVal_keep_skipped hall hk, not_exists, not_and, not_true_eq_false,
          false_or]
        rfl
  · have hne : ts ≠ [] := by
      rintro rfl
      exact hall (fun op hop => absurd hop not_mem_nil)
    rw [keep_append, foldl_cons, foldl_keepStep_touches hts hall]
    by_cases hl : Later env.nowWall (lastWall w ts) <;> simp [shownVal, hl, hall, hne]

/-- A history is touches only, or ends with a SET or a DELETE and touches. -/
theorem touches_or_last (ops : List KeyOp) : (∀ op ∈ ops, op.IsTouch) ∨
      ∃ q op ts, ops = q ++ op :: ts ∧ ¬ op.IsTouch ∧ ∀ o ∈ ts, o.IsTouch := by
  induction ops with
  | nil => exact .inl (fun op hop => absurd hop not_mem_nil)
  | cons op ops ih =>
    obtain h | ⟨q, op', ts, rfl, hop', hts⟩ := ih
    · by_cases hop : op.IsTouch
      · refine .inl ?_
        rw [forall_mem_cons]
        exact ⟨hop, h⟩
      · exact .inr ⟨[], op, ops, rfl, hop, h⟩
    · exact .inr ⟨op :: q, op', ts, rfl, hop', hts⟩

/-- **A history comes back as it was left exactly when it is `Recoverable`.** -/
theorem keep_right_iff (env : ReplayEnv) (ops : List KeyOp) :
    shownVal env (keep env ops) = wantedVal env.nowWall (memory ops) ↔ Recoverable env ops := by
  constructor
  · rintro h q ver val w flags ts rfl hts
    exact (shownVal_eq_wantedVal_iff hts).mp h
  · intro hrec
    -- touches of an absent key leave it absent, on both sides
    have habsent : ∀ ts : List KeyOp, (∀ o ∈ ts, o.IsTouch) →
        shownVal env (ts.foldl (keepStep env) none) =
          wantedVal env.nowWall (ts.foldl memStep none) := by
      intro ts hts
      rw [wantedVal_eq, foldl_memStep_touches hts]
      by_cases hall : ∀ op ∈ ts, LeavesCopy env op
      · rw [foldl_keepStep_leaves hall]
        rfl
      · rw [foldl_keepStep_touches hts hall]
        rfl
    obtain hts | ⟨q, op, ts, rfl, hop, hts⟩ := touches_or_last ops
    · exact habsent ops hts
    · cases op with
      | touch => exact absurd trivial hop
      | set ver val w flags =>
        exact (shownVal_eq_wantedVal_iff hts).mpr (hrec q ver val w flags ts rfl hts)
      | del ver =>
        rw [keep_append, memory, foldl_append]
        exact habsent ts hts

/-! ### A restart -/

/-- The SET that a key in the running store amounts to. -/
def Held.asSet (h : Held) : KeyOp := .set h.ver h.val h.wall 0#8

/-- The history as recovery has it: what `pre` left, in the snapshot, and then `post`. -/
def resumed (pre post : List KeyOp) : List KeyOp := ((memory pre).map Held.asSet).toList ++ post

/-- What a read of a key of a named collection finds. -/
def fetchIn (ticks : Nat) (reg : List Collection) (col : List Byte) (key : Key) :
    Option (List Byte) :=
  (storeFind reg col).bind fun i => reg[i]?.bind fun c => htFetch ticks c.table key

/-- The snapshot holds of the key what `pre` left; a key that had expired when it was
saved is not in it. -/
def SavedAfter (snap : Option Snapshot) (col : List Byte) (key : Key) (pre : List KeyOp) : Prop :=
  match memory pre, snapRec snap col key with
  | none, none => True
  | some h, some f => f.val = h.val ∧ f.wall = h.wall ∧ f.ver = h.ver
  | some h, none => h.wall ≠ 0 ∧ h.wall ≤ snapWall snap
  | none, some _ => False

theorem memory_resumed (pre post : List KeyOp) :
    memory (resumed pre post) = memory (pre ++ post) := by
  have happ : ∀ q, memory (q ++ post) = post.foldl memStep (memory q) := fun q => foldl_append
  rw [resumed, happ, happ]
  cases memory pre <;> rfl

/-- The version a history leaves is that of one of its operations. -/
theorem memory_ver {pre : List KeyOp} {h : Held} (hm : memory pre = some h) :
    ∃ op ∈ pre, op.ver = h.ver := by
  rcases eq_nil_or_concat' pre with rfl | ⟨q, op, rfl⟩
  · cases hm
  · refine ⟨op, by simp, ?_⟩
    rw [memory, foldl_append] at hm
    cases op with
    | set ver val wall flags =>
      cases hm
      rfl
    | touch ver wall =>
      obtain ⟨h', -, rfl⟩ := map_eq_some_iff.mp hm
      rfl
    | del ver => cases hm

theorem fetchIn_eq (ticks : Nat) (reg : List Collection) (col : List Byte) (key : Key) :
    fetchIn ticks reg col key =
      ((lookupIn reg col key).filter fun r => !r.expired ticks).map Rec.val := by
  unfold fetchIn lookupIn htFetch
  cases storeFind reg col with
  | none => rfl
  | some i =>
    cases hc : reg[i]? with
    | none => simp [hc]
    | some c =>
      simp only [bind_some, hc]
      cases c.table.lookup key with
      | none => rfl
      | some r => cases h : r.expired ticks <;> simp [h]

/-- A read of the key sees what the cell shows. -/
theorem fetchIn_of_holds {st : ReplaySt} {col key : List Byte}
    (h : (cellOf st col key).Holds env c) : fetchIn env.ticks st.reg col key = shownVal env c := by
  rw [fetchIn_eq]
  change ((cellOf st col key).held.filter _).map Rec.val = _
  unfold Cell.Holds at h
  cases hh : (cellOf st col key).held with
  | none =>
    rw [hh] at h
    cases c with
    | none => rfl
    | some p => cases h
  | some r =>
    rw [hh] at h
    cases c with
    | none => cases h
    | some p =>
      obtain ⟨val, wall⟩ := p
      simp only [Option.map_some, Option.some.injEq, Prod.mk.injEq] at h
      have hexp : (!r.expired env.ticks) = decide (Shown env wall) := by
        rw [Bool.eq_iff_iff, decide_eq_true_iff, Shown, ← h.2]
        simp [Rec.expired]
      rw [shownVal_some]
      by_cases hs : Shown env wall <;> simp [Option.filter, hexp, hs, h.1]

section Restart

variable {env : ReplayEnv} {snap : Option Snapshot} {col : List Byte} {key : Key}
  {pre post : List KeyOp}

/-- The key's cell after the load is the snapshot's SET, replayed. -/
theorem snapCell_holds (hsaved : SavedAfter snap col key pre) (hsv : snapWall snap ≤ env.nowWall) :
    (snapCell env snap col key).Holds env (keep env ((memory pre).map Held.asSet).toList) := by
  unfold SavedAfter at hsaved
  unfold snapCell Cell.Holds
  cases hm : memory pre with
  | none =>
    cases hr : snapRec snap col key with
    | none => rfl
    | some f => simp [hm, hr] at hsaved
  | some h =>
    cases hr : snapRec snap col key with
    | none =>
      simp only [hm, hr] at hsaved
      -- it had expired when it was saved, so the replay of the SET would skip it
      have hk : ¬ Kept env h.wall := by
        intro hk
        have := later_of_kept hk
        unfold Later at this
        omega
      simp [keep, keepStep, Held.asSet, hk]
    | some f =>
      simp only [hm, hr] at hsaved
      obtain ⟨hval, hwall, -⟩ := hsaved
      simp only [bind_some, loaded, hwall, hval]
      by_cases hk : Kept env h.wall
      · have hne : wallToTicks env.ticks env.nowWall h.wall ≠ 1 := hk
        simp [keep, keepStep, Held.asSet, hk, hne]
      · have he : wallToTicks env.ticks env.nowWall h.wall = 1 := not_not.mp hk
        simp [keep, keepStep, Held.asSet, hk, he]

/-- What a load leaves is older than the rest of the history. -/
theorem snapCell_below (hsaved : SavedAfter snap col key pre) (hv : ∀ op ∈ pre, op.ver < v)
    (hpos : 0 < v) : (snapCell env snap col key).Below v := by
  refine ⟨fun r hr => ?_, hpos⟩
  obtain ⟨f, hf, hld⟩ := bind_eq_some_iff.mp hr
  unfold SavedAfter at hsaved
  cases hm : memory pre with
  | none => simp [hm, hf] at hsaved
  | some h =>
    simp only [hm, hf] at hsaved
    obtain ⟨op, hop, hver⟩ := memory_ver hm
    unfold loaded at hld
    obtain ⟨-, ⟨⟩⟩ := ite_none_left_eq_some.mp hld
    rw [hsaved.2.2, ← hver]
    exact hv op hop

/-- A restart: of the key's history the snapshot holds what `pre` left, and the log
has the rest, `post`. -/
structure Restart (env : ReplayEnv) (clk : LoadClock) (ρ : Int) (snap : Option Snapshot)
    (reg : List Collection) (log : List WalRec) (col : List Byte) (key : Key)
    (pre post : List KeyOp) : Prop where
  reload : Reload env clk ρ snap reg log
  nul : 0#8 ∉ col
  slot : HasSlot reg col
  before : snapWall snap ≤ env.nowWall
  saved : SavedAfter snap col key pre
  versioned : ∀ r ∈ log, r.col = col → r.key = key → (recOp r).isSome
  rest : log.filterMap (keyOp (snapMarker snap) col key) = post
  rising : (pre ++ post).Pairwise fun o o' => o.ver < o'.ver
  positive : ∀ op ∈ pre ++ post, 0 < op.ver

variable {clk : LoadClock} {ρ : Int} {reg : List Collection} {log : List WalRec}

/-- A restart replays the snapshot's SET and the rest of the history. -/
theorem Restart.fetch (h : Restart env clk ρ snap reg log col key pre post) (clock : Nat) :
    ∃ st, pcRecover env clk ρ (snap.map Snapshot.file) reg clock log = some st ∧
      fetchIn env.ticks st.reg col key = shownVal env (keep env (resumed pre post)) := by
  obtain ⟨st, hst, hcell⟩ := h.reload.cell clock
  refine ⟨st, hst, fetchIn_of_holds ?_⟩
  have hrise := pairwise_append.mp h.rising
  rw [hcell col key h.nul h.slot h.versioned, h.rest, resumed, keep_append]
  exact foldl_cellStep_holds (snapCell_holds h.saved h.before)
    (fun op hop => snapCell_below h.saved (fun o ho => hrise.2.2 o ho op hop)
      (h.positive op (mem_append_right _ hop))) hrise.2.1

/-- **What a restart gives back of a key** is what its history left, if that expires
later than the restart, exactly for the histories that are `Recoverable`: no SET that
expired by then hides an older copy of the key that is still alive, and no deadline is
one that `wall_to_ticks` gets wrong. -/
theorem history_restored_iff (h : Restart env clk ρ snap reg log col key pre post) (clock : Nat) :
    (∃ st, pcRecover env clk ρ (snap.map Snapshot.file) reg clock log = some st ∧
      ∀ v, fetchIn env.ticks st.reg col key = some v ↔
        ∃ m, memory (pre ++ post) = some m ∧ m.val = v ∧ Later env.nowWall m.wall) ↔
    Recoverable env (resumed pre post) := by
  have hwant : ∀ v, (∃ m, memory (pre ++ post) = some m ∧ m.val = v ∧ Later env.nowWall m.wall) ↔
      wantedVal env.nowWall (memory (resumed pre post)) = some v := by
    intro v
    rw [memory_resumed, wantedVal]
    cases memory (pre ++ post) with
    | none => simp
    | some m => by_cases hl : Later env.nowWall m.wall <;> simp [hl]
  obtain ⟨st, hst, hfetch⟩ := h.fetch clock
  rw [← keep_right_iff, ← hfetch]
  constructor
  · rintro ⟨st', hst', hall⟩
    rw [hst] at hst'
    cases hst'
    exact ext fun v => by rw [hall, hwant]
  · intro heq
    exact ⟨st, hst, fun v => by rw [hwant, heq]⟩

end Restart

/-- A restart a hundred seconds after the save. -/
def restartAt : ReplayEnv := { replayAt with nowWall := 1700000100 }

@[inherit_doc restartAt]
def reloadAt : LoadClock := ⟨1700000100, fun _ => 10, fun _ => by decide⟩

/-- A snapshot that holds the value `a`, which does not expire. -/
def savedA : Snapshot := ⟨saveAt, [oneKey ⟨[0x61#8], 0, 0#8, 1⟩]⟩

/-- The log: an overwrite by `b` at version 2, with a deadline. -/
def overwriteRec (wall : Nat) : WalRec := ⟨4, [0x63#8], [0x6B#8], [0x62#8], wall, 8, 2, 0#8⟩

theorem emptyStore_empty (col : List Byte) (key : Key) :
    lookupIn emptyStore.reg col key = none := by
  rw [lookupIn, emptyStore]
  cases storeFind [⟨[0x63#8], true, true, ∅, none⟩] col with
  | none => rfl
  | some i => cases i <;> rfl

/-- The value `a` in the snapshot, and the overwrite by `b` in the log. -/
theorem overwrite_restart (wall : Nat) :
    Restart restartAt reloadAt 4096 (some savedA) emptyStore.reg [overwriteRec wall]
      [0x63#8] [0x6B#8] [.set 1 [0x61#8] 0 0#8] [.set 2 [0x62#8] wall 0#8] where
  reload :=
    { arena := fun _ _ => rfl
      wall := rfl
      tick := fun _ => rfl
      empty := emptyStore_empty
      snapshot := by
        rintro s ⟨⟩
        refine ⟨oneKey_wellFormed (by decide) (by decide) (by decide), by decide, ?_⟩
        intro c hc
        rw [mem_singleton.mp hc]
        exact ⟨0, _, rfl, rfl, rfl⟩
      logged := by
        intro r hr
        rw [mem_singleton.mp hr]
        refine ⟨fun t ht => ?_, show 0#8 ∉ [0x63#8] by decide, show 1 ≤ 65535 by decide,
          show 28 + 1 + 1 ≤ 262080 by decide⟩
        cases ht
        decide }
  nul := by decide
  slot := ⟨0, _, rfl, rfl, rfl⟩
  before := by decide
  saved := ⟨rfl, rfl, rfl⟩
  versioned := by
    intro r hr _ _
    rw [mem_singleton.mp hr]
    rfl
  rest := rfl
  rising := by simp [KeyOp.ver]
  positive := by simp [KeyOp.ver]

/-- The overwrite expired forty seconds before the restart: the value it overwrote is
back. -/
theorem overwritten_value_comes_back :
    memory [.set 1 [0x61#8] 0 0#8, .set 2 [0x62#8] 1700000060 0#8] =
        some ⟨2, [0x62#8], 1700000060⟩ ∧
      ¬ Later 1700000100 1700000060 ∧
      ∃ st, pcRecover restartAt reloadAt 4096 (some savedA.file) emptyStore.reg 0
          [overwriteRec 1700000060] = some st ∧
        fetchIn 10 st.reg [0x63#8] [0x6B#8] = some [0x61#8] := by
  obtain ⟨st, hst, hfetch⟩ := (overwrite_restart 1700000060).fetch 0
  exact ⟨rfl, by decide, st, hst, hfetch.trans (by decide)⟩

/-- An overwrite that is still alive at the restart comes back. -/
theorem history_restored_overwrite :
    ∃ st, pcRecover restartAt reloadAt 4096 (some savedA.file) emptyStore.reg 0
        [overwriteRec 1700000160] = some st ∧
      fetchIn 10 st.reg [0x63#8] [0x6B#8] = some [0x62#8] := by
  obtain ⟨st, hst, hall⟩ := (history_restored_iff (overwrite_restart 1700000160) 0).mpr
    ((keep_right_iff _ _).mp (by decide))
  exact ⟨st, hst, (hall _).mpr ⟨_, rfl, rfl, by decide⟩⟩

end Perfcached.Recover
