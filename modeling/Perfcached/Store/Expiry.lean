import Perfcached.Store.Operations

/-!
# Perfcached.Store.Expiry

An expired record against an absent one.

Between its deadline and the sweep a record is still in its bucket. A read answers as if it were
not (`fetch_core`); the operations that write look the key up by themselves and take the record
they find. `Same` compares an operation on a table with the same operation after every record
past its deadline has gone: the answers, and every later read of the key. `expired_as_absent_iff`
says exactly when they agree.
-/

namespace Perfcached

open Bytes Option

/-- An operation on a key. -/
inductive KeyOp
  | read
  | incr (delta : BitVec 64) (expires : Nat)
  | touch (expires : Nat)
  | remove
  deriving DecidableEq

/-- What an operation answers. -/
inductive KeyAnswer
  | value (v : Option (List Byte))
  | count (rc : AddRc)
  | hit (yes : Bool)
  deriving DecidableEq

/-- The value a client reads: a native counter as text. -/
def htGet (ticks : Nat) (t : Table) (k : Key) : Option (List Byte) :=
  ((t.lookup k).filter fun r => !r.expired ticks).map Rec.emitVal

/-- An operation, at a time and a clock. -/
def KeyOp.run (A : Arena) (ticks clock : Nat) (t : Table) (k : Key) : KeyOp → KeyAnswer × Table
  | .read => (.value (htGet ticks t k), t)
  | .incr delta expires =>
    let r := htAddEx A ticks clock t k delta expires
    (.count r.1, r.2.1)
  | .touch expires =>
    let r := htTouch ticks clock t k expires
    (.hit r.1, r.2.1)
  | .remove =>
    let r := removeImpl clock t k 0 false
    (.hit r.gone, r.table)

/-- The operation answers, and leaves the key to every later read, as if every record past its
deadline had gone before it. -/
def Same (A : Arena) (now clock : Nat) (t : Table) (k : Key) (op : KeyOp) : Prop :=
  (op.run A now clock t k).1 = (op.run A now clock (purge now t) k).1 ∧ ∀ later, now ≤ later →
      htGet later (op.run A now clock t k).2 k =
        htGet later (op.run A now clock (purge now t) k).2 k

/-- An increment that is refused whatever the key holds. -/
def IncrRefused (A : Arena) (k : Key) : Prop :=
  0xFFFF < k.length ∨ A.alloc (recSize k (leBytes 8 0)) = false

/-- What the operation asks of a record past its deadline. -/
def Ignores (A : Arena) (k : Key) (r : Rec) : KeyOp → Prop
  | .read => True
  | .incr _ expires => IncrRefused A k ∨ (expires ≠ expPreserve ∧ r.number = some 0)
  | .touch _ => False
  | .remove => False

/-! ### Operations look at their key only -/

variable {t : Table} {k : Key}

theorem htGet_congr {t' : Table} (h : t.lookup k = t'.lookup k) (ticks : Nat) :
    htGet ticks t k = htGet ticks t' k := by
  rw [htGet, htGet, h]

open KeyOp

theorem run_congr (A : Arena) (ticks clock : Nat) {t' : Table} (h : t.lookup k = t'.lookup k)
    (op : KeyOp) :
    (op.run A ticks clock t k).1 = (op.run A ticks clock t' k).1 ∧
      (op.run A ticks clock t k).2.lookup k = (op.run A ticks clock t' k).2.lookup k := by
  cases op with
  | read =>
    refine ⟨?_, h⟩
    simp only [run, htGet_congr h ticks]
  | incr delta expires =>
    simp only [run, htAddEx, addExBody, ← h]
    split
    · exact ⟨rfl, h⟩
    · generalize addRec ticks clock (t.lookup k) delta expires = out
      obtain ⟨rc, r | r⟩ := out
      · exact ⟨rfl, h⟩
      · exact ⟨rfl, by simp only [lookup_insert, if_true]⟩
  | touch expires =>
    simp only [run, htTouch, ← h]
    cases hl : t.lookup k with
    | none => exact ⟨rfl, h⟩
    | some r => exact ⟨rfl, by simp only [lookup_insert, if_true]⟩
  | remove =>
    simp only [run]
    refine ⟨?_, by rw [lookup_removeImpl, lookup_removeImpl, if_pos rfl, if_pos rfl, h]⟩
    simp [removeImpl, h]

variable {now : Nat} {r : Rec}

/-- A table without the key, in place of the purged one. -/
theorem lookup_purge_of_expired (hr : t.lookup k = some r) (he : r.expired now = true) :
    (purge now t).lookup k = none := by
  rw [lookup_purge, hr, filter_some]
  simp [he]

theorem htGet_of_expired {later : Nat} (hr : t.lookup k = some r) (he : r.expired now = true)
    (hle : now ≤ later) : htGet later t k = none := by
  have hlate : r.expired later = true := by
    unfold Rec.expired at *
    simp only [ne_eq, Bool.and_eq_true, decide_eq_true_eq] at he ⊢
    exact ⟨he.1, le_trans he.2 hle⟩
  rw [htGet, hr, filter_some]
  simp [hlate]

theorem htGet_insert (later : Nat) (t : Table) (k : Key) (r : Rec) :
    htGet later (t.insert k r) k = if r.expired later then none else some r.emitVal := by
  rw [htGet, lookup_insert, if_pos rfl, filter_some]
  cases r.expired later <;> rfl

theorem htGet_of_absent (h : t.lookup k = none) (later : Nat) : htGet later t k = none := by
  rw [htGet, h]
  rfl

/-! ### The operations on an expired record -/

variable {expires : Nat}

/-- A zero past its deadline, incremented with an expiry of its own, is a counter as if new. -/
theorem addRec_expired (clock : Nat) (he : r.expired now = true) (delta : BitVec 64)
    (hkeep : expires ≠ expPreserve) (hn : r.number = some 0) :
    ∃ fl, fl &&& fInt = fInt ∧ addRec now clock (some r) delta expires =
      (.ok delta expires, some ⟨leBytes 8 delta.toNat, expires, fl, verLocal clock (some r)⟩) := by
  have hshort : ∀ e, shortenedFl now r e = 0#8 := fun e => by simp [shortenedFl, he]
  have hint : ∀ fl : Byte, fl &&& fInt ≠ 0#8 → fl &&& ~~~fPassive &&& fInt = fInt := by decide
  refine ⟨if r.isInt then r.rflags &&& ~~~fPassive else fInt, ?_, ?_⟩
  · cases hi : r.isInt with
    | false => simp [fInt]
    | true =>
      exact hint r.rflags (of_decide_eq_true hi)
  · simp [addRec, hn, hkeep, hshort]

theorem addRec_absent (now clock : Nat) (delta : BitVec 64) (hkeep : expires ≠ expPreserve) :
    addRec now clock none delta expires =
      (.ok delta expires, some ⟨leBytes 8 delta.toNat, expires, fInt, verLocal clock none⟩) := by
  simp [addRec, hkeep]

section Expired

variable {A : Arena} {now clock : Nat} {t : Table} {k : Key} {r : Rec}
  (hr : t.lookup k = some r) (he : r.expired now = true)

include hr he

theorem same_read : Same A now clock t k .read := by
  have hgone := lookup_purge_of_expired hr he
  refine ⟨?_, fun later hle => ?_⟩
  · simp only [run, htGet_of_expired hr he (Nat.le_refl now), htGet_of_absent hgone]
  · simp only [run, htGet_of_expired hr he hle, htGet_of_absent hgone]

theorem not_same_touch (expires : Nat) : ¬ Same A now clock t k (.touch expires) := by
  rintro ⟨hanswer, -⟩
  simp [run, htTouch, hr, lookup_purge_of_expired hr he] at hanswer

theorem not_same_remove : ¬ Same A now clock t k .remove := by
  rintro ⟨hanswer, -⟩
  simp [run, removeImpl, hr, lookup_purge_of_expired hr he, Rec.under] at hanswer

theorem same_incr_of_refused {delta : BitVec 64} (hrefused : IncrRefused A k) :
    Same A now clock t k (.incr delta expires) := by
  have hgone := lookup_purge_of_expired hr he
  have hrun : ∀ t' : Table, run A now clock t' k (.incr delta expires) =
      (.count .error, t') := by
    intro t'
    unfold IncrRefused at hrefused
    simp only [run, htAddEx, addExBody, if_pos hrefused]
  rw [Same, hrun, hrun]
  refine ⟨rfl, fun later hle => ?_⟩
  rw [htGet_of_expired hr he hle, htGet_of_absent hgone]

/-- An increment that goes through starts from the number of the expired record. -/
theorem same_incr_iff {delta : BitVec 64} (hok : ¬ IncrRefused A k) :
    Same A now clock t k (.incr delta expires) ↔ expires ≠ expPreserve ∧ r.number = some 0 := by
  have hgone := lookup_purge_of_expired hr he
  have hpast : r.expires ≠ 0 := by
    unfold Rec.expired at he
    simp only [ne_eq, Bool.and_eq_true, decide_eq_true_eq] at he
    exact he.1
  unfold IncrRefused at hok
  simp only [Same, run, htAddEx, addExBody, if_neg hok, hr, hgone]
  constructor
  · rintro ⟨hanswer, -⟩
    cases hn : r.number with
    | none => simp [addRec, hn] at hanswer
    | some n =>
      by_cases hkeep : expires = expPreserve
      · simp [addRec, hn, hkeep, hpast] at hanswer
      · simp [addRec, hn, hkeep] at hanswer
        exact ⟨hkeep, congrArg some hanswer⟩
  · rintro ⟨hkeep, hn⟩
    obtain ⟨fl, hfl, hrec⟩ := addRec_expired clock he delta hkeep hn
    simp only [hrec, addRec_absent now clock delta hkeep, true_and]
    intro later _
    rw [htGet_insert, htGet_insert]
    simp [Rec.expired, Rec.emitVal, hfl]

end Expired

/-- **An expired record behaves as an absent one, exactly where the operation ignores it.** Where
the key's record is not past its deadline every operation does; where it is, a read does, an
increment does if it is refused or if it brings an expiry and the record holds zero, a re-arm and
a delete never do. -/
theorem expired_as_absent_iff (A : Arena) (now clock : Nat) (t : Table) (k : Key) (op : KeyOp) :
    Same A now clock t k op ↔
      ∀ r, t.lookup k = some r → r.expired now = true → Ignores A k r op := by
  by_cases hex : ∃ r, t.lookup k = some r ∧ r.expired now = true
  · obtain ⟨r, hr, he⟩ := hex
    have honly : (∀ r', t.lookup k = some r' → r'.expired now = true → Ignores A k r' op) ↔
        Ignores A k r op := by
      refine ⟨fun h => h r hr he, fun h r' hr' _ => ?_⟩
      obtain rfl : r = r' := some.inj (hr.symm.trans hr')
      exact h
    rw [honly]
    cases op with
    | read => exact iff_of_true (same_read hr he) trivial
    | incr delta expires =>
      by_cases hrefused : IncrRefused A k
      · exact iff_of_true (same_incr_of_refused hr he hrefused) (.inl hrefused)
      · rw [same_incr_iff hr he hrefused, Ignores]
        exact ⟨Or.inr, fun h => h.resolve_left hrefused⟩
    | touch expires => exact iff_of_false (not_same_touch hr he expires) id
    | remove => exact iff_of_false (not_same_remove hr he) id
  · refine iff_of_true ?_ fun r hr he => absurd ⟨r, hr, he⟩ hex
    -- the purge has left the key as it was
    have hsame : t.lookup k = (purge now t).lookup k := by
      rw [lookup_purge]
      cases hl : t.lookup k with
      | none => rfl
      | some r =>
        have hlive : r.expired now = false := by
          rw [← Bool.not_eq_true]
          exact fun he => hex ⟨r, hl, he⟩
        rw [filter_some]
        simp [hlive]
    obtain ⟨hanswer, hleft⟩ := run_congr A now clock hsame op
    exact ⟨hanswer, fun later _ => htGet_congr hleft later⟩

/-- A counter of 5 that lapsed at tick 10. -/
def lapsed : Table := AList.singleton [] ⟨leBytes 8 5, 10, fInt, 3⟩

/-- Incremented at tick 20 with a new expiry it goes on from 5, where an absent key starts from
the increment. -/
theorem incr_goes_on_from_expired :
    ((incr 1 100).run vastArena 20 7 lapsed []).1 = .count (.ok 6 100) ∧
      ((incr 1 100).run vastArena 20 7 (purge 20 lapsed) []).1 = .count (.ok 1 100) ∧
      ¬ Same vastArena 20 7 lapsed [] (.incr 1 100) := by
  have hans : ((incr 1 100).run vastArena 20 7 lapsed []).1 = .count (.ok 6 100) ∧
      ((incr 1 100).run vastArena 20 7 (purge 20 lapsed) []).1 = .count (.ok 1 100) := by
    decide
  refine ⟨hans.1, hans.2, fun h => ?_⟩
  have hsame := h.1
  rw [hans.1, hans.2] at hsame
  exact absurd hsame (by decide)

end Perfcached
