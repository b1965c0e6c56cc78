import Perfcached.Lib.Greatest
import Perfcached.Lib.Machine
import Perfcached.Store.Operations

/-!
# Perfcached.Cluster.Order

A replicated set and a replicated delete of one key, applied on any threads (`src/clorder.c`).

A set looks at the key's tombstone, stores its copy if that is newer than the record held, and
looks at the tombstone again: a delete planted in between may have found nothing to remove. A
delete plants its tombstone, then removes the record up to its own version. The bucket lock and the
tombstone's lock make each of these one step; between the steps any other apply may run.

The tombstone is `struct clorder_tomb`'s: the newest one planted for the key, 0 for none. It is
retained throughout, so planting takes the greater version (`clretain_note`). No copy was dropped at
the arena's ceiling, and no resize is filling.
-/

namespace Perfcached.Clorder

open Bytes Machine List Nat Function

/-- A replicated operation of the key, at its sender's version. -/
inductive RemoteOp
  | set (v : List Byte) (expires : Nat) (rflags : Byte) (ver : Nat)
  | del (ver : Nat)
  deriving DecidableEq

def RemoteOp.ver : RemoteOp → Nat
  | .set _ _ _ ver => ver
  | .del ver => ver

/-- The value the operation is for, none for a delete. -/
def RemoteOp.value : RemoteOp → Option (List Byte)
  | .set v _ _ _ => some v
  | .del _ => none

/-- What an apply answers: `clorder_set`'s 0, `CLORDER_REFUSED`, `CLORDER_TAKEN` or the store's
error, or whether `clorder_del` removed a record. -/
inductive ApplyRc
  | ok
  | refused
  | taken
  | failed (rc : StoreRc)
  | removed (gone : Bool)
  deriving DecidableEq

/-- Where an apply stands. -/
inductive ApplyPc
  | start
  | checked
  | stored
  | looked (tv : Nat)
  | planted
  | done (rc : ApplyRc)
  deriving DecidableEq

def ApplyPc.isDone : ApplyPc → Bool
  | .done _ => true
  | _ => false

/-- `clorder_tomb`'s `refuse` (`apply_refuse`). -/
def refuse (tomb ver : Nat) : Bool := tomb ≠ 0 ∧ ver ≤ tomb

def clorderTakeBack (clock : Nat) (t : Table) (k : Key) (ver tv : Nat) : Removed :=
  if tv ≠ 0 ∧ ver ≤ tv then htRemoveBelow clock t k ((tv + 1) % 2 ^ 64)
  else ⟨false, none, t, clock⟩

/-- `clorder_del`; an older sender's delete has no version. -/
def clorderDel (clock : Nat) (t : Table) (k : Key) (ver : Nat) : Removed :=
  if ver = 0 then removeImpl clock t k 0 false else htRemoveUpto clock t k ver

/-- A member: its table, clock and tombstone, and where each apply stands. -/
structure Applier where
  table : Table
  clock : Nat
  tomb : Nat
  pc : Nat → ApplyPc

/-- The next step of apply `i`, at time `ticks`. -/
def Applier.next (A : Arena) (k : Key) (ops : List RemoteOp) (m : Applier) (i ticks : Nat) :
    Option Applier :=
  let goto := update m.pc i
  match ops[i]?, m.pc i with
  | some (.set _ _ _ ver), .start =>
    some { m with pc := goto (if refuse m.tomb ver then .done .refused else .checked) }
  | some (.set v expires rflags ver), .checked =>
    let r := htStoreVer A ticks m.clock m.table k v expires rflags ver
    some { m with table := r.2.1, clock := r.2.2
                  pc := goto (if r.1 = .ok then .stored else .done (.failed r.1)) }
  | some (.set ..), .stored => some { m with pc := goto (.looked m.tomb) }
  | some (.set _ _ _ ver), .looked tv =>
    let r := clorderTakeBack m.clock m.table k ver tv
    some { m with table := r.table, clock := r.clock
                  pc := goto (.done (if r.gone then .taken else .ok)) }
  | some (.del ver), .start => some { m with tomb := max m.tomb ver, pc := goto .planted }
  | some (.del ver), .planted =>
    let r := clorderDel m.clock m.table k ver
    some { m with table := r.table, clock := r.clock, pc := goto (.done (.removed r.gone)) }
  | _, _ => none

/-- Any apply may take the next step, at any time. -/
def Applier.step (A : Arena) (k : Key) (ops : List RemoteOp) (m : Applier) (a : Nat × Nat) :
    Option Applier :=
  m.next A k ops a.1 a.2

def Applier.start (t : Table) (clock : Nat) : Applier := ⟨t, clock, 0, fun _ => .start⟩

def Applier.Finished (m : Applier) (ops : List RemoteOp) : Prop :=
  ∀ i < ops.length, (m.pc i).isDone = true

instance (m : Applier) (ops : List RemoteOp) : Decidable (m.Finished ops) :=
  inferInstanceAs (Decidable (∀ i < ops.length, _))

def Applier.value (m : Applier) (k : Key) : Option (List Byte) := (m.table.lookup k).map Rec.val

/-- The operations a member took: different ones have different versions, below the greatest;
deletes are versioned, and the values fit. -/
structure Taken (k : Key) where
  ops : List RemoteOp
  distinct : ∀ o ∈ ops, ∀ o' ∈ ops, o.ver = o'.ver → o = o'
  below : ∀ o ∈ ops, o.ver < 2 ^ 64 - 1
  versioned : ∀ ver, RemoteOp.del ver ∈ ops → ver ≠ 0
  storable : ∀ o ∈ ops, ∀ v ∈ o.value, Storable k v

/-! ### What a step does to the key's record and tombstone -/

/-- The steps of apply `i`, as the key's record, the tombstone and the apply see them. -/
inductive Applier.Moved (ops : List RemoteOp) (k : Key) (i : Nat) (m m' : Applier) : Prop
  | check {v : List Byte} {expires : Nat} {rflags : Byte} {ver : Nat}
      (hop : ops[i]? = some (.set v expires rflags ver)) (hpc : m.pc i = .start)
      (hpc' : m'.pc = update m.pc i
        (if refuse m.tomb ver then .done .refused else .checked))
      (hrec : m'.table.lookup k = m.table.lookup k) (htomb : m'.tomb = m.tomb)
  | store {v : List Byte} {expires : Nat} {rflags : Byte} {ver : Nat} (r : Rec)
      (hop : ops[i]? = some (.set v expires rflags ver)) (hpc : m.pc i = .checked)
      (hpc' : m'.pc = update m.pc i .stored)
      (hold : ∀ old ∈ m.table.lookup k, old.ver < ver) (hver : r.ver = ver) (hval : r.val = v)
      (hrec : m'.table.lookup k = some r) (htomb : m'.tomb = m.tomb)
  | older {v : List Byte} {expires : Nat} {rflags : Byte} {ver : Nat} (old : Rec)
      (hop : ops[i]? = some (.set v expires rflags ver)) (hpc : m.pc i = .checked)
      (hpc' : m'.pc = update m.pc i (.done (.failed .older)))
      (hold : m.table.lookup k = some old) (hver : ver ≤ old.ver)
      (hrec : m'.table.lookup k = m.table.lookup k) (htomb : m'.tomb = m.tomb)
  | look {v : List Byte} {expires : Nat} {rflags : Byte} {ver : Nat}
      (hop : ops[i]? = some (.set v expires rflags ver)) (hpc : m.pc i = .stored)
      (hpc' : m'.pc = update m.pc i (.looked m.tomb))
      (hrec : m'.table.lookup k = m.table.lookup k) (htomb : m'.tomb = m.tomb)
  | takeBack {v : List Byte} {expires : Nat} {rflags : Byte} {ver tv : Nat} (rc : ApplyRc)
      (hop : ops[i]? = some (.set v expires rflags ver)) (hpc : m.pc i = .looked tv)
      (hpc' : m'.pc = update m.pc i (.done rc))
      (hrec : m'.table.lookup k = (m.table.lookup k).filter fun r => tv = 0 ∨ tv < ver ∨ tv < r.ver)
      (htomb : m'.tomb = m.tomb)
  | plant {ver : Nat} (hop : ops[i]? = some (.del ver)) (hpc : m.pc i = .start)
      (hpc' : m'.pc = update m.pc i .planted)
      (hrec : m'.table.lookup k = m.table.lookup k) (htomb : m'.tomb = max m.tomb ver)
  | del {ver : Nat} (rc : ApplyRc) (hop : ops[i]? = some (.del ver)) (hpc : m.pc i = .planted)
      (hpc' : m'.pc = update m.pc i (.done rc))
      (hrec : m'.table.lookup k = (m.table.lookup k).filter fun r => ver < r.ver)
      (htomb : m'.tomb = m.tomb)

variable {clock : Nat} {t : Table} {k : Key}

theorem lookup_clorderTakeBack {ver tv : Nat} (htv : tv < 2 ^ 64 - 1) :
    (clorderTakeBack clock t k ver tv).table.lookup k =
      (t.lookup k).filter fun r => tv = 0 ∨ tv < ver ∨ tv < r.ver := by
  have hmod : (tv + 1) % 2 ^ 64 = tv + 1 := mod_eq_of_lt (by omega)
  unfold clorderTakeBack
  by_cases hcov : tv ≠ 0 ∧ ver ≤ tv
  · rw [if_pos hcov, hmod, htRemoveBelow, if_neg (succ_ne_zero tv), lookup_removeImpl, if_pos rfl]
    simp only [not_under_succ, hcov.1, not_lt.mpr hcov.2, false_or]
  · have hkeep : tv = 0 ∨ tv < ver := by omega
    rw [if_neg hcov]
    cases t.lookup k with
    | none => rfl
    | some r => simp [Option.filter_some, ← or_assoc, hkeep]

theorem lookup_clorderDel {ver : Nat} (h0 : ver ≠ 0) (hver : ver < 2 ^ 64 - 1) :
    (clorderDel clock t k ver).table.lookup k = (t.lookup k).filter fun r => ver < r.ver := by
  have hmod : (ver + 1) % 2 ^ 64 = ver + 1 := mod_eq_of_lt (by omega)
  rw [clorderDel, if_neg h0, htRemoveUpto, if_neg h0, hmod, lookup_removeImpl, if_pos rfl]
  simp only [not_under_succ]

variable {A : Arena} {m : Applier}

open Applier

/-- Every step is one of these, where the tombstones are of deletes taken. -/
theorem Applier.step_moved (hA : ∀ n ≤ cellMax, A.alloc n = true) (T : Taken k) {m' : Applier}
    {a : Nat × Nat} (htv : ∀ tv, m.pc a.1 = .looked tv → tv < 2 ^ 64 - 1)
    (hstep : m.step A k T.ops a = some m') : Moved T.ops k a.1 m m' := by
  obtain ⟨i, ticks⟩ := a
  unfold step next at hstep
  split at hstep
  · rename_i hop hpc
    cases hstep
    exact .check hop hpc rfl rfl rfl
  · rename_i v expires rflags ver hop hpc
    have hst : Storable k v := T.storable _ (mem_of_getElem? hop) v rfl
    have hroomy := htStoreVer_roomy hst (hA _ hst.size) ticks m.clock m.table expires rflags ver
    cases hl : m.table.lookup k with
    | none =>
      simp only [hroomy, hl, if_true] at hstep
      cases hstep
      exact .store ⟨v, expires, rflags, ver⟩ hop hpc rfl (by simp [hl]) rfl rfl (by simp) rfl
    | some old =>
      by_cases hver : ver ≤ old.ver
      · simp only [hroomy, hl, hver, if_true] at hstep
        cases hstep
        exact .older old hop hpc rfl hl hver rfl rfl
      · simp only [hroomy, hl, hver, if_false, if_true] at hstep
        cases hstep
        refine .store ⟨v, expires, rflags ||| shortenedFl ticks old expires, ver⟩ hop hpc rfl
          (fun o ho => ?_) rfl rfl (by simp) rfl
        rw [hl, Option.mem_some_iff] at ho
        exact ho ▸ Nat.lt_of_not_le hver
  · rename_i hop hpc
    cases hstep
    exact .look hop hpc rfl rfl rfl
  · rename_i tv hop hpc
    cases hstep
    exact .takeBack _ hop hpc rfl (lookup_clorderTakeBack (htv tv hpc)) rfl
  · rename_i hop hpc
    cases hstep
    exact .plant hop hpc rfl rfl rfl
  · rename_i ver hop hpc
    cases hstep
    have hmem := mem_of_getElem? hop
    exact .del _ hop hpc rfl (lookup_clorderDel (T.versioned ver hmem) (T.below _ hmem)) rfl
  · cases hstep

/-! ### The invariant -/

/-- Apply `i` is about to take the record at version `v` away. -/
def Applier.Takes (m : Applier) (ops : List RemoteOp) (v i : Nat) : Prop :=
  match ops[i]?, m.pc i with
  | some (.del ver), .planted => v ≤ ver
  | some (.set _ _ _ ver), .stored => v = ver
  | some (.set _ _ _ ver), .looked tv => tv ≠ 0 ∧ ver ≤ tv ∧ v ≤ tv
  | _, _ => False

variable {ops : List RemoteOp} {v : Nat}

theorem Applier.Takes.lt_length {i : Nat} (h : m.Takes ops v i) : i < ops.length := by
  rw [← not_le, ← getElem?_eq_none_iff]
  intro hnone
  simp [Takes, hnone] at h

theorem ApplyPc.eq_done {pc : ApplyPc} (h : pc.isDone = true) : ∃ rc, pc = .done rc := by
  cases pc with
  | done rc => exact ⟨rc, rfl⟩
  | start | checked | stored | looked | planted => cases h

theorem Applier.Takes.not_done {i : Nat} (h : m.Takes ops v i) : (m.pc i).isDone ≠ true := by
  intro hdone
  obtain ⟨rc, hrc⟩ := ApplyPc.eq_done hdone
  simp [Takes, hrc] at h

/-- Apply `i` has stored, or found a newer record. -/
def ApplyPc.past : ApplyPc → Prop
  | .start => False
  | .checked => False
  | _ => True

/-- The record and the tombstone are of operations taken; a record that the tombstone covers is
about to go; and the operation of the greatest version, if a set, stays once it is stored. -/
structure Applier.Inv (ops : List RemoteOp) (k : Key) (m : Applier) : Prop where
  held : ∀ r ∈ m.table.lookup k, ∃ o ∈ ops, o.ver = r.ver ∧ o.value = some r.val
  tomb : m.tomb = 0 ∨ RemoteOp.del m.tomb ∈ ops
  looked : ∀ i tv, m.pc i = .looked tv → tv = 0 ∨ RemoteOp.del tv ∈ ops
  planted : ∀ i ver, ops[i]? = some (.del ver) → m.pc i ≠ .start → ver ≤ m.tomb
  covered : ∀ r ∈ m.table.lookup k, m.tomb ≠ 0 → r.ver ≤ m.tomb → ∃ i, m.Takes ops r.ver i
  landed : ∀ i o, ops[i]? = some o → o.value ≠ none → (∀ o' ∈ ops, o'.ver ≤ o.ver) →
    (m.pc i).past → ∃ r ∈ m.table.lookup k, r.ver = o.ver

section Step

variable {ops : List RemoteOp} {k : Key} {i : Nat} {m m' : Applier}

theorem Applier.Moved.pc_ne (hm : Moved ops k i m m') {j : Nat} (hj : j ≠ i) :
    m'.pc j = m.pc j := by
  cases hm <;> simp [*]

variable {r : Rec}

section

variable (hm : Moved ops k i m m')
include hm

/-- A record after the step was there before, or apply `i` has just stored it. -/
theorem Applier.Moved.record (hr : r ∈ m'.table.lookup k) :
    r ∈ m.table.lookup k ∨
      m'.pc i = .stored ∧ ∃ o, ops[i]? = some o ∧ o.ver = r.ver ∧ o.value = some r.val := by
  cases hm with
  | store x hop hpc hpc' hold hver hval hrec htomb =>
    rw [hrec, Option.mem_some_iff] at hr
    subst hr
    exact .inr ⟨by simp [hpc'], _, hop, hver.symm, by simp [RemoteOp.value, hval]⟩
  | takeBack rc hop hpc hpc' hrec htomb | del rc hop hpc hpc' hrec htomb =>
    rw [hrec] at hr
    exact .inl (Option.mem_filter_iff.mp hr).1
  | check _ _ _ hrec | older _ _ _ _ _ _ hrec | look _ _ _ hrec | plant _ _ _ hrec =>
    exact .inl (hrec ▸ hr)

theorem Applier.Moved.tomb : m'.tomb = m.tomb ∨
      ∃ ver, ops[i]? = some (.del ver) ∧ m'.pc i = .planted ∧ m'.tomb = max m.tomb ver := by
  cases hm with
  | plant hop hpc hpc' hrec htomb => exact .inr ⟨_, hop, by simp [hpc'], htomb⟩
  | check | store | older | look | takeBack | del => exact .inl ‹_›

theorem Applier.Moved.tomb_le : m.tomb ≤ m'.tomb := by
  rcases hm.tomb with htomb | ⟨ver, -, -, htomb⟩ <;> omega

/-- An apply other than `i` that is about to take a record still is. -/
theorem Applier.Moved.takes {j : Nat} (hj : j ≠ i) (h : m.Takes ops v j) : m'.Takes ops v j := by
  rwa [Takes, hm.pc_ne hj]

/-- The step of apply `i` takes the record it was about to take, or is about to still. -/
theorem Applier.Moved.takes_self (htomb0 : m.tomb ≠ 0) (hcov : r.ver ≤ m.tomb)
    (h : m.Takes ops r.ver i) (hr : r ∈ m'.table.lookup k) : m'.Takes ops r.ver i := by
  cases hm with
  | check hop hpc | store _ hop hpc | older _ hop hpc | plant hop hpc =>
    simp [Takes, hop, hpc] at h
  | look hop hpc hpc' hrec htomb =>
    simp only [Takes, hop, hpc] at h
    simp only [Takes, hop, hpc', update_self]
    exact ⟨htomb0, h ▸ hcov, hcov⟩
  | takeBack _ hop hpc _ hrec | del _ hop hpc _ hrec =>
    simp only [Takes, hop, hpc] at h
    rw [hrec] at hr
    have hkept := (Option.mem_filter_iff.mp hr).2
    simp only [decide_eq_true_eq] at hkept
    omega

theorem Applier.Moved.covered (h : m.Inv ops k) (hr : r ∈ m'.table.lookup k) (h0 : m'.tomb ≠ 0)
    (hcov : r.ver ≤ m'.tomb) : ∃ j, m'.Takes ops r.ver j := by
  rcases hm.record hr with hold | ⟨hpc, o, hop, hver, hval⟩
  · by_cases hbefore : m.tomb ≠ 0 ∧ r.ver ≤ m.tomb
    · obtain ⟨j, hj⟩ := h.covered r hold hbefore.1 hbefore.2
      refine ⟨j, ?_⟩
      by_cases hji : j = i
      · subst hji
        exact hm.takes_self hbefore.1 hbefore.2 hj hr
      · exact hm.takes hji hj
    · -- the tombstone that covers it has just been planted
      rcases hm.tomb with htomb | ⟨ver, hop, hpc, htomb⟩
      · exact absurd (htomb ▸ ⟨h0, hcov⟩) hbefore
      · refine ⟨i, ?_⟩
        simp only [Takes, hop, hpc]
        omega
  · refine ⟨i, ?_⟩
    cases o with
    | del ver => simp [RemoteOp.value] at hval
    | set v expires rflags ver => simpa [Takes, hop, hpc, RemoteOp.ver] using hver.symm

theorem Applier.Moved.looked {tv : Nat} (h : m'.pc i = .looked tv) : tv = m.tomb := by
  cases hm with
  | check hop hpc hpc' =>
    rw [hpc', update_self] at h
    split at h <;> cases h
  | look hop hpc hpc' =>
    rw [hpc', update_self] at h
    cases h
    rfl
  | store _ _ _ hpc' | older _ _ _ hpc' | takeBack _ _ _ hpc' | plant _ _ hpc' | del _ _ _ hpc' =>
    rw [hpc', update_self] at h
    cases h

/-- The tombstone is at or above the version of a delete that has begun. -/
theorem Applier.Moved.planted
    (h : ∀ ver, ops[i]? = some (.del ver) → m.pc i ≠ .start → ver ≤ m.tomb) {ver : Nat}
    (hop : ops[i]? = some (.del ver)) : ver ≤ m'.tomb := by
  cases hm with
  | plant hop' hpc hpc' hrec htomb =>
    cases hop.symm.trans hop'
    omega
  | del rc hop' hpc hpc' hrec htomb =>
    rw [htomb]
    exact h ver hop (by simp [hpc])
  | check hop' | store _ hop' | older _ hop' | look hop' | takeBack _ hop' =>
    cases hop.symm.trans hop'

/-- A record of the greatest version stays: what could take it away is of a lower one. -/
theorem Applier.Moved.stays (hr : r ∈ m.table.lookup k) (hmax : ∀ o ∈ ops, o.ver ≤ r.ver)
    (hdel : ∀ ver, .del ver ∈ ops → ver < r.ver)
    (hlooked : ∀ tv, m.pc i = .looked tv → tv = 0 ∨ .del tv ∈ ops) : r ∈ m'.table.lookup k := by
  cases hm with
  | store x hop hpc hpc' hold hver hval hrec htomb =>
    have hlt := hold r hr
    have hle := hmax _ (mem_of_getElem? hop)
    exact absurd hle (not_le.mpr hlt)
  | takeBack rc hop hpc hpc' hrec htomb =>
    rw [hrec]
    refine Option.mem_filter_iff.mpr ⟨hr, ?_⟩
    rcases hlooked _ hpc with h0 | hmem
    · simp [h0]
    · simp [hdel _ hmem]
  | del rc hop hpc hpc' hrec htomb =>
    rw [hrec]
    exact Option.mem_filter_iff.mpr ⟨hr, by simpa using hdel _ (mem_of_getElem? hop)⟩
  | check _ _ _ hrec | older _ _ _ _ _ _ hrec | look _ _ _ hrec | plant _ _ _ hrec =>
    exact hrec ▸ hr

end

end Step

section Taken

variable {k : Key} {T : Taken k} {i : Nat} {m m' : Applier}

variable {o : RemoteOp}

/-- A delete of a version at or above every other's is the only operation of its version. -/
theorem Taken.del_lt (T : Taken k) (ho : o ∈ T.ops) (hset : o.value ≠ none)
    (hmax : ∀ o' ∈ T.ops, o'.ver ≤ o.ver) {ver : Nat} (hdel : .del ver ∈ T.ops) : ver < o.ver := by
  refine lt_of_le_of_ne (hmax _ hdel) fun heq => ?_
  rw [← T.distinct _ hdel o ho heq] at hset
  exact hset rfl

section

variable (h : m.Inv T.ops k) (hm : Moved T.ops k i m m')
include h hm

theorem Applier.Inv.stays (ho : o ∈ T.ops) (hset : o.value ≠ none)
    (hmax : ∀ o' ∈ T.ops, o'.ver ≤ o.ver) (hland : ∃ r ∈ m.table.lookup k, r.ver = o.ver) :
    ∃ r ∈ m'.table.lookup k, r.ver = o.ver := by
  obtain ⟨r, hr, hver⟩ := hland
  refine ⟨r, hm.stays hr (hver ▸ hmax) (fun ver hdel => ?_) (h.looked i), hver⟩
  exact hver ▸ T.del_lt ho hset hmax hdel

/-- A set of the greatest version is in the table once apply `i` is past its store. -/
theorem Applier.Inv.lands (hop : T.ops[i]? = some o) (hset : o.value ≠ none)
    (hmax : ∀ o' ∈ T.ops, o'.ver ≤ o.ver) (hpast : (m'.pc i).past) :
    ∃ r ∈ m'.table.lookup k, r.ver = o.ver := by
  have ho := mem_of_getElem? hop
  by_cases hbefore : (m.pc i).past
  · exact h.stays hm ho hset hmax (h.landed i o hop hset hmax hbefore)
  · cases hm with
    | check hop' hpc hpc' hrec htomb =>
      cases hop.symm.trans hop'
      rw [hpc', update_self] at hpast
      split at hpast
      · -- refused: by a delete of a version no lower
        rename_i href
        simp only [refuse, decide_eq_true_eq] at href
        have hlt := T.del_lt ho hset hmax (h.tomb.resolve_left href.1)
        exact absurd href.2 (not_le.mpr hlt)
      · exact hpast.elim
    | store r hop' hpc hpc' hold hver hval hrec htomb =>
      cases hop.symm.trans hop'
      exact ⟨r, hrec, hver⟩
    | older old hop' hpc hpc' hold hver hrec htomb =>
      cases hop.symm.trans hop'
      obtain ⟨o', ho', hver', -⟩ := h.held old hold
      exact ⟨old, hrec ▸ hold, le_antisymm (hver' ▸ hmax o' ho') hver⟩
    | look _ hpc | takeBack _ _ hpc => exact absurd (by simp [hpc, ApplyPc.past]) hbefore
    | plant hop' | del _ hop' =>
      cases hop.symm.trans hop'
      exact absurd rfl hset

theorem Applier.Inv.moved : m'.Inv T.ops k where
  held r hr := by
    rcases hm.record hr with hold | ⟨-, o, hop, hver, hval⟩
    · exact h.held r hold
    · exact ⟨o, mem_of_getElem? hop, hver, hval⟩
  tomb := by
    rcases hm.tomb with htomb | ⟨ver, hop, -, htomb⟩
    · exact htomb ▸ h.tomb
    · rcases le_total m.tomb ver with hle | hle
      · exact .inr (by rw [htomb, max_eq_right hle]; exact mem_of_getElem? hop)
      · rw [htomb, max_eq_left hle]
        exact h.tomb
  looked j tv hj := by
    by_cases hji : j = i
    · subst hji
      exact hm.looked hj ▸ h.tomb
    · exact h.looked j tv (hm.pc_ne hji ▸ hj)
  planted j ver hop hj := by
    by_cases hji : j = i
    · subst hji
      exact hm.planted (h.planted j) hop
    · exact le_trans (h.planted j ver hop (hm.pc_ne hji ▸ hj)) hm.tomb_le
  covered r hr h0 hcov := hm.covered h hr h0 hcov
  landed j o hop hset hmax hpast := by
    by_cases hji : j = i
    · subst hji
      exact h.lands hm hop hset hmax hpast
    · exact h.stays hm (mem_of_getElem? hop) hset hmax
        (h.landed j o hop hset hmax (hm.pc_ne hji ▸ hpast))

end

theorem Applier.inv_start (T : Taken k) (ht : t.lookup k = none) (clock : Nat) :
    (start t clock).Inv T.ops k where
  held r hr := by simp [start, ht] at hr
  tomb := .inl rfl
  looked _ _ h := nomatch h
  planted _ _ _ h := absurd rfl h
  covered r hr := by simp [start, ht] at hr
  landed _ _ _ _ _ h := h.elim

theorem Applier.Inv.step (hA : ∀ n ≤ cellMax, A.alloc n = true) {a : Nat × Nat} (h : m.Inv T.ops k)
    (hstep : m.step A k T.ops a = some m') : m'.Inv T.ops k := by
  refine h.moved (step_moved hA T (fun tv hpc => ?_) hstep)
  rcases h.looked _ tv hpc with rfl | hdel
  · decide
  · exact T.below _ hdel

/-- **Once every apply has answered, the key is as the operation of the highest version has it.** -/
theorem Applier.Inv.value_eq (h : m.Inv T.ops k) (hfin : m.Finished T.ops) (ho : o ∈ T.ops)
    (hmax : ∀ o' ∈ T.ops, o'.ver ≤ o.ver) : m.value k = o.value := by
  obtain ⟨i, hop⟩ := List.getElem?_of_mem ho
  obtain ⟨rc, hdone⟩ := ApplyPc.eq_done (hfin i (List.getElem?_eq_some_iff.mp hop).1)
  cases hval : o.value with
  | some v =>
    -- a set: it landed, and the record of its version has its value
    obtain ⟨r, hr, hver⟩ := h.landed i o hop (by simp [hval]) hmax (by simp [hdone, ApplyPc.past])
    obtain ⟨o', ho', hver', hval'⟩ := h.held r hr
    cases T.distinct o' ho' o ho (hver'.trans hver)
    rw [value, Option.mem_def.mp hr, ← hval, hval', Option.map_some]
  | none =>
    -- a delete: a record would be under its tombstone, with no apply left to take it
    cases o with
    | set => cases hval
    | del ver =>
      have htomb := h.planted i ver hop (by simp [hdone])
      have h0 := T.versioned ver ho
      cases hl : m.table.lookup k with
      | none => simp [value, hl]
      | some r =>
        obtain ⟨o', ho', hver', -⟩ := h.held r hl
        have hle : r.ver ≤ ver := hver' ▸ hmax o' ho'
        obtain ⟨j, hj⟩ := h.covered r hl (by omega) (by omega)
        exact absurd (hfin j hj.lt_length) hj.not_done

/-- Without operations the key stays absent. -/
theorem Applier.Inv.value_nil (h : m.Inv T.ops k) (hnil : T.ops = []) : m.value k = none := by
  cases hl : m.table.lookup k with
  | none => simp [value, hl]
  | some r =>
    obtain ⟨o, ho, -⟩ := h.held r hl
    simp [hnil] at ho

theorem Applier.inv_run (hA : ∀ n ≤ cellMax, A.alloc n = true) (ht : t.lookup k = none)
    {as : List (Nat × Nat)}
    (hrun : run (step A k T.ops) (start t clock) as = some m) : m.Inv T.ops k := by
  have hok := along_true (step A k T.ops) (start t clock) as
  exact run_invariant (fun _ _ _ hI _ hs => hI.step hA hs) (inv_start T ht clock) hok hrun

end Taken

/-- **Two members that took the same operations of a key, in any orders, with any repeats and
through any interleavings, have the same value for it**: that of the operation of the greatest
version, none if it is a delete. -/
theorem members_agree {k : Key} (T₁ T₂ : Taken k) (hsame : ∀ o, o ∈ T₁.ops ↔ o ∈ T₂.ops)
    {A₁ A₂ : Arena} (hA₁ : ∀ n ≤ cellMax, A₁.alloc n = true)
    (hA₂ : ∀ n ≤ cellMax, A₂.alloc n = true) {t₁ t₂ : Table} (ht₁ : t₁.lookup k = none)
    (ht₂ : t₂.lookup k = none) (c₁ c₂ : Nat) (as₁ as₂ : List (Nat × Nat)) (m₁ m₂ : Applier)
    (hrun₁ : run (step A₁ k T₁.ops) (start t₁ c₁) as₁ = some m₁)
    (hrun₂ : run (step A₂ k T₂.ops) (start t₂ c₂) as₂ = some m₂)
    (hfin₁ : m₁.Finished T₁.ops) (hfin₂ : m₂.Finished T₂.ops) :
    m₁.value k = m₂.value k ∧
      ∀ o ∈ T₁.ops, (∀ o' ∈ T₁.ops, o'.ver ≤ o.ver) → m₁.value k = o.value := by
  have h₁ := inv_run hA₁ ht₁ hrun₁
  have h₂ := inv_run hA₂ ht₂ hrun₂
  refine ⟨?_, fun o ho hmax => h₁.value_eq hfin₁ ho hmax⟩
  by_cases hnil : T₁.ops = []
  · have hnil₂ : T₂.ops = [] :=
      eq_nil_iff_forall_not_mem.mpr fun o ho => by simp [← hsame, hnil] at ho
    rw [h₁.value_nil hnil, h₂.value_nil hnil₂]
  · obtain ⟨o, ho, hmax⟩ := Greatest.exists_greatest RemoteOp.ver hnil
    have hmax₂ : ∀ o' ∈ T₂.ops, o'.ver ≤ o.ver := fun o' ho' => hmax o' ((hsame o').mpr ho')
    rw [h₁.value_eq hfin₁ ho hmax, h₂.value_eq hfin₂ ((hsame o).mp ho) hmax₂]

/-- A set, a delete above it and a set above both, the delete taken twice. -/
def repeated : Taken [] where
  ops := [.set [] 0 0#8 5, .del 7, .set [1#8] 0 0#8 9, .del 7]
  distinct := by decide
  below := by decide
  versioned ver h := by simp_all
  storable := by decide

/-- The same operations once each, in another order. -/
def once : Taken [] where
  ops := [.set [1#8] 0 0#8 9, .set [] 0 0#8 5, .del 7]
  distinct := by decide
  below := by decide
  versioned ver h := by simp_all
  storable := by decide

/-- The delete runs between the lower set's check and its store. -/
def crossing : List (Nat × Nat) :=
  [(0, 0), (1, 0), (1, 0), (0, 0), (0, 0), (0, 0), (2, 0), (2, 0), (2, 0), (3, 0), (3, 0), (2, 0)]

def inOrder : List (Nat × Nat) :=
  [(0, 0), (0, 0), (0, 0), (0, 0), (1, 0), (1, 0), (2, 0), (2, 0)]

theorem members_agree_crossing : ∃ m₁ m₂,
      run (step vastArena [] repeated.ops) (start ∅ 0) crossing = some m₁ ∧
      run (step vastArena [] once.ops) (start ∅ 0) inOrder = some m₂ ∧
      m₁.pc 0 = .done .taken ∧ m₁.value [] = m₂.value [] := by
  have hA : ∀ n ≤ cellMax, vastArena.alloc n = true := fun _ _ => rfl
  have ht : (∅ : Table).lookup [] = none := rfl
  have hto : ∀ o ∈ repeated.ops, o ∈ once.ops := by decide
  have hfrom : ∀ o ∈ once.ops, o ∈ repeated.ops := by decide
  have hsame : ∀ o, o ∈ repeated.ops ↔ o ∈ once.ops := fun o => ⟨hto o, hfrom o⟩
  exact ⟨_, _, rfl, rfl, by decide, (members_agree repeated once hsame hA hA ht ht 0 0 crossing
    inOrder _ _ rfl rfl (by decide) (by decide)).1⟩

end Perfcached.Clorder
