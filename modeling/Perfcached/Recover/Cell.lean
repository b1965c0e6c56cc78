import Perfcached.Lib.Register
import Perfcached.Recover.Replay

/-!
# Perfcached.Recover.Cell

A replay, seen from one key.

`KeyOp` is a versioned SET, touch or DELETE of a key, `keyOp` recognises the records
of the log that are one, and `cellStep` is what such a record does to the key's
record and tombstone. `cellOf_replay` is the connection: a replay of a whole log, in
which the records of any number of collections and keys are mixed, moves each key's
cell by the steps of its own records.

`regOf_cellStep` goes one level up: while nothing is expired, a cell is a versioned
register of `Lib.Register`.
-/

namespace Perfcached.Recover

open Bytes Wal List Option

/-- A versioned operation on a key. -/
inductive KeyOp
  | set (ver : Nat) (val : List Byte) (wall : Nat) (flags : Byte)
  | touch (ver wall : Nat)
  | del (ver : Nat)
  deriving DecidableEq

def KeyOp.ver : KeyOp → Nat
  | set v _ _ _ => v
  | touch v _ => v
  | del v => v

/-- A key's record and tombstone. -/
structure Cell where
  held : Option Rec
  tomb : Nat

/-- A delete at a version. -/
def Cell.kill (ticks : Nat) (s : Cell) (ver : Nat) : Cell where
  held := if s.held.any (fun r => !r.expired ticks && ver ≤ r.ver) then s.held else none
  tomb := max s.tomb ver

/-- What a replayed operation does to the key's cell. -/
def cellStep (ticks nowWall : Nat) (s : Cell) : KeyOp → Cell
  | .set ver val wall flags =>
    let exp := wallToTicks ticks nowWall wall
    if exp = 1 then s
    else if ver ≤ s.tomb then s
    else
      match s.held with
      | some old =>
        if ver ≤ old.ver then s
        else { s with held := some ⟨val, exp, flags &&& fCarry ||| shortenedFl ticks old exp,
                                    ver⟩ }
      | none => { s with held := some ⟨val, exp, flags &&& fCarry, ver⟩ }
  | .touch ver wall =>
    let exp := wallToTicks ticks nowWall wall
    if exp = 1 then s.kill ticks ver
    else
      match s.held with
      | some r =>
        if !r.expired ticks && ver ≤ r.ver then s
        else { s with held := some { r with rflags := r.rflags ||| shortenedFl ticks r exp,
                                            expires := exp, ver } }
      | none => s
  | .del ver => s.kill ticks ver

/-- The record of the log, if it is a versioned operation. -/
def recOp (r : WalRec) : Option KeyOp :=
  match RecType.ofCode r.type with
  | some .upsertV => if r.ver ≠ 0 then some (.set r.ver r.val r.wall r.flags) else none
  | some .touchV => if r.ver ≠ 0 then some (.touch r.ver r.wall) else none
  | some .del => if r.val.length = delVerLen then some (.del (rd 8 r.val)) else none
  | some .delN => if r.val.length = delNVLen then some (.del (rd 8 r.val)) else none
  | _ => none

/-- The operation of the log's record on this key of this collection, where the record
is above the snapshot's marker. -/
def keyOp (marker : Nat) (col key : List Byte) (r : WalRec) : Option KeyOp :=
  if r.col = col ∧ r.key = key ∧ marker < r.seq then recOp r else none

def cellOf (st : ReplaySt) (col key : List Byte) : Cell where
  held := lookupIn st.reg col key
  tomb := tombGet st.tombs (tombKey col key)

/-! ### One record, in its own table -/

theorem tombGet_note (tombs : Tombs) (tk tk' : List Byte) (ver : Nat) :
    tombGet (tombNote tombs tk ver) tk' =
      if tk' = tk then max (tombGet tombs tk) ver else tombGet tombs tk' := by
  unfold tombNote tombGet
  by_cases hk : tk' = tk
  · subst hk
    cases h : tombs.lookup tk' with
    | none => simp
    | some v =>
      by_cases hv : v < ver
      · simp [hv, Nat.max_eq_right hv.le]
      · simp [hv, h, Nat.max_eq_left (Nat.le_of_not_lt hv)]
  · cases h : tombs.lookup tk with
    | none => simp [hk, AList.lookup_insert_ne hk]
    | some v =>
      by_cases hv : v < ver
      · simp [hv, hk, AList.lookup_insert_ne hk]
      · simp [hv, hk]

variable {col : List Byte}

/-- A name has no NUL, so a tombstone's key is that of one collection and key. -/
theorem tombKey_inj {col' key key' : List Byte} (h : 0#8 ∉ col) (h' : 0#8 ∉ col')
    (he : tombKey col key = tombKey col' key') : col = col' ∧ key = key' := by
  unfold tombKey at he
  induction col generalizing col' with
  | nil =>
    cases col' with
    | nil => simpa using he
    | cons b bs =>
      simp only [nil_append, cons_append, cons.injEq] at he
      exact absurd (he.1 ▸ mem_cons_self) h'
  | cons a as ih =>
    cases col' with
    | nil =>
      simp only [nil_append, cons_append, cons.injEq] at he
      exact absurd (he.1 ▸ mem_cons_self) h
    | cons b bs =>
      simp only [cons_append, cons.injEq] at he
      obtain ⟨rfl, hk⟩ := ih (fun hm => h (mem_cons_of_mem _ hm))
        (fun hm => h' (mem_cons_of_mem _ hm)) he.2
      exact ⟨by rw [he.1], hk⟩

def Path.cell (s : Path) (col key : List Byte) : Cell where
  held := s.table.lookup key
  tomb := tombGet s.tombs (tombKey col key)

theorem htGetver_any (ticks : Nat) (t : Table) (k : Key) (ver : Nat) :
    (htGetver ticks t k).any (ver ≤ ·) =
      (t.lookup k).any fun r => !r.expired ticks && decide (ver ≤ r.ver) := by
  unfold htGetver
  cases t.lookup k with
  | none => rfl
  | some r => cases h : r.expired ticks <;> simp [h]

theorem replayDelete_cell (env : ReplayEnv) (s : Path) (r : WalRec) (ver : Nat) :
    (replayDelete env s r ver).1.cell r.col r.key = (s.cell r.col r.key).kill env.ticks ver := by
  unfold replayDelete Cell.kill Path.cell
  simp only [htGetver_any]
  split
  · simp [tombGet_note]
  · simp [tombGet_note, htRemove]

variable {env : ReplayEnv} {r : WalRec}

theorem replayUpsert_cell (hA : ∀ n ≤ cellMax, env.arena.alloc n = true) (s : Path)
    (hst : Storable r.key r.val) (hver : r.ver ≠ 0) :
    (replayUpsert env s r (wallToTicks env.ticks env.nowWall r.wall)).cell r.col r.key =
      cellStep env.ticks env.nowWall (s.cell r.col r.key) (.set r.ver r.val r.wall r.flags) := by
  simp only [cellStep, replayUpsert, if_pos hver]
  generalize wallToTicks env.ticks env.nowWall r.wall = exp
  by_cases hexp : exp = 1
  · rw [if_pos hexp, if_pos hexp]
    rfl
  rw [if_neg hexp, if_neg hexp]
  by_cases htomb : r.ver ≤ tombGet s.tombs (tombKey r.col r.key)
  · rw [if_pos htomb, if_pos (show r.ver ≤ (s.cell r.col r.key).tomb from htomb)]
    rfl
  rw [if_neg htomb, if_neg (show ¬ r.ver ≤ (s.cell r.col r.key).tomb from htomb),
    htStoreVer_roomy hst (hA _ hst.size)]
  generalize lamportObserve s.clock r.ver = clock
  simp only [Path.cell]
  cases hold : s.table.lookup r.key with
  | none => simp
  | some old =>
    by_cases hv : r.ver ≤ old.ver
    · simp [hv, hold]
    · simp [hv]

theorem replayTouch_cell (s : Path) (hver : r.ver ≠ 0) :
    (replayTouch env s r (wallToTicks env.ticks env.nowWall r.wall)).cell r.col r.key =
      cellStep env.ticks env.nowWall (s.cell r.col r.key) (.touch r.ver r.wall) := by
  simp only [cellStep, replayTouch]
  generalize wallToTicks env.ticks env.nowWall r.wall = exp
  by_cases hexp : exp = 1
  · rw [if_pos ⟨hexp, hver⟩, if_pos hexp, ← replayDelete_cell]
    split
    · next h => rw [h]
    · next h => rw [h]; rfl
  · rw [if_neg (fun h => hexp h.1), if_neg hexp, if_neg hexp, htGetver_any]
    unfold htTouch Path.cell
    cases hold : s.table.lookup r.key with
    | none => simp [hold]
    | some old =>
      by_cases hv : (!old.expired env.ticks && decide (r.ver ≤ old.ver)) = true
      · simp only [any_some, hv, hver, ne_eq, not_false_eq_true, and_self, if_true, hold]
      · simp [hv, hver, lookup_htSetver]

theorem replayDel_cell (env : ReplayEnv) (s : Path) {t : RecType}
    (hlen : r.val.length = delVerLen ∨ t = .delN ∧ r.val.length = delNVLen) :
    (replayDel env s t r).cell r.col r.key =
      cellStep env.ticks env.nowWall (s.cell r.col r.key) (.del (rd 8 r.val)) := by
  rw [replayDel, if_neg (by tauto), cellStep, ← replayDelete_cell]
  simp only
  split
  · next h => rw [h]
  · next h => rw [h]; rfl

variable {op : KeyOp}

/-- A record does its operation to the cell of its key. -/
theorem replayRecord_cell (hA : ∀ n ≤ cellMax, env.arena.alloc n = true) (s : Path) {t : RecType}
    (ht : RecType.ofCode r.type = some t) (hst : Storable r.key r.val) (hop : recOp r = some op) :
    (replayRecord env s t r).cell r.col r.key =
      cellStep env.ticks env.nowWall (s.cell r.col r.key) op := by
  unfold recOp at hop
  rw [ht] at hop
  cases t with
  | upsertV =>
    obtain ⟨hver, ⟨⟩⟩ := ite_none_right_eq_some.mp hop
    exact replayUpsert_cell hA s hst hver
  | touchV =>
    obtain ⟨hver, ⟨⟩⟩ := ite_none_right_eq_some.mp hop
    exact replayTouch_cell s hver
  | del =>
    obtain ⟨hlen, ⟨⟩⟩ := ite_none_right_eq_some.mp hop
    exact replayDel_cell env s (.inl hlen)
  | delN =>
    obtain ⟨hlen, ⟨⟩⟩ := ite_none_right_eq_some.mp hop
    exact replayDel_cell env s (.inr ⟨rfl, hlen⟩)
  | _ => cases hop

/-! ### The other keys -/

/-- A path step that leaves another key's record and tombstone alone. -/
structure Path.Keeps (s s' : Path) (r : WalRec) : Prop where
  table : ∀ key, key ≠ r.key → s'.table.lookup key = s.table.lookup key
  tombs : ∀ tk, tk ≠ tombKey r.col r.key → tombGet s'.tombs tk = tombGet s.tombs tk

section

variable (env : ReplayEnv)

section

variable (s : Path) (r : WalRec)

theorem replayDelete_keeps (ver : Nat) : s.Keeps (replayDelete env s r ver).1 r := by
  unfold replayDelete
  simp only
  split
  · exact ⟨fun _ _ => rfl, fun tk h => by rw [tombGet_note, if_neg h]⟩
  · exact ⟨fun key h => lookup_htRemove_ne h s.clock _, fun tk h => by rw [tombGet_note, if_neg h]⟩

theorem replayUpsert_keeps (exp : Nat) : s.Keeps (replayUpsert env s r exp) r := by
  have hstore : ∀ (inver : Option Nat) key, key ≠ r.key →
      (storeBody env.arena env.ticks s.clock s.table r.key r.val exp (r.flags &&& fCarry)
        inver).2.1.lookup key = s.table.lookup key :=
    fun inver key h => lookup_storeBody_ne h _ _ _ _ _ _ _ _
  unfold replayUpsert htStoreVer htStoreEx
  split
  · exact ⟨fun _ _ => rfl, fun _ _ => rfl⟩
  · split
    · split
      · exact ⟨fun _ _ => rfl, fun _ _ => rfl⟩
      · split
        · next h => exact ⟨fun key hk => by simpa [h] using hstore (some r.ver) key hk,
            fun _ _ => rfl⟩
        · next h =>
          refine ⟨fun key hk => ?_, fun _ _ => rfl⟩
          rw [lookup_htDropOlder_ne hk]
          simpa [h] using hstore (some r.ver) key hk
        all_goals next h => exact ⟨fun key hk => by simpa [h] using hstore (some r.ver) key hk,
            fun _ _ => rfl⟩
    · split
      · next h =>
        refine ⟨fun key hk => ?_, fun _ _ => rfl⟩
        rw [lookup_htSetver_ne hk]
        simpa [h] using hstore none key hk
      · next h => exact ⟨fun key hk => by simpa [h] using hstore none key hk, fun _ _ => rfl⟩

theorem replayTouch_keeps (exp : Nat) : s.Keeps (replayTouch env s r exp) r := by
  have htouch : ∀ key, key ≠ r.key →
      (htTouch env.ticks s.clock s.table r.key exp).2.1.lookup key = s.table.lookup key :=
    fun key h => lookup_htTouch_ne h _ _ _ _
  have hdel := replayDelete_keeps env s r r.ver
  unfold replayTouch
  split
  · split
    · next h => rw [h] at hdel; exact hdel
    · next h => rw [h] at hdel; exact ⟨hdel.table, hdel.tombs⟩
  · split
    · exact ⟨fun key h => lookup_htRemove_ne h s.clock _, fun _ _ => rfl⟩
    · split
      · exact ⟨fun _ _ => rfl, fun _ _ => rfl⟩
      · split
        · next h =>
          split
          · refine ⟨fun key hk => ?_, fun _ _ => rfl⟩
            rw [lookup_htSetver_ne hk]
            simpa [h] using htouch key hk
          · exact ⟨fun key hk => by simpa [h] using htouch key hk, fun _ _ => rfl⟩
        · next h => exact ⟨fun key hk => by simpa [h] using htouch key hk, fun _ _ => rfl⟩

end

theorem replayDel_keeps (s : Path) (t : RecType) (r : WalRec) :
    s.Keeps (replayDel env s t r) r := by
  have hdel := replayDelete_keeps env s r (rd 8 r.val)
  unfold replayDel
  split
  · exact ⟨fun key h => lookup_htRemove_ne h s.clock _, fun _ _ => rfl⟩
  · simp only
    split
    · next h => rw [h] at hdel; exact hdel
    · next h => rw [h] at hdel; exact ⟨hdel.table, hdel.tombs⟩

/-- It leaves the other keys alone. -/
theorem replayRecord_keeps (s : Path) (t : RecType) (r : WalRec) :
    s.Keeps (replayRecord env s t r) r := by
  cases t with
  | upsert | upsertV => exact replayUpsert_keeps env s r _
  | del | delN => exact replayDel_keeps env s _ r
  | touch | touchV => exact replayTouch_keeps env s r _
  | _ => exact ⟨fun _ _ => rfl, fun _ _ => rfl⟩

/-! ### One record, in the whole store -/

section

variable (st : ReplaySt) (t : RecType) (r : WalRec)

@[simp] theorem replayNote_reg : (replayNote env st t r).reg = st.reg := by
  simp only [replayNote]
  split <;> split <;> try split
  all_goals rfl

@[simp] theorem replayNote_tombs : (replayNote env st t r).tombs = st.tombs := by
  simp only [replayNote]
  split <;> split <;> try split
  all_goals rfl

@[simp] theorem replayNote_marker : (replayNote env st t r).marker = st.marker := by
  simp only [replayNote]
  split <;> split <;> try split
  all_goals rfl

end

end

/-- The record is not one of the collection set's own. -/
def IsData (r : WalRec) : Prop :=
  ∀ t, RecType.ofCode r.type = some t → t ≠ .colRename ∧ t ≠ .colDrop ∧ t ≠ .colCreate

/-- What one record leaves: the set of collections, and every cell but its own. -/
structure Replayed (env : ReplayEnv) (st st' : ReplaySt) (r : WalRec) : Prop where
  shape : st'.reg.map shape = st.reg.map shape
  marker : st'.marker = st.marker
  others : ∀ col key, 0#8 ∉ col → r.col ≠ col ∨ r.key ≠ key → cellOf st' col key = cellOf st col key

variable {st : ReplaySt} {i : Nat} {c : Collection}

section

variable (hfind : storeFind st.reg col = some i) (hslot : st.reg[i]? = some c)
include hfind hslot

theorem path_cell (key : List Byte) : (st.path c.table).cell col key = cellOf st col key := by
  simp [Path.cell, ReplaySt.path, cellOf, lookupIn, hfind, hslot]

theorem cellOf_put_own (s : Path) (key : List Byte) :
    cellOf (st.put i c s) col key = s.cell col key := by
  rw [cellOf, Path.cell, ReplaySt.put]
  simp only [(lookupIn_set hfind hslot s.table).1]

end

theorem cellOf_put_other {col' : List Byte} (hfind : storeFind st.reg col = some i)
    (hslot : st.reg[i]? = some c) (s : Path) (hne : col' ≠ col) (key : List Byte) :
    cellOf (st.put i c s) col' key =
      ⟨lookupIn st.reg col' key, tombGet s.tombs (tombKey col' key)⟩ := by
  rw [cellOf, ReplaySt.put]
  simp only [(lookupIn_set hfind hslot s.table).2 col' key hne]

/-- The cells after a record that reached its table. -/
theorem cellOf_put_keeps (hfind : storeFind st.reg r.col = some i) (hslot : st.reg[i]? = some c)
    (hcol : 0#8 ∉ r.col) (t : RecType) {key : List Byte} (hnul : 0#8 ∉ col)
    (hne : r.col ≠ col ∨ r.key ≠ key) :
    cellOf (st.put i c (replayRecord env (st.path c.table) t r)) col key = cellOf st col key := by
  have hk := replayRecord_keeps env (st.path c.table) t r
  have htomb : tombGet (replayRecord env (st.path c.table) t r).tombs (tombKey col key) =
      tombGet st.tombs (tombKey col key) := by
    refine hk.tombs _ fun he => ?_
    obtain ⟨rfl, rfl⟩ := tombKey_inj hnul hcol he
    simp at hne
  by_cases hc : col = r.col
  · subst hc
    have hkey : key ≠ r.key := by
      rintro rfl
      simp at hne
    rw [cellOf_put_own hfind hslot, ← path_cell hfind hslot, Path.cell, Path.cell, htomb,
      hk.table key hkey]
    rfl
  · rw [cellOf_put_other hfind hslot _ hc, htomb, cellOf]

theorem replayCb_replayed (env : ReplayEnv) (st : ReplaySt) (hd : IsData r) (hcol : 0#8 ∉ r.col) :
    Replayed env st (replayCb env st r) r := by
  unfold replayCb
  split
  · exact ⟨rfl, rfl, fun _ _ _ _ => rfl⟩
  · next t ht =>
    obtain ⟨h1, h2, h3⟩ := hd t ht
    have hcell : ∀ col key, cellOf (replayNote env st t r) col key = cellOf st col key := by
      intro col key
      simp [cellOf]
    simp only
    split
    · exact ⟨by simp, by simp, fun col key _ _ => hcell col key⟩
    · rw [if_neg (by tauto)]
      split
      · exact ⟨by simp, by simp, fun col key _ _ => hcell col key⟩
      · next i c hslot =>
        obtain ⟨i, hfind, hi⟩ := bind_eq_some_iff.mp hslot
        obtain ⟨c, hc, he⟩ := map_eq_some_iff.mp hi
        cases he
        split
        · exact ⟨by simp, by simp, fun col key _ _ => hcell col key⟩
        · refine ⟨?_, by simp [ReplaySt.put], fun col key hnul hne => ?_⟩
          · rw [ReplaySt.put, shape_set hc, replayNote_reg]
          · rw [cellOf_put_keeps hfind hc hcol t hnul hne, hcell]

/-- **One record, from its own key**: above the marker, in a durable collection, it
takes the key's cell one step. -/
theorem cellOf_replayCb (hA : ∀ n ≤ cellMax, env.arena.alloc n = true) (hs : HasSlot st.reg r.col)
    (hseq : st.marker < r.seq) (hst : Storable r.key r.val) (hop : recOp r = some op) :
    cellOf (replayCb env st r) r.col r.key =
      cellStep env.ticks env.nowWall (cellOf st r.col r.key) op := by
  obtain ⟨i, c, hfind, hslot, hd⟩ := hs
  unfold replayCb
  split
  · next ht => simp [recOp, ht] at hop
  · next t ht =>
    have hdata : t ≠ .colRename ∧ t ≠ .colDrop ∧ t ≠ .colCreate := by
      refine ⟨?_, ?_, ?_⟩ <;> rintro rfl <;> simp [recOp, ht] at hop
    have hfind' : storeFind (replayNote env st t r).reg r.col = some i := by simpa using hfind
    have hslot' : (replayNote env st t r).reg[i]? = some c := by simpa using hslot
    have hcell : cellOf (replayNote env st t r) r.col r.key = cellOf st r.col r.key := by
      simp [cellOf]
    simp only [replayNote_marker, if_neg (not_le.mpr hseq)]
    rw [if_neg (by tauto)]
    simp only [hfind', hslot', bind_some, map_some, hd, Bool.not_true, Bool.false_eq_true, if_false]
    rw [cellOf_put_own hfind' hslot', replayRecord_cell hA _ ht hst hop, path_cell hfind' hslot',
      hcell]

/-- A record at or below the marker changes no cell. -/
theorem cellOf_replayCb_below (env : ReplayEnv) (hseq : r.seq ≤ st.marker) (col key : List Byte) :
    cellOf (replayCb env st r) col key = cellOf st col key := by
  unfold replayCb
  split
  · rfl
  · simp only [replayNote_marker, if_pos hseq]
    simp [cellOf]

/-- What a log must be for its records to reach their tables: no record of the
collection set itself, sizes the store accepts, names without a NUL. -/
structure WellLogged (r : WalRec) : Prop where
  data : IsData r
  col : 0#8 ∉ r.col
  size : Storable r.key r.val

/-- **A replay, seen from one key**: whatever else the log holds, the key's cell moves
by the steps of its own records above the marker. -/
theorem cellOf_replay (hA : ∀ n ≤ cellMax, env.arena.alloc n = true) (key : List Byte)
    (hnul : 0#8 ∉ col) {log : List WalRec} (hs : HasSlot st.reg col)
    (hlog : ∀ r ∈ log, WellLogged r)
    (hver : ∀ r ∈ log, r.col = col → r.key = key → (recOp r).isSome) :
    cellOf (replay env st log) col key =
      (log.filterMap (keyOp st.marker col key)).foldl (cellStep env.ticks env.nowWall)
        (cellOf st col key) := by
  induction log generalizing st with
  | nil => rfl
  | cons r log ih =>
    have hr := hlog r mem_cons_self
    have hrep := replayCb_replayed env st hr.data hr.col
    have hrest := @ih (replayCb env st r) (hs.congr hrep.shape.symm)
      (fun r' h => hlog r' (mem_cons_of_mem _ h))
      (fun r' h => hver r' (mem_cons_of_mem _ h))
    rw [replay, foldl_cons]
    change cellOf (replay env (replayCb env st r) log) col key = _
    rw [hrest, hrep.marker]
    by_cases hmine : r.col = col ∧ r.key = key ∧ st.marker < r.seq
    · obtain ⟨rfl, rfl, hseq⟩ := hmine
      obtain ⟨op, hop⟩ := isSome_iff_exists.mp (hver r mem_cons_self rfl rfl)
      rw [cellOf_replayCb hA hs hseq hr.size hop, filterMap_cons_some
        (show keyOp st.marker r.col r.key r = some op by simp [keyOp, hop, hseq])]
      rfl
    · rw [filterMap_cons_none
        (show keyOp st.marker col key r = none by simp only [keyOp, if_neg hmine])]
      by_cases hseq : st.marker < r.seq
      · rw [hrep.others col key hnul (by tauto)]
      · rw [cellOf_replayCb_below env (not_lt.mp hseq)]

/-! ### The cell as a versioned register -/

open Register in
/-- The register a cell is: value and deadline, under the version. -/
def regOf (s : Cell) : Reg (List Byte × Nat) where
  cell := s.held.map fun r => (r.ver, r.val, r.expires)
  tomb := s.tomb

open Register in
/-- The register write a replayed operation is. -/
def opOf (ticks nowWall : Nat) : KeyOp → Op (List Byte × Nat)
  | .set ver val wall _ => .put ver (val, wallToTicks ticks nowWall wall)
  | .touch ver wall => .touch ver fun a => (a.1, wallToTicks ticks nowWall wall)
  | .del ver => .del ver

@[simp] theorem opOf_ver (ticks nowWall : Nat) (op : KeyOp) :
    (opOf ticks nowWall op).ver = op.ver := by
  cases op <;> rfl

/-- The operation's deadline is not one that has passed. -/
def KeyOp.Unexpired (ticks nowWall : Nat) : KeyOp → Prop
  | set _ _ wall _ =>
    wallToTicks ticks nowWall wall ≠ 1 ∧
      (wallToTicks ticks nowWall wall = 0 ∨ ticks < wallToTicks ticks nowWall wall)
  | touch _ wall =>
    wallToTicks ticks nowWall wall ≠ 1 ∧
      (wallToTicks ticks nowWall wall = 0 ∨ ticks < wallToTicks ticks nowWall wall)
  | del _ => True

instance (ticks nowWall : Nat) (op : KeyOp) : Decidable (op.Unexpired ticks nowWall) := by
  unfold KeyOp.Unexpired
  split <;> infer_instance

/-- The key's record is one a reader sees. -/
def Cell.Alive (ticks : Nat) (s : Cell) : Prop :=
  ∀ r, s.held = some r → r.expired ticks = false

variable {ticks : Nat}

theorem not_expired_of {exp : Nat} (h : exp = 0 ∨ ticks < exp) (r : Rec) (hr : r.expires = exp) :
    r.expired ticks = false := by
  unfold Rec.expired
  rw [hr]
  rcases h with rfl | h
  · rfl
  · simp [not_le.mpr h]

variable {s : Cell}

open Register

theorem kill_alive (h : s.Alive ticks) (ver : Nat) :
    regOf (s.kill ticks ver) = step (regOf s) (.del ver) ∧
      (s.kill ticks ver).Alive ticks := by
  cases hh : s.held with
  | none => exact ⟨by simp [regOf, Cell.kill, step, hh],
      fun r hr => by simp [Cell.kill, hh] at hr⟩
  | some r =>
    have hr := h r hh
    by_cases hv : ver ≤ r.ver
    · refine ⟨by simp [regOf, Cell.kill, step, hh, hr, hv], fun r' hr' => ?_⟩
      simp only [Cell.kill, hh, hr, hv, any_some] at hr'
      exact h r' (hh.trans hr')
    · refine ⟨by simp [regOf, Cell.kill, step, hh, hr, hv], fun r' hr' => ?_⟩
      simp [Cell.kill, hh, hv] at hr'

/-- **While nothing is expired, a cell is a versioned register.** -/
theorem regOf_cellStep {nowWall : Nat} (h : s.Alive ticks) (hop : op.Unexpired ticks nowWall) :
    regOf (cellStep ticks nowWall s op) = step (regOf s) (opOf ticks nowWall op) ∧
      (cellStep ticks nowWall s op).Alive ticks := by
  cases op with
  | del ver => exact kill_alive h ver
  | set ver val wall flags =>
    obtain ⟨hne, hlive⟩ := hop
    simp only [cellStep, opOf]
    generalize wallToTicks ticks nowWall wall = exp at hne hlive ⊢
    rw [if_neg hne]
    by_cases ht : ver ≤ s.tomb
    · rw [if_pos ht]
      exact ⟨by simp [step, regOf, ht], h⟩
    · rw [if_neg ht]
      cases hh : s.held with
      | none =>
        refine ⟨by simp [step, regOf, hh, ht], ?_⟩
        rintro r ⟨⟩
        exact not_expired_of hlive _ rfl
      | some old =>
        by_cases hv : ver ≤ old.ver
        · simp only [if_pos hv]
          exact ⟨by simp [step, regOf, hh, hv], h⟩
        · simp only [if_neg hv]
          refine ⟨by simp [step, regOf, hh, ht, hv], ?_⟩
          rintro r ⟨⟩
          exact not_expired_of hlive _ rfl
  | touch ver wall =>
    obtain ⟨hne, hlive⟩ := hop
    simp only [cellStep, opOf]
    generalize wallToTicks ticks nowWall wall = exp at hne hlive ⊢
    rw [if_neg hne]
    cases hh : s.held with
    | none => exact ⟨by simp [step, regOf, hh], h⟩
    | some r =>
      have hr := h r hh
      by_cases hv : ver ≤ r.ver
      · simp only [hr, hv, Bool.not_false, decide_true, Bool.and_self, if_true]
        exact ⟨by simp [step, regOf, hh, hv], h⟩
      · simp only [hr, hv, Bool.not_false, decide_false, Bool.and_false, Bool.false_eq_true,
          if_false]
        refine ⟨by simp [step, regOf, hh, hv], ?_⟩
        rintro r' ⟨⟩
        exact not_expired_of hlive _ rfl

/-- The whole run of a key's operations, as a run of the register. -/
theorem regOf_foldl_cellStep (ticks nowWall : Nat) {ops : List KeyOp} (h : s.Alive ticks)
    (hops : ∀ op ∈ ops, op.Unexpired ticks nowWall) :
    regOf (ops.foldl (cellStep ticks nowWall) s) =
      run (regOf s) (ops.map (opOf ticks nowWall)) ∧
      (ops.foldl (cellStep ticks nowWall) s).Alive ticks := by
  induction ops generalizing s with
  | nil => exact ⟨rfl, h⟩
  | cons op ops ih =>
    obtain ⟨hreg, halive⟩ := regOf_cellStep h (hops op mem_cons_self)
    obtain ⟨hrun, hfin⟩ := ih halive (fun o ho => hops o (mem_cons_of_mem _ ho))
    refine ⟨?_, hfin⟩
    rw [foldl_cons, hrun, hreg, map_cons, run_cons]

end Perfcached.Recover
