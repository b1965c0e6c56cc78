import Perfcached.Recover.Cell

/-!
# Perfcached.Recover.Order

Replay by version, not by file order.

Two workers' records of one key can stand in the log in the opposite order to their
versions. `replay_order_iff` says for which records of a key every order in the log
gives back what rising version order gives: those whose newest record is a SET or a
DELETE. A touch that is the newest is lost where it comes first, before the record it
re-armed.
-/

namespace Perfcached.Recover

open Bytes Wal List Option

/-- What a replay leaves of a key: version, value and expiry. -/
def keyState (st : ReplaySt) (col key : List Byte) : Option (Nat × List Byte × Nat) :=
  (cellOf st col key).held.map fun r => (r.ver, r.val, r.expires)

/-- A versioned record of this key, above the marker, whose deadline has not passed. -/
structure KeyRec (env : ReplayEnv) (marker : Nat) (col key : List Byte) (r : WalRec) : Prop where
  logged : WellLogged r
  col : r.col = col
  key : r.key = key
  seq : marker < r.seq
  op : ∃ op, recOp r = some op ∧ 0 < op.ver ∧ op.Unexpired env.ticks env.nowWall

def recVer (r : WalRec) : Nat := ((recOp r).map KeyOp.ver).getD 0

def isTouch (r : WalRec) : Prop := ∃ ver wall, recOp r = some (.touch ver wall)

/-- Every touch was issued while the key was present; `present` says whether it was
before the first record. -/
def TouchesPresent : Bool → List WalRec → Prop
  | _, [] => True
  | present, r :: rs =>
    match recOp r with
    | some (.set _ _ _ _) => TouchesPresent true rs
    | some (.del _) => TouchesPresent false rs
    | some (.touch _ _) => present = true ∧ TouchesPresent present rs
    | none => TouchesPresent present rs

section Order

variable {env : ReplayEnv} {col key : List Byte} {st : ReplaySt}

def regOps (env : ReplayEnv) (log : List WalRec) : List (Register.Op (List Byte × Nat)) :=
  log.filterMap fun r => (recOp r).map (opOf env.ticks env.nowWall)

variable {log : List WalRec}

open Register

/-- A replay of a key's records is a run of its register. -/
theorem keyState_replay (hA : ∀ n ≤ cellMax, env.arena.alloc n = true) (hnul : 0#8 ∉ col)
    (hs : HasSlot st.reg col) (hfresh : cellOf st col key = ⟨none, 0⟩)
    (hlog : ∀ r ∈ log, KeyRec env st.marker col key r) :
    keyState (replay env st log) col key =
      (run Reg.empty (regOps env log)).cell := by
  have hops : log.filterMap (keyOp st.marker col key) = log.filterMap recOp := by
    refine filterMap_congr fun r hr => ?_
    have h := hlog r hr
    simp [keyOp, h.col, h.key, h.seq]
  have hmem : ∀ op ∈ log.filterMap recOp, op.Unexpired env.ticks env.nowWall := by
    intro op hop
    obtain ⟨r, hr, he⟩ := mem_filterMap.mp hop
    obtain ⟨op', he', -, hun⟩ := (hlog r hr).op
    rw [he] at he'
    cases he'
    exact hun
  have hcell := cellOf_replay hA key hnul hs (fun r hr => (hlog r hr).logged) (fun r hr _ _ => by
    obtain ⟨op, he, -⟩ := (hlog r hr).op
    rw [he]
    rfl)
  rw [hops, hfresh] at hcell
  obtain ⟨hrun, -⟩ := regOf_foldl_cellStep env.ticks env.nowWall (s := ⟨none, 0⟩)
    (by rintro r ⟨⟩) hmem
  rw [← hcell, map_filterMap] at hrun
  exact congrArg Reg.cell hrun

variable {r : WalRec}

theorem KeyRec.exists_op {marker : Nat} (h : KeyRec env marker col key r) :
    ∃ op, recOp r = some op ∧ op.ver = recVer r ∧ 0 < recVer r := by
  obtain ⟨op, he, hpos, -⟩ := h.op
  refine ⟨op, he, ?_, ?_⟩ <;> simp [recVer, he, hpos]

theorem mem_regOps {o : Op (List Byte × Nat)} (h : o ∈ regOps env log) :
    ∃ r ∈ log, ∃ op, recOp r = some op ∧ o = opOf env.ticks env.nowWall op ∧ o.ver = recVer r := by
  obtain ⟨r, hr, he⟩ := mem_filterMap.mp h
  obtain ⟨op, hop, rfl⟩ := map_eq_some_iff.mp he
  exact ⟨r, hr, op, hop, rfl, by simp [recVer, hop]⟩

/-- The newest record decides, wherever it stands, if it is no touch. -/
theorem run_regOps_newest {marker : Nat} (hr : r ∈ log) (hk : KeyRec env marker col key r)
    (hnew : ∀ r' ∈ log, recVer r' < recVer r ∨ r' = r) (hnt : ¬ isTouch r) :
    (run Reg.empty (regOps env log)).cell =
      match recOp r with
      | some (.set ver val wall _) => some (ver, val, wallToTicks env.ticks env.nowWall wall)
      | _ => none := by
  obtain ⟨op, hop, hver, hpos⟩ := hk.exists_op
  have hmem : opOf env.ticks env.nowWall op ∈ regOps env log :=
    mem_filterMap.mpr ⟨r, hr, by rw [hop]; rfl⟩
  have htop : ∀ o ∈ regOps env log, o.ver < op.ver ∨ o = opOf env.ticks env.nowWall op := by
    intro o ho
    obtain ⟨r', hr', op', hop', rfl, hv⟩ := mem_regOps ho
    rcases hnew r' hr' with hlt | rfl
    · exact .inl (by rw [hv, hver]; exact hlt)
    · rw [hop] at hop'
      cases hop'
      exact .inr rfl
  have hbelow := below_empty (α := List Byte × Nat) (hver ▸ hpos : 0 < op.ver)
  cases op with
  | set ver val wall flags =>
    rw [hop]
    exact run_top_put hbelow hmem htop
  | del ver =>
    rw [hop]
    exact run_top_del hbelow hmem htop
  | touch ver wall => exact absurd ⟨ver, wall, hop⟩ hnt

theorem pairwise_regOps (env : ReplayEnv) {recs : List WalRec}
    (hrise : recs.Pairwise fun r r' => recVer r < recVer r') :
    (regOps env recs).Pairwise fun o o' => o.ver < o'.ver := by
  refine Pairwise.filterMap _ ?_ hrise
  intro r r' hlt o ho o' ho'
  obtain ⟨op, hop, rfl⟩ := map_eq_some_iff.mp ho
  obtain ⟨op', hop', rfl⟩ := map_eq_some_iff.mp ho'
  simpa [recVer, hop, hop'] using hlt

/-- Before a touch, in version order, the key is present. -/
theorem present_before_touch (env : ReplayEnv) {init : List WalRec} (hr : isTouch r)
    {c : Option (List Byte × Nat)} (h : TouchesPresent c.isSome (init ++ [r])) :
    ((regOps env init).foldl apply c).isSome := by
  induction init generalizing c with
  | nil =>
    obtain ⟨ver, wall, hop⟩ := hr
    simp only [nil_append, TouchesPresent, hop] at h
    exact h.1
  | cons r' init ih =>
    simp only [cons_append, TouchesPresent] at h
    rw [regOps, filterMap_cons]
    cases hop : recOp r' with
    | none =>
      rw [hop] at h
      exact ih h
    | some op =>
      rw [hop] at h
      cases op with
      | set ver val wall flags => exact ih (c := some _) h
      | del ver => exact ih (c := none) h
      | touch ver wall =>
        obtain ⟨hp, h⟩ := h
        refine ih (c := c.map _) ?_
        rw [isSome_map]
        exact h

/-- **Replay goes by version** for exactly those records of a key whose newest is no
touch: every order in the log then leaves the value, expiry and version that rising
version order leaves. -/
theorem replay_order_iff (hA : ∀ n ≤ cellMax, env.arena.alloc n = true) (hnul : 0#8 ∉ col)
    (hs : HasSlot st.reg col) (hfresh : cellOf st col key = ⟨none, 0⟩) {recs : List WalRec}
    (hrecs : ∀ r ∈ recs, KeyRec env st.marker col key r)
    (hrise : recs.Pairwise fun r r' => recVer r < recVer r')
    (htouch : TouchesPresent false recs) :
    (∀ log : List WalRec, log.Perm recs →
      keyState (replay env st log) col key = keyState (replay env st recs) col key) ↔
    ∀ r, recs.getLast? = some r → ¬ isTouch r := by
  constructor
  · rintro hall r hlast ⟨ver, wall, hop⟩
    obtain ⟨init, rfl⟩ := getLast?_eq_some_iff.mp hlast
    have hkey := fun r' (h : r' ∈ init) => hrecs r' (mem_append_left _ h)
    have hlt : ∀ r' ∈ init, recVer r' < recVer r := fun r' h =>
      (pairwise_append.mp hrise).2.2 r' h r (mem_singleton_self r)
    have hver : recVer r = ver := by simp [recVer, hop, KeyOp.ver]
    have hpos : 0 < ver := by
      obtain ⟨op, hop', hpos, -⟩ := (hrecs r (by simp)).op
      rw [hop] at hop'
      cases hop'
      exact hpos
    -- the touch first in the log: it finds no record
    have hfirst := hall (r :: init) (perm_append_singleton r init).symm
    rw [keyState_replay hA hnul hs hfresh (fun r' h => hrecs r' (by
        rcases mem_cons.mp h with rfl | h
        · simp
        · exact mem_append_left _ h)),
      keyState_replay hA hnul hs hfresh hrecs] at hfirst
    have hops : regOps env (r :: init) =
        opOf env.ticks env.nowWall (.touch ver wall) :: regOps env init := by
      rw [regOps, filterMap_cons, hop]
      rfl
    have hops' : regOps env (init ++ [r]) =
        regOps env init ++ [opOf env.ticks env.nowWall (.touch ver wall)] := by
      rw [regOps, filterMap_append, filterMap_cons, hop]
      rfl
    rw [hops, hops', opOf] at hfirst
    -- what is there before the touch is older than it
    have hbelow : Below (run Reg.empty (regOps env init)) ver := by
      refine run_below (below_empty hpos) fun o ho => ?_
      obtain ⟨r', hr', -, -, -, hv⟩ := mem_regOps ho
      rw [hv, ← hver]
      exact hlt r' hr'
    have hrun := run_rising (s := Reg.empty) (fun o ho => by
        obtain ⟨r', hr', op, hop', -, hv⟩ := mem_regOps ho
        obtain ⟨_, _, -, hp⟩ := (hkey r' hr').exists_op
        exact below_empty (hv ▸ hp))
      (pairwise_regOps env (pairwise_append.mp hrise).1)
    have hpresent : (run Reg.empty (regOps env init)).cell.isSome := by
      rw [← isSome_map, hrun]
      exact present_before_touch env (c := none) ⟨ver, wall, hop⟩ htouch
    exact run_touch_first_ne_last hbelow hpresent hfirst
  · intro hlast log hperm
    rcases eq_nil_or_concat' recs with rfl | ⟨init, r, rfl⟩
    · rw [perm_nil.mp hperm]
    · have hkr := hrecs r (by simp)
      have hnew : ∀ r' ∈ init ++ [r], recVer r' < recVer r ∨ r' = r := by
        intro r' h
        rcases mem_append.mp h with h | h
        · exact .inl ((pairwise_append.mp hrise).2.2 r' h r (mem_singleton_self r))
        · exact .inr (mem_singleton.mp h)
      have hnt := hlast r (by simp)
      rw [keyState_replay hA hnul hs hfresh (fun r' h => hrecs r' (hperm.mem_iff.mp h)),
        keyState_replay hA hnul hs hfresh hrecs,
        run_regOps_newest (hperm.mem_iff.mpr (by simp)) hkr
          (fun r' h => hnew r' (hperm.mem_iff.mp h)) hnt,
        run_regOps_newest (by simp) hkr hnew hnt]

end Order

/-- A replay ten ticks into the process, with room for every record. -/
def replayAt : ReplayEnv where
  arena := vastArena
  ticks := 10
  nowWall := 1700000000
  ackNew := fun _ _ => true
  rename := fun reg _ _ => reg
  drop := fun reg _ => reg
  noteDrop := fun reg _ => reg
  create := fun reg _ _ => reg

/-- One durable, empty collection, and no snapshot. -/
def emptyStore : ReplaySt where
  reg := [⟨[0x63#8], true, true, ∅, none⟩]
  clock := 0
  tombs := ∅
  acks := []
  rdbOk := false
  marker := 0
  lastSeq := 0
  verHigh := 0
  applied := 0
  older := 0
  skipped := 0
  skippedCache := 0
  belowMarker := 0
  ackReplayed := 0
  unkPending := 0
  unknown := 0
  unknownCovered := 0
  unknownType := 0

/-- A SET at version 1, an EXPIRE at version 2, and a DELETE at version 3. -/
def setRec : WalRec := ⟨4, [0x63#8], [0x6B#8], [0x61#8], 0, 1, 1, 0#8⟩

@[inherit_doc setRec]
def touchRec : WalRec := ⟨5, [0x63#8], [0x6B#8], [], 1700000100, 2, 2, 0#8⟩

@[inherit_doc setRec]
def delRec : WalRec := ⟨2, [0x63#8], [0x6B#8], leBytes 8 3, 0, 3, 0, 0#8⟩

/-- The EXPIRE before its SET in the log: it is lost. -/
theorem replay_touch_before_set : [touchRec, setRec].Perm [setRec, touchRec] ∧
      keyState (replay replayAt emptyStore [setRec, touchRec]) [0x63#8] [0x6B#8] =
        some (2, [0x61#8], 110) ∧
      keyState (replay replayAt emptyStore [touchRec, setRec]) [0x63#8] [0x6B#8] =
        some (1, [0x61#8], 0) := by
  refine ⟨Perm.swap _ _ _, by decide, by decide⟩

theorem setTouchDel_keyRec :
    ∀ r ∈ [setRec, touchRec, delRec], KeyRec replayAt 0 [0x63#8] [0x6B#8] r := by
  simp only [forall_mem_cons, not_mem_nil, false_implies, implies_true, and_true]
  refine ⟨⟨⟨fun t ht => ?_, by decide, by decide, by decide⟩, rfl, rfl, by decide,
      .set 1 [0x61#8] 0 0#8, rfl, by decide, by decide⟩,
    ⟨⟨fun t ht => ?_, by decide, by decide, by decide⟩, rfl, rfl, by decide,
      .touch 2 1700000100, rfl, by decide, by decide⟩,
    ⟨⟨fun t ht => ?_, by decide, by decide, by decide⟩, rfl, rfl, by decide,
      .del 3, rfl, by decide, by decide⟩⟩
  all_goals
    cases ht
    decide

/-- A SET, a touch and a DELETE, with the newest first. -/
theorem replay_order_set_touch_del :
    keyState (replay replayAt emptyStore [delRec, touchRec, setRec]) [0x63#8] [0x6B#8] =
      keyState (replay replayAt emptyStore [setRec, touchRec, delRec]) [0x63#8] [0x6B#8] := by
  have htouch : TouchesPresent false [setRec, touchRec, delRec] :=
    show true = true ∧ True from ⟨rfl, trivial⟩
  refine (replay_order_iff (fun _ _ => rfl) (show 0#8 ∉ [0x63#8] by decide)
    ⟨0, _, rfl, rfl, rfl⟩ rfl setTouchDel_keyRec (by decide) htouch).mpr ?_ _
    (reverse_perm [setRec, touchRec, delRec])
  rintro r hlast ⟨ver, wall, hop⟩
  obtain rfl : delRec = r := some.inj hlast
  cases hop

end Perfcached.Recover
