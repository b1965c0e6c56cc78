import Perfcached.Recover.Cell
import Perfcached.Recover.RoundTrip

/-!
# Perfcached.Recover.Reload

A whole recovery, seen from one key.

`pc_recover` loads the snapshot, if there is one, and replays the log over it.
`Reload.cell` says what that makes of a key: its cell starts with the snapshot's record
of it (`snapRec`), and moves by the steps of its own records above the marker.
-/

namespace Perfcached.Recover

open Bytes Rdb Wal List Option

/-- A completed snapshot: the clocks and the contents it was saved with. -/
structure Snapshot where
  sv : SaveEnv
  cs : List Collection

def Snapshot.file (s : Snapshot) : List Byte := snapshotFile s.sv s.cs

/-- The log sequence a recovery skips up to: 0 without a snapshot. -/
def snapMarker (snap : Option Snapshot) : Nat := (snap.map fun s => s.sv.lastSeq % 2 ^ 64).getD 0

/-- The wall-clock second of the save: 0 without a snapshot. -/
def snapWall (snap : Option Snapshot) : Nat := (snap.map fun s => s.sv.nowWall).getD 0

def snapRec (snap : Option Snapshot) (col : List Byte) (key : Key) : Option FileRec :=
  snap.bind fun s => ((savedCollections s.cs).find? fun c => c.name == col).bind fun c =>
    (current s.sv.nowTicks c key).map (savedRec (walkClock s.sv) key)

def snapCell (env : ReplayEnv) (snap : Option Snapshot) (col : List Byte) (key : Key) : Cell where
  held := (snapRec snap col key).bind (loaded env.ticks env.nowWall)
  tomb := 0

/-- The snapshot can be loaded: one the store can make, read whole, and the same
collections are there. -/
structure Snapshot.Loadable (s : Snapshot) (ρ : Int) (reg : List Collection) : Prop where
  contents : WellFormed s.sv s.cs
  read : s.file.length ≤ readMax ∧ (s.file.length : Int) ≤ ρ
  present : ∀ c ∈ savedCollections s.cs, HasSlot reg c.name

/-- A recovery into an empty store, within one tick, with memory for every record. -/
structure Reload (env : ReplayEnv) (clk : LoadClock) (ρ : Int) (snap : Option Snapshot)
    (reg : List Collection) (log : List WalRec) : Prop where
  arena : Roomy env.arena
  wall : clk.nowWall = env.nowWall
  tick : ∀ j, clk.tick j = env.ticks
  empty : ∀ col k, lookupIn reg col k = none
  snapshot : ∀ s, snap = some s → s.Loadable ρ reg
  logged : ∀ r ∈ log, WellLogged r

section Reload

variable {env : ReplayEnv} {clk : LoadClock} {ρ : Int} {snap : Option Snapshot}
  {reg : List Collection} {log : List WalRec}

theorem Reload.load (h : Reload env clk ρ snap reg log) (clock : Nat) :
    ∃ st₀ : ReplaySt,
      pcRecover env clk ρ (snap.map Snapshot.file) reg clock log = some (replay env st₀ log) ∧
      st₀.marker = snapMarker snap ∧ st₀.reg.map shape = reg.map shape ∧
      ∀ col key, cellOf st₀ col key = snapCell env snap col key := by
  cases snap with
  | none =>
    refine ⟨afterLoad 1 (loadStart reg clock), rfl, rfl, rfl, fun col key => ?_⟩
    rw [cellOf, show (afterLoad 1 (loadStart reg clock)).reg = reg from rfl, h.empty]
    rfl
  | some s =>
    obtain ⟨hwf, hread, hpresent⟩ := h.snapshot s rfl
    unfold Snapshot.file at hread
    have hempty : ∀ c ∈ savedCollections s.cs, ∀ k, lookupIn reg c.name k = none :=
      fun c _ k => h.empty c.name k
    have hload := rdbLoad_collections clk h.arena hwf (loadStart reg clock) hpresent hempty ρ
    rw [if_pos hread] at hload
    have hloads := loadable_saved h.arena hwf (loadStart reg clock) hpresent hempty
    have hlook := fun c hc => foldl_loadCollection_lookup (c := c) clk hloads hc
    have hother := foldl_loadCollection_others clk hloads
    obtain ⟨hshape, hmarker⟩ := foldl_loadCollection_shape clk hloads
    generalize foldl _ _ _ = ls at hload hlook hother hshape hmarker
    refine ⟨afterLoad 0 ls, ?_, hmarker, hshape, fun col key => ?_⟩
    · rw [map_some, pcRecover, Snapshot.file, hload]
      rfl
    · rw [cellOf, show (afterLoad 0 ls).reg = ls.reg from rfl, snapCell]
      refine congrArg (Cell.mk · 0) ?_
      rw [snapRec, bind_some]
      cases hf : (savedCollections s.cs).find? fun c => c.name == col with
      | none =>
        rw [hother col (fun c hc => ?_) key]
        · exact h.empty col key
        · rintro rfl
          exact absurd (find?_eq_none.mp hf c hc) (by simp)
      | some c =>
        have hname : c.name = col := by simpa using find?_some hf
        obtain ⟨j, hj⟩ := hlook c (mem_of_find?_eq_some hf) key
        rw [← hname, hj, h.wall, h.tick, bind_some, bind_map]
        rfl

/-- **A recovery, seen from one key**: its cell starts with the snapshot's record, and
moves by the key's own records of the log that lie above the marker. -/
theorem Reload.cell (h : Reload env clk ρ snap reg log) (clock : Nat) :
    ∃ st, pcRecover env clk ρ (snap.map Snapshot.file) reg clock log = some st ∧
      ∀ col key, 0#8 ∉ col → HasSlot reg col →
        (∀ r ∈ log, r.col = col → r.key = key → (recOp r).isSome) →
        cellOf st col key = (log.filterMap (keyOp (snapMarker snap) col key)).foldl
          (cellStep env.ticks env.nowWall) (snapCell env snap col key) := by
  obtain ⟨st₀, hrec, hmarker, hshape, hcell⟩ := h.load clock
  refine ⟨_, hrec, fun col key hnul hslot hver => ?_⟩
  rw [cellOf_replay h.arena key hnul (hslot.congr hshape.symm) h.logged hver, hmarker, hcell]

end Reload

end Perfcached.Recover
