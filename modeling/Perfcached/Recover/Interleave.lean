import Mathlib
import Perfcached.Lib.Greatest
import Perfcached.Lib.Machine
import Perfcached.Recover.History

/-!
# Perfcached.Recover.Interleave

A snapshot taken under load.

Workers commit writes of a key in rising version order, under its lock, and only
afterwards stamp a log sequence and publish the record; meanwhile the snapshot thread
reads the marker, the newest sequence stamped, and then walks the keys one by one. `Sys`
is the machine of these steps. A crash may come at any moment: recovery then has the
newest completed snapshot and the log, its records in any order.

`snapshot_under_load` says what recovery leaves of a key: what its commits had left in
memory up to a point behind which none was stamped, so all of it where every commit of the
key was stamped. It holds for the runs in which the marker is never read while a SET waits
to be stamped that is older than a write of its key stamped already (`MarkOrdered`):
`replay_cb` passes a record below the marker by without remembering it, and where a later
DELETE has emptied the copy, such a SET lies above the marker with nothing to hold it back.
-/

namespace Perfcached.Recover

open Bytes Rdb Wal List Option Nat

/-- A key, with its collection. -/
abbrev Name := List Byte × Key

/-- A committed write. -/
structure Commit where
  name : Name
  op : KeyOp
  deriving DecidableEq

/-- A snapshot, in progress or completed: the marker, and the copies of the keys
walked. -/
structure Cut where
  marker : Nat
  copies : List (Name × Option Held)

/-- The copy of a key; a key that was not there has none. -/
def Cut.copy (w : Cut) (k : Name) : Option Held := (w.copies.lookup k).getD none

/-- The workers, the log and the snapshot thread. -/
structure Sys where
  /-- Every commit, in order. -/
  hist : List Commit
  /-- The commits not stamped yet. -/
  unlogged : List Commit
  seq : Nat
  /-- The records stamped, with their sequences. -/
  log : List (Nat × Commit)
  walk : Option Cut
  file : Option Cut

def Sys.ops (s : Sys) (k : Name) : List KeyOp :=
  (s.hist.filter fun c => c.name = k).map Commit.op

def Sys.mem (s : Sys) (k : Name) : Option Held := memory (s.ops k)

/-- A step of a worker or of the snapshot thread. -/
inductive Act
  | commit (c : Commit)
  | stamp (i : Nat)
  | mark
  | copy (k : Name)
  | finish

instance : DecidablePred KeyOp.IsTouch
  | .touch .. => isTrue trivial
  | .set .. | .del _ => isFalse id

/-- One step. A walk is finished when every key that is in memory was copied. -/
def sysStep (s : Sys) : Act → Option Sys
  | .commit c =>
    if ¬ c.op.IsTouch ∧ 0 < c.op.ver ∧ ∀ o ∈ s.ops c.name, o.ver < c.op.ver then
      some { s with hist := s.hist ++ [c], unlogged := s.unlogged ++ [c] }
    else none
  | .stamp i =>
    s.unlogged[i]?.map fun c =>
      { s with
        unlogged := s.unlogged.eraseIdx i
        seq := s.seq + 1
        log := s.log ++ [(s.seq + 1, c)] }
  | .mark => if s.walk.isNone then some { s with walk := some ⟨s.seq, []⟩ } else none
  | .copy k =>
    s.walk.bind fun w =>
      if (w.copies.lookup k).isNone then
        some { s with walk := some { w with copies := (k, s.mem k) :: w.copies } }
      else none
  | .finish =>
    s.walk.bind fun w =>
      if ∀ c ∈ s.hist, (w.copies.lookup c.name).isNone → (s.mem c.name).isNone then
        some { s with walk := none, file := some w }
      else none

def Sys.init : Sys := ⟨[], [], 0, [], none, none⟩

def KeyOp.IsSet : KeyOp → Prop
  | set _ _ _ _ => True
  | _ => False

instance : DecidablePred KeyOp.IsSet
  | .set .. => isTrue trivial
  | .touch .. | .del _ => isFalse id

/-- When the marker is read, no SET waits to be stamped that is older than a write of its
key that was stamped. -/
def MarkOrdered (s : Sys) : Act → Prop
  | .mark => ∀ e ∈ s.log, ∀ c ∈ s.unlogged, c.name = e.2.name → c.op.IsSet →
      e.2.op.ver < c.op.ver
  | _ => True

instance (s : Sys) : DecidablePred (MarkOrdered s) := fun a => by
  unfold MarkOrdered
  split <;> infer_instance

/-! ### What holds in every run -/

/-- The copy of a key is what a first part of its commits left, which contains all that
were stamped up to the marker. -/
def Covers (s : Sys) (m : Nat) (k : Name) (h : Option Held) : Prop :=
  ∃ p q, s.ops k = p ++ q ∧ h = memory p ∧ ∀ e ∈ s.log, e.2.name = k → e.1 ≤ m → e.2.op ∈ p

/-- A SET that is not stamped up to the marker is newer than the writes of its key that are. -/
def CutOrdered (s : Sys) (m : Nat) : Prop :=
  ∀ e ∈ s.log, e.1 ≤ m → ∀ c, c.name = e.2.name → c.op.IsSet →
    (c ∈ s.unlogged ∨ ∃ n, m < n ∧ (n, c) ∈ s.log) → e.2.op.ver < c.op.ver

/-- The invariant of the machine. -/
structure Sys.Inv (s : Sys) : Prop where
  writes : ∀ c ∈ s.hist, ¬ c.op.IsTouch ∧ 0 < c.op.ver
  rising : ∀ k, (s.ops k).Pairwise fun o o' => o.ver < o'.ver
  parts : s.hist.Perm (s.unlogged ++ s.log.map Prod.snd)
  seqs : ∀ e ∈ s.log, 0 < e.1 ∧ e.1 ≤ s.seq
  walk : ∀ w, s.walk = some w → w.marker ≤ s.seq ∧ CutOrdered s w.marker ∧
    ∀ k h, w.copies.lookup k = some h → Covers s w.marker k h
  file : ∀ w, s.file = some w → w.marker ≤ s.seq ∧ CutOrdered s w.marker ∧
    ∀ k, Covers s w.marker k (w.copy k)

variable {s : Sys} {k : Name}

open Sys

theorem Sys.mem_ops {o : KeyOp} : o ∈ s.ops k ↔ ⟨k, o⟩ ∈ s.hist := by
  simp only [ops, List.mem_map, List.mem_filter, decide_eq_true_eq]
  constructor
  · rintro ⟨c, ⟨hc, rfl⟩, rfl⟩
    exact hc
  · intro h
    exact ⟨_, ⟨h, rfl⟩, rfl⟩

/-- A stamped write is one of its key's commits. -/
theorem Sys.Inv.logged (h : s.Inv) {e : Nat × Commit} (he : e ∈ s.log) : e.2.op ∈ s.ops e.2.name :=
  mem_ops.mpr (h.parts.mem_iff.mpr (mem_append_right _ (mem_map_of_mem he)))

variable {m : Nat}

section Commit

variable {s : Sys} {c : Commit}

def Sys.commit (s : Sys) (c : Commit) : Sys :=
  { s with hist := s.hist ++ [c], unlogged := s.unlogged ++ [c] }

theorem Sys.ops_commit (s : Sys) (c : Commit) (k : Name) :
    (s.commit c).ops k = s.ops k ++ if c.name = k then [c.op] else [] := by
  simp only [ops, commit, filter_append, map_append]
  by_cases h : c.name = k <;> simp [h]

theorem Covers.commit {h : Option Held} (hc : Covers s m k h) : Covers (s.commit c) m k h := by
  obtain ⟨p, q, hops, hmem, hlog⟩ := hc
  refine ⟨p, q ++ if c.name = k then [c.op] else [], ?_, hmem, hlog⟩
  rw [ops_commit, hops, append_assoc]

theorem CutOrdered.commit (ho : CutOrdered s m) (hs : s.Inv)
    (hnew : ∀ o ∈ s.ops c.name, o.ver < c.op.ver) : CutOrdered (s.commit c) m := by
  intro e he hm c' hname hset hwhere
  rcases hwhere with hun | hlog
  · rcases mem_append.mp hun with hun | hun
    · exact ho e he hm c' hname hset (.inl hun)
    · -- the new commit is newer than every other of its key
      rw [mem_singleton] at hun
      subst hun
      exact hnew e.2.op (hname ▸ hs.logged he)
  · exact ho e he hm c' hname hset (.inr hlog)

theorem Sys.Inv.commit (h : s.Inv) (hw : ¬ c.op.IsTouch) (hpos : 0 < c.op.ver)
    (hnew : ∀ o ∈ s.ops c.name, o.ver < c.op.ver) : (s.commit c).Inv where
  writes := by
    intro c' hc'
    rcases mem_append.mp hc' with hc' | hc'
    · exact h.writes c' hc'
    · rw [mem_singleton.mp hc']
      exact ⟨hw, hpos⟩
  rising := by
    intro k
    rw [Sys.ops_commit]
    split
    · next hk =>
      subst hk
      rw [pairwise_append]
      refine ⟨h.rising _, pairwise_singleton _ _, fun o ho o' ho' => ?_⟩
      rw [mem_singleton.mp ho']
      exact hnew o ho
    · rw [append_nil]
      exact h.rising k
  parts := by
    refine (h.parts.append_right [c]).trans ?_
    simp only [Sys.commit, append_assoc]
    exact perm_append_comm.append_left s.unlogged
  seqs := h.seqs
  walk := by
    intro w hwalk
    obtain ⟨hm, ho, hk⟩ := h.walk w hwalk
    exact ⟨hm, ho.commit h hnew, fun k h' hl => (hk k h' hl).commit⟩
  file := by
    intro w hfile
    obtain ⟨hm, ho, hk⟩ := h.file w hfile
    exact ⟨hm, ho.commit h hnew, fun k => (hk k).commit⟩

end Commit

section Stamp

variable {s : Sys} {i : Nat} {c : Commit}

/-- The machine after the stamping of a commit. -/
def Sys.stamp (s : Sys) (i : Nat) (c : Commit) : Sys :=
  { s with
    unlogged := s.unlogged.eraseIdx i
    seq := s.seq + 1
    log := s.log ++ [(s.seq + 1, c)] }

theorem Covers.stamp {h : Option Held} (hc : Covers s m k h) (hm : m ≤ s.seq) :
    Covers (s.stamp i c) m k h := by
  obtain ⟨p, q, hops, hmem, hlog⟩ := hc
  refine ⟨p, q, hops, hmem, fun e he hk hle => ?_⟩
  rcases mem_append.mp he with he | he
  · exact hlog e he hk hle
  · rw [mem_singleton] at he
    subst he
    simp only at hle
    omega

theorem CutOrdered.stamp (ho : CutOrdered s m) (hm : m ≤ s.seq) (hi : s.unlogged[i]? = some c) :
    CutOrdered (s.stamp i c) m := by
  intro e he hle c' hname hset hwhere
  rcases mem_append.mp he with he | he
  · refine ho e he hle c' hname hset ?_
    rcases hwhere with hun | ⟨n, hn, hlog⟩
    · exact .inl (mem_of_mem_eraseIdx hun)
    · rcases mem_append.mp hlog with hlog | hlog
      · exact .inr ⟨n, hn, hlog⟩
      · cases mem_singleton.mp hlog
        exact .inl (mem_of_getElem? hi)
  · rw [mem_singleton] at he
    subst he
    simp only at hle
    omega

theorem Sys.Inv.stamp (h : s.Inv) (hi : s.unlogged[i]? = some c) : (s.stamp i c).Inv where
  writes := h.writes
  rising := h.rising
  parts := by
    obtain ⟨hlt, rfl⟩ := List.getElem?_eq_some_iff.mp hi
    have herase := getElem_cons_eraseIdx_perm hlt
    refine h.parts.trans ((herase.symm.append_right _).trans ?_)
    simp only [stamp, map_append, map_cons, map_nil]
    rw [← append_assoc]
    exact @perm_append_comm _ [_] _
  seqs := by
    intro e he
    rcases mem_append.mp he with he | he
    · obtain ⟨h0, hle⟩ := h.seqs e he
      exact ⟨h0, le_succ_of_le hle⟩
    · rw [mem_singleton.mp he]
      exact ⟨succ_pos _, le_rfl⟩
  walk := by
    intro w hwalk
    obtain ⟨hm, ho, hk⟩ := h.walk w hwalk
    exact ⟨le_succ_of_le hm, ho.stamp hm hi, fun k h' hl => (hk k h' hl).stamp hm⟩
  file := by
    intro w hfile
    obtain ⟨hm, ho, hk⟩ := h.file w hfile
    exact ⟨le_succ_of_le hm, ho.stamp hm hi, fun k => (hk k).stamp hm⟩

end Stamp

/-- A copy taken now holds every commit of the key. -/
theorem Sys.Inv.covers_now (h : s.Inv) (m : Nat) (k : Name) : Covers s m k (s.mem k) :=
  ⟨s.ops k, [], (append_nil _).symm, rfl, fun _ he hk _ => hk ▸ h.logged he⟩

/-- **One step keeps the invariant**, where the marker is read in order. -/
theorem Sys.Inv.step {s' : Sys} {a : Act} (h : s.Inv) (hok : MarkOrdered s a)
    (hs : sysStep s a = some s') : s'.Inv := by
  cases a with
  | commit c =>
    obtain ⟨hc, ⟨⟩⟩ := ite_none_right_eq_some.mp hs
    exact h.commit hc.1 hc.2.1 hc.2.2
  | stamp i =>
    obtain ⟨c, hi, rfl⟩ := map_eq_some_iff.mp hs
    exact h.stamp hi
  | mark =>
    obtain ⟨-, ⟨⟩⟩ := ite_none_right_eq_some.mp hs
    refine { h with walk := ?_ }
    rintro w ⟨⟩
    refine ⟨le_rfl, ?_, by simp⟩
    intro e he hm c hname hset hwhere
    rcases hwhere with hun | ⟨n, hn, hlog⟩
    · exact hok e he c hun hname hset
    · exact absurd (h.seqs _ hlog).2 (not_le.mpr hn)
  | copy k =>
    obtain ⟨w, hw, hs⟩ := bind_eq_some_iff.mp hs
    obtain ⟨hm, ho, hk⟩ := h.walk w hw
    obtain ⟨-, ⟨⟩⟩ := ite_none_right_eq_some.mp hs
    refine { h with walk := ?_ }
    rintro w' ⟨⟩
    refine ⟨hm, ho, fun k' h' hl => ?_⟩
    simp only [lookup_cons] at hl
    split at hl
    · next heq =>
      cases hl
      rw [beq_iff_eq.mp heq]
      exact h.covers_now w.marker k
    · exact hk k' h' hl
  | finish =>
    obtain ⟨w, hw, hs⟩ := bind_eq_some_iff.mp hs
    obtain ⟨hm, ho, hk⟩ := h.walk w hw
    obtain ⟨hall, ⟨⟩⟩ := ite_none_right_eq_some.mp hs
    refine { h with walk := nofun, file := ?_ }
    rintro w' ⟨⟩
    refine ⟨hm, ho, fun k => ?_⟩
    cases hl : w.copies.lookup k with
    | some h' =>
      rw [Cut.copy, hl]
      exact hk k h' hl
    | none =>
      -- not walked: it is not there
      have hnone : s.mem k = none := by
        by_cases hin : ∃ c ∈ s.hist, c.name = k
        · obtain ⟨c, hc, rfl⟩ := hin
          exact isNone_iff_eq_none.mp (hall c hc (by rw [hl]; rfl))
        · have : s.ops k = [] := by
            rw [ops, filter_eq_nil_iff.mpr, map_nil]
            intro c hc
            simpa using fun hn => hin ⟨c, hc, hn⟩
          rw [mem, this]
          rfl
      have := h.covers_now w.marker k
      rw [hnone] at this
      rw [Cut.copy, hl]
      exact this

theorem Sys.init_inv : init.Inv where
  writes := nofun
  rising := fun _ => Pairwise.nil
  parts := Perm.refl _
  seqs := nofun
  walk := nofun
  file := nofun

/-! ### What a replay makes of one key's commits -/

/-- A key in the register's terms: version, value and deadline. -/
def Held.view (env : ReplayEnv) (h : Held) : Nat × List Byte × Nat :=
  (h.ver, h.val, wallToTicks env.ticks env.nowWall h.wall)

/-- The copy of a key, as the register a replay starts with. -/
def copyReg (env : ReplayEnv) (h : Option Held) : Register.Reg (List Byte × Nat) :=
  ⟨h.map (Held.view env), 0⟩

section Key

variable {H p q R : List KeyOp} {r : KeyOp}

/-- The commits up to one of them, and those behind it. -/
theorem cut_at (hrise : H.Pairwise fun o o' => o.ver < o'.ver) (hr : r ∈ H) :
    ∃ p q, H = p ++ [r] ++ q ∧ ∀ o ∈ q, r.ver < o.ver := by
  obtain ⟨p, q, rfl⟩ := append_of_mem hr
  have hrq := (pairwise_append.mp hrise).2.1
  rw [pairwise_cons] at hrq
  exact ⟨p, q, by simp, hrq.1⟩

/-- Commits of one key with the same version are the same. -/
theorem eq_of_ver (hrise : H.Pairwise fun o o' => o.ver < o'.ver) {o o' : KeyOp} (ho : o ∈ H)
    (ho' : o' ∈ H) (hv : o.ver = o'.ver) : o = o' := by
  have hnodup : (H.map KeyOp.ver).Nodup := pairwise_map.mpr (hrise.imp fun h => ne_of_lt h)
  exact inj_on_of_nodup_map hnodup ho ho' hv

/-- A write leaves what it says, whatever was there. -/
theorem memory_concat (hw : ¬ r.IsTouch) (p : List KeyOp) : memory (p ++ [r]) = memStep none r := by
  rw [memory, foldl_append]
  cases r with
  | set | del => rfl
  | touch => exact absurd trivial hw

/-- What is left of a key is what the last of its commits says. -/
theorem memory_cases (hw : ∀ o ∈ p, ¬ o.IsTouch) : memory p = none ∨
    ∃ p₀ ver val wall flags, p = p₀ ++ [.set ver val wall flags] ∧
      memory p = some ⟨ver, val, wall⟩ := by
  rcases eq_nil_or_concat' p with rfl | ⟨p₀, d, rfl⟩
  · exact .inl rfl
  · have hd := hw d (by simp)
    rw [memory_concat hd]
    cases d with
    | touch => exact absurd trivial hd
    | del => exact .inl rfl
    | set ver val wall flags => exact .inr ⟨p₀, ver, val, wall, flags, rfl, rfl⟩

open Register

/-- The newest of the records replayed decides. -/
theorem run_newest (env : ReplayEnv) (hrise : H.Pairwise fun o o' => o.ver < o'.ver)
    (hR : ∀ o ∈ R, o ∈ H) (hr : r ∈ R) (hmax : ∀ o ∈ R, o.ver ≤ r.ver) (hw : ¬ r.IsTouch)
    {s : Reg (List Byte × Nat)} (hs : Below s r.ver) :
    (run s (R.map (opOf env.ticks env.nowWall))).cell =
      (memStep none r).map (Held.view env) := by
  have hmem : opOf env.ticks env.nowWall r ∈ R.map (opOf env.ticks env.nowWall) := mem_map_of_mem hr
  have htop : ∀ o ∈ R.map (opOf env.ticks env.nowWall),
      o.ver < r.ver ∨ o = opOf env.ticks env.nowWall r := by
    intro o' ho'
    obtain ⟨o, ho, rfl⟩ := mem_map.mp ho'
    rcases lt_or_eq_of_le (hmax o ho) with hlt | heq
    · exact .inl (by rwa [opOf_ver])
    · rw [eq_of_ver hrise (hR o ho) (hR r hr) heq]
      exact .inr rfl
  cases r with
  | set ver val wall flags => exact run_top_put hs hmem htop
  | del ver => exact run_top_del hs hmem htop
  | touch => exact absurd trivial hw

/-- **What a replay makes of a key's commits**: `p` is what the snapshot's copy holds,
`below` the commits stamped up to the marker, `R` those above it. -/
theorem key_recovered (env : ReplayEnv) (hrise : (p ++ q).Pairwise fun o o' => o.ver < o'.ver)
    (hwrites : ∀ o ∈ p ++ q, ¬ o.IsTouch ∧ 0 < o.ver) (hR : ∀ o ∈ R, o ∈ p ++ q)
    (below : KeyOp → Prop) {unlogged : KeyOp → Prop} (hbelow : ∀ o, below o → o ∈ p)
    (hparts : ∀ o ∈ p ++ q, below o ∨ o ∈ R ∨ unlogged o)
    (hord : ∀ b, below b → ∀ o ∈ R, o.IsSet → b.ver < o.ver) :
    ∃ p' q', p ++ q = p' ++ q' ∧
      (run (copyReg env (memory p)) (R.map (opOf env.ticks env.nowWall))).cell =
        (memory p').map (Held.view env) ∧ ∀ o ∈ q', unlogged o := by
  have hpq : ∀ o ∈ p, ∀ o' ∈ q, o.ver < o'.ver := (pairwise_append.mp hrise).2.2
  -- where every record replayed is in the copy
  have hcopy : (∀ o ∈ R, o ∉ q) → ∀ o ∈ q, unlogged o := by
    intro hRq o ho
    rcases hparts o (mem_append_right _ ho) with hb | hin | hun
    · exact absurd (hpq o (hbelow o hb) o ho) (lt_irrefl _)
    · exact absurd ho (hRq o hin)
    · exact hun
  by_cases hne : R = []
  · subst hne
    exact ⟨p, q, rfl, rfl, hcopy (by simp)⟩
  obtain ⟨r, hr, hmax⟩ := Greatest.exists_greatest KeyOp.ver hne
  obtain ⟨hwr, hpos⟩ := hwrites r (hR r hr)
  obtain ⟨p', q', hsplit, hbehind⟩ := cut_at hrise (hR r hr)
  -- behind the newest record replayed lies no other
  have hafter : (∀ b, below b → b.ver ≤ r.ver) → ∀ o ∈ q', unlogged o := by
    intro hle o ho
    rcases hparts o (by rw [hsplit]; exact mem_append_right _ ho) with hb | hin | hun
    · exact absurd (hle o hb) (not_le.mpr (hbehind o ho))
    · exact absurd (hmax o hin) (not_le.mpr (hbehind o ho))
    · exact hun
  have hcell := memory_cases fun o ho => (hwrites o (mem_append_left q ho)).1
  by_cases hin : r ∈ q
  · -- newer than the copy
    refine ⟨p' ++ [r], q', hsplit, ?_, hafter fun b hb => (hpq b (hbelow b hb) r hin).le⟩
    rw [memory_concat hwr]
    refine run_newest env hrise hR hr hmax hwr ⟨?_, hpos⟩
    rintro v a hcopy'
    rcases hcell with hnone | ⟨p₀, ver, val, wall, flags, rfl, hsome⟩
    · rw [copyReg, hnone] at hcopy'
      cases hcopy'
    · rw [copyReg, hsome] at hcopy'
      cases hcopy'
      exact hpq (.set ver val wall flags) (by simp) r hin
  have hrp : r ∈ p := (mem_append.mp (hR r hr)).resolve_right hin
  have hq : ∀ o ∈ q, unlogged o := hcopy fun o ho hoq =>
    absurd (hmax o ho) (not_le.mpr (hpq r hrp o hoq))
  rcases hcell with hnone | ⟨p₀, ver, val, wall, flags, rfl, hsome⟩
  · -- a DELETE has emptied the copy: the newest record is all there is
    have hrun := run_newest env hrise hR hr hmax hwr (s := copyReg env none) (below_empty hpos)
    rw [hnone]
    cases r with
    | touch => exact absurd trivial hwr
    | del w => exact ⟨p, q, rfl, by rw [hnone]; exact hrun, hq⟩
    | set w val wall flags =>
      refine ⟨p' ++ [.set w val wall flags], q', hsplit, ?_,
        hafter fun b hb => (hord b hb _ hr trivial).le⟩
      rw [memory_concat hwr]
      exact hrun
  · -- the copy is at least as new as every record
    refine ⟨p₀ ++ [.set ver val wall flags], q, rfl, ?_, hq⟩
    rw [hsome]
    refine run_cell rfl fun o' ho' => ?_
    obtain ⟨o, ho, rfl⟩ := mem_map.mp ho'
    rw [opOf_ver]
    refine le_trans (hmax o ho) ?_
    rcases mem_append.mp hrp with hr₀ | hlast
    · exact ((pairwise_append.mp (pairwise_append.mp hrise).1).2.2 r hr₀ (.set ver val wall flags)
        mem_cons_self).le
    · rw [mem_singleton.mp hlast]
      exact le_rfl

end Key

/-! ### A crash -/

/-- A record of the snapshot, as it was in memory. -/
def FileRec.toHeld (f : FileRec) : Held := ⟨f.ver, f.val, f.wall⟩

/-- A crash in state `s`, and the recovery from it: the newest completed snapshot with
the copies its walk took, and a log with every record stamped, in any order; nothing is
expired. -/
structure Crash (s : Sys) (env : ReplayEnv) (clk : LoadClock) (ρ : Int) (snap : Option Snapshot)
    (reg : List Collection) (log : List WalRec) : Prop where
  reload : Reload env clk ρ snap reg log
  marker : snapMarker snap = (s.file.map Cut.marker).getD 0
  copies : ∀ col key, HasSlot reg col →
    (snapRec snap col key).map FileRec.toHeld = s.file.bind fun w => w.copy (col, key)
  log : (log.map fun r => (r.seq, (r.col, r.key), recOp r)).Perm
    (s.log.map fun e => (e.1, e.2.name, some e.2.op))
  unexpired : ∀ c ∈ s.hist, c.op.Unexpired env.ticks env.nowWall

/-- Where recovery cuts the log, and what it has of each key. -/
theorem Sys.Inv.cut (h : s.Inv) : CutOrdered s ((s.file.map Cut.marker).getD 0) ∧
      ∀ k, Covers s ((s.file.map Cut.marker).getD 0) k (s.file.bind fun w => w.copy k) := by
  cases hf : s.file with
  | some w => exact (h.file w hf).2
  | none =>
    have hnone : ∀ e ∈ s.log, ¬ e.1 ≤ 0 := fun e he => not_le.mpr (h.seqs e he).1
    exact ⟨fun e he hle => absurd hle (hnone e he),
      fun k => ⟨[], s.ops k, rfl, rfl, fun e he _ hle => absurd hle (hnone e he)⟩⟩

section Crash

variable {s : Sys} {env : ReplayEnv} {clk : LoadClock} {ρ : Int} {snap : Option Snapshot}
  {reg : List Collection} {log : List WalRec}

section

variable (h : Crash s env clk ρ snap reg log)
include h

/-- A record of the log is a stamped commit. -/
theorem Crash.exists_stamped {r : WalRec} (hr : r ∈ log) :
    ∃ op, recOp r = some op ∧ (r.seq, ⟨(r.col, r.key), op⟩) ∈ s.log := by
  obtain ⟨⟨n, c⟩, he, heq⟩ := mem_map.mp (h.log.mem_iff.mp (mem_map_of_mem hr))
  simp only [Prod.mk.injEq] at heq
  obtain ⟨rfl, hname, hop⟩ := heq
  refine ⟨c.op, hop.symm, ?_⟩
  rwa [← hname]

theorem Crash.mem_replayed (col : List Byte) (key : Key) (m : Nat) (o : KeyOp) :
    o ∈ log.filterMap (keyOp m col key) ↔ ∃ n, m < n ∧ (n, ⟨(col, key), o⟩) ∈ s.log := by
  rw [mem_filterMap]
  constructor
  · rintro ⟨r, hr, hop⟩
    unfold keyOp at hop
    split at hop
    · next hk =>
      obtain ⟨rfl, rfl, hm⟩ := hk
      obtain ⟨op, hop', hlog⟩ := h.exists_stamped hr
      rw [hop] at hop'
      cases hop'
      exact ⟨r.seq, hm, hlog⟩
    · cases hop
  · rintro ⟨n, hm, hlog⟩
    obtain ⟨r, hr, heq⟩ := mem_map.mp (h.log.mem_iff.mpr (mem_map_of_mem hlog))
    simp only [Prod.mk.injEq] at heq
    obtain ⟨rfl, ⟨rfl, rfl⟩, hop⟩ := heq
    exact ⟨r, hr, by simp [keyOp, hm, hop]⟩

theorem Crash.copy (hinv : s.Inv) {col : List Byte} {key : Key} (hslot : HasSlot reg col)
    {p q : List KeyOp} (hops : s.ops (col, key) = p ++ q)
    (hcopy : (s.file.bind fun w => w.copy (col, key)) = memory p) :
    regOf (snapCell env snap col key) = copyReg env (memory p) ∧
      (snapCell env snap col key).Alive env.ticks := by
  have hrec := (h.copies col key hslot).trans hcopy
  unfold regOf copyReg snapCell Cell.Alive
  cases hm : memory p with
  | none =>
    rw [hm, map_eq_none_iff] at hrec
    rw [hrec]
    exact ⟨rfl, nofun⟩
  | some d =>
    rw [hm] at hrec
    obtain ⟨f, hf, rfl⟩ := map_eq_some_iff.mp hrec
    -- the last commit of the copy is a SET with this deadline
    obtain ⟨flags, hset⟩ : ∃ flags, .set f.ver f.val f.wall flags ∈ p := by
      rcases memory_cases fun o ho =>
          (hinv.writes _ (mem_ops.mp (hops ▸ mem_append_left q ho))).1 with
        hnone | ⟨p₀, ver, val, wall, flags, rfl, hsome⟩
      · cases hnone.symm.trans hm
      · cases hsome.symm.trans hm
        exact ⟨flags, by simp⟩
    obtain ⟨hne, hlive⟩ := h.unexpired _ (mem_ops.mp (hops ▸ mem_append_left q hset))
    rw [hf, bind_some, loaded]
    simp only [if_neg hne]
    refine ⟨rfl, ?_⟩
    rintro r ⟨⟩
    exact not_expired_of hlive _ rfl

/-- What a recovery leaves of every key, from a state the invariant holds in. -/
theorem Crash.recovered (hinv : s.Inv) (clock : Nat) :
    ∃ st, pcRecover env clk ρ (snap.map Snapshot.file) reg clock log = some st ∧
      ∀ col key, 0#8 ∉ col → HasSlot reg col → ∃ p q, s.ops (col, key) = p ++ q ∧
        keyState st col key = (memory p).map (Held.view env) ∧
        ∀ o ∈ q, ⟨(col, key), o⟩ ∈ s.unlogged := by
  obtain ⟨st, hst, hcell⟩ := h.reload.cell clock
  refine ⟨st, hst, fun col key hnul hslot => ?_⟩
  obtain ⟨hord, hcovers⟩ := hinv.cut
  obtain ⟨p, q, hops, hcopy, hbelow⟩ := hcovers (col, key)
  rw [← h.marker] at hord hbelow
  have hmem := h.mem_replayed col key (snapMarker snap)
  have hcellst := hcell col key hnul hslot fun r hr _ _ => by
    obtain ⟨op, hop, -⟩ := h.exists_stamped hr
    rw [hop]
    rfl
  generalize log.filterMap (keyOp (snapMarker snap) col key) = R at hmem hcellst
  have hR : ∀ o ∈ R, o ∈ p ++ q := by
    intro o ho
    obtain ⟨n, -, hlog⟩ := (hmem o).mp ho
    exact hops ▸ hinv.logged hlog
  obtain ⟨hstart, halive⟩ := h.copy hinv hslot hops hcopy
  obtain ⟨hrun, -⟩ := regOf_foldl_cellStep env.ticks env.nowWall halive
    (fun o ho => h.unexpired _ (mem_ops.mp (hops ▸ hR o ho)))
  have hstate : keyState st col key =
      (Register.run (copyReg env (memory p)) (R.map (opOf env.ticks env.nowWall))).cell := by
    rw [← hstart, ← hrun, ← hcellst]
    rfl
  rw [hstate, hops]
  refine key_recovered env (hops ▸ hinv.rising (col, key))
    (fun o ho => hinv.writes _ (mem_ops.mp (hops ▸ ho))) hR
    (fun o => ∃ n, n ≤ snapMarker snap ∧ (n, ⟨(col, key), o⟩) ∈ s.log) ?_ ?_ ?_
  · rintro o ⟨n, hn, hlog⟩
    exact hbelow _ hlog rfl hn
  · intro o ho
    rw [← hops, mem_ops, hinv.parts.mem_iff, mem_append] at ho
    rcases ho with ho | ho
    · exact .inr (.inr ho)
    · obtain ⟨⟨n, c⟩, hlog, rfl⟩ := mem_map.mp ho
      by_cases hn : n ≤ snapMarker snap
      · exact .inl ⟨n, hn, hlog⟩
      · exact .inr (.inl ((hmem o).mpr ⟨n, Nat.lt_of_not_le hn, hlog⟩))
  · rintro b ⟨n, hn, hlog⟩ o ho hset
    exact hord _ hlog hn ⟨(col, key), o⟩ rfl hset (.inr ((hmem o).mp ho))

end

/-- **A snapshot taken under load, plus the log, gives back the memory state**, in every
run in which the marker is read in order: each key comes back as its commits had left it
at a point behind which none was stamped; where all its commits were stamped, as it was in
memory at the crash. -/
theorem snapshot_under_load {as : List Act} (hok : Machine.Along sysStep MarkOrdered init as)
    (hrun : Machine.run sysStep init as = some s) (h : Crash s env clk ρ snap reg log)
    (clock : Nat) :
    ∃ st, pcRecover env clk ρ (snap.map Snapshot.file) reg clock log = some st ∧
      ∀ col key, 0#8 ∉ col → HasSlot reg col → (∃ p q, s.ops (col, key) = p ++ q ∧
          keyState st col key = (memory p).map (Held.view env) ∧
          ∀ o ∈ q, ⟨(col, key), o⟩ ∈ s.unlogged) ∧
        ((∀ c ∈ s.unlogged, c.name ≠ (col, key)) →
          keyState st col key = (s.mem (col, key)).map (Held.view env)) := by
  have hinv : s.Inv := Machine.run_invariant (fun _ _ _ hI hm hs => hI.step hm hs) init_inv hok hrun
  obtain ⟨st, hst, hall⟩ := h.recovered hinv clock
  refine ⟨st, hst, fun col key hnul hslot => ⟨hall col key hnul hslot, fun hlogged => ?_⟩⟩
  obtain ⟨p, q, hops, hstate, hq⟩ := hall col key hnul hslot
  obtain rfl : q = [] := by
    by_contra hne
    obtain ⟨o, ho⟩ := exists_mem_of_ne_nil q hne
    exact hlogged _ (hq o ho) rfl
  rw [hstate, mem, hops, append_nil]

end Crash

/-! ### A DELETE below the marker -/

/-- A SET and then a DELETE of the key, by two workers. -/
def setCommit : Commit := ⟨([0x63#8], [0x6B#8]), .set 1 [0x61#8] 0 0#8⟩

@[inherit_doc setCommit]
def delCommit : Commit := ⟨([0x63#8], [0x6B#8]), .del 2⟩

/-- Their records in the log, under the sequences they got. -/
def setRecAt (seq : Nat) : WalRec := { setRec with seq }

@[inherit_doc setRecAt]
def delRecAt (seq : Nat) : WalRec := { delRec with val := leBytes 8 2, seq }

theorem loadAt_tick_lt (_ : Nat) : 10 < 2 ^ 32 := by decide

/-- The clock of the recovery. -/
def loadAt : LoadClock := ⟨1700000000, fun _ => 10, loadAt_tick_lt⟩

/-- A snapshot with marker 1 that found the collection empty. -/
def savedNothing : Snapshot := ⟨{ saveAt with lastSeq := 1 }, emptyStore.reg⟩

theorem savedNothing_wellFormed : WellFormed savedNothing.sv savedNothing.cs where
  names := pairwise_singleton _ _
  nameLen := by
    intro c hc
    rw [mem_singleton.mp hc]
    exact show 1 < 64 by decide
  stored := by
    intro c hc t ht k r hr
    rw [mem_singleton.mp hc] at ht
    rcases ht with rfl | ht
    · cases hr
    · cases ht
  clock := by decide

theorem snapRec_savedNothing (col : List Byte) (key : Key) :
    snapRec (some savedNothing) col key = none := by
  rw [snapRec, bind_some]
  cases hf : (savedCollections savedNothing.cs).find? fun c => c.name == col with
  | none => rfl
  | some c =>
    rw [mem_singleton.mp (mem_of_find?_eq_some hf)]
    rfl

/-- Both commits stamped, in the order of `log`, and that snapshot completed. -/
def bothStamped (log : List (Nat × Commit)) : Sys where
  hist := [setCommit, delCommit]
  unlogged := []
  seq := 2
  log := log
  walk := none
  file := some ⟨1, [(([0x63#8], [0x6B#8]), none)]⟩

theorem crash_bothStamped (stamps : List (Nat × Commit)) (log : List WalRec)
    (hlog : ∀ r ∈ log, ∃ n, r = setRecAt n ∨ r = delRecAt n)
    (hperm : (log.map fun r => (r.seq, (r.col, r.key), recOp r)).Perm
      (stamps.map fun e => (e.1, e.2.name, some e.2.op))) :
    Crash (bothStamped stamps) replayAt loadAt 4096 (some savedNothing) emptyStore.reg log where
  reload :=
    { arena := fun _ _ => rfl
      wall := rfl
      tick := fun _ => rfl
      empty := emptyStore_empty
      snapshot := by
        rintro sn ⟨⟩
        refine ⟨savedNothing_wellFormed, by decide, ?_⟩
        intro c hc
        rw [mem_singleton.mp hc]
        exact ⟨0, _, rfl, rfl, rfl⟩
      logged := by
        intro r hr
        obtain ⟨n, rfl | rfl⟩ := hlog r hr
        · refine ⟨fun t ht => ?_, show 0#8 ∉ [0x63#8] by decide, show 1 ≤ 65535 by decide,
            show 28 + 1 + 1 ≤ 262080 by decide⟩
          cases ht
          decide
        · refine ⟨fun t ht => ?_, show 0#8 ∉ [0x63#8] by decide, show 1 ≤ 65535 by decide,
            show 28 + 1 + 8 ≤ 262080 by decide⟩
          cases ht
          decide }
  marker := rfl
  copies := by
    intro col key _
    rw [snapRec_savedNothing, bothStamped, bind_some, Cut.copy, lookup_cons]
    split <;> rfl
  log := hperm
  unexpired := show ∀ c ∈ [setCommit, delCommit], _ by decide

/-- The DELETE is stamped before the marker is read, and the older SET after it: both are
acknowledged and in the log, memory has no such key, and recovery brings it back. -/
theorem deleted_key_comes_back :
    Machine.run sysStep init [.commit setCommit, .commit delCommit, .stamp 1, .mark,
        .stamp 0, .copy ([0x63#8], [0x6B#8]), .finish] =
      some (bothStamped [(1, delCommit), (2, setCommit)]) ∧
    (bothStamped [(1, delCommit), (2, setCommit)]).mem ([0x63#8], [0x6B#8]) = none ∧
    Crash (bothStamped [(1, delCommit), (2, setCommit)]) replayAt loadAt 4096 (some savedNothing)
      emptyStore.reg [delRecAt 1, setRecAt 2] ∧
    ∃ st, pcRecover replayAt loadAt 4096 (some savedNothing.file) emptyStore.reg 0
        [delRecAt 1, setRecAt 2] = some st ∧
      keyState st [0x63#8] [0x6B#8] = some (1, [0x61#8], 0) := by
  have hcrash := crash_bothStamped [(1, delCommit), (2, setCommit)] [delRecAt 1, setRecAt 2]
    (by simp only [forall_mem_cons, not_mem_nil, false_implies, implies_true, and_true]
        exact ⟨⟨1, .inr rfl⟩, ⟨2, .inl rfl⟩⟩) (Perm.refl _)
  obtain ⟨st, hst, hcell⟩ := hcrash.reload.cell 0
  refine ⟨rfl, rfl, hcrash, st, hst, ?_⟩
  rw [keyState, hcell _ _ (by decide) ⟨0, _, rfl, rfl, rfl⟩ (by
    intro r hr _ _
    obtain ⟨op, hop, -⟩ := hcrash.exists_stamped hr
    rw [hop]
    rfl)]
  rfl

/-- The SET is stamped before the marker is read, and the DELETE after it. -/
theorem snapshot_under_load_set_del :
    ∃ st, pcRecover replayAt loadAt 4096 (some savedNothing.file) emptyStore.reg 0
        [delRecAt 2, setRecAt 1] = some st ∧
      keyState st [0x63#8] [0x6B#8] = none := by
  have hrun : Machine.run sysStep init [.commit setCommit, .stamp 0, .mark, .commit delCommit,
      .copy ([0x63#8], [0x6B#8]), .finish, .stamp 0] =
      some (bothStamped [(1, setCommit), (2, delCommit)]) := rfl
  obtain ⟨st, hst, hall⟩ := snapshot_under_load (by decide) hrun
    (crash_bothStamped [(1, setCommit), (2, delCommit)] [delRecAt 2, setRecAt 1]
      (by simp only [forall_mem_cons, not_mem_nil, false_implies, implies_true, and_true]
          exact ⟨⟨2, .inr rfl⟩, ⟨1, .inl rfl⟩⟩) (Perm.swap _ _ _)) 0
  exact ⟨st, hst, ((hall [0x63#8] [0x6B#8] (by decide) ⟨0, _, rfl, rfl, rfl⟩).2 nofun).trans rfl⟩

end Perfcached.Recover
