import Perfcached.Cluster.Score
import Perfcached.Lib.Rank

/-!
# Perfcached.Cluster.Place

Placement over the cluster map (`src/clplace.c`).

The owner of a key, the ranked list of its holders and the test whether a node is among the first
`k` are three separate loops over the map. Each is an instance of a loop of `Perfcached.Rank`, at
the comparison `beats`, so they agree with one another and with any order of the map's nodes.

The functions' answers for a missing map are left out.
-/

namespace Perfcached.Cluster

open Rank List Function

/-- `struct pc_clmap`, with what placement reads. -/
structure Clmap where
  node : List ClmapNode

def pcClplaceOwner (m : Clmap) (kh : BitVec 64) : BitVec 16 :=
  let best := m.node.foldl (fun best n =>
    if pcClmapPlaceable n then keepBetter beats best (cand kh n) else best) none
  match best with
  | none => 0
  | some c => c.id

/-- The candidates `pc_clplace_rank` gathers. -/
def cands (m : Clmap) (kh : BitVec 64) : List Cand :=
  (m.node.filter pcClmapPlaceable).map (cand kh)

/-- `pc_clplace_rank`: what it writes to `out`. -/
def pcClplaceRank (m : Clmap) (kh : BitVec 64) (max : Int) : List (BitVec 16) :=
  if max ≤ 0 then []
  else
    let c := cands m kh
    (select beats (min max c.length).toNat c).map Cand.id

/-- The second loop of `pc_clplace_in_set`: it stops once `k` nodes are found ahead of `me`. -/
def inSetFrom (kh : BitVec 64) (me : Cand) (k : Int) : Nat → List ClmapNode → Bool
  | _, [] => true
  | ahead, n :: ns =>
    if n.nodeId = me.id ∨ pcClmapPlaceable n = false then inSetFrom kh me k ahead ns
    else if beats (cand kh n) me then
      if k ≤ ahead + 1 then false else inSetFrom kh me k (ahead + 1) ns
    else inSetFrom kh me k ahead ns

def pcClplaceInSet (m : Clmap) (kh : BitVec 64) (nodeId : BitVec 16) (k : Int) : Bool :=
  if k ≤ 0 then false
  else
    match m.node.find? fun n => n.nodeId = nodeId with
    | none => false
    | some n => if pcClmapPlaceable n then inSetFrom kh (cand kh n) k 0 m.node else false

variable {m : Clmap} (kh : BitVec 64)

/-- The ids of the map are distinct, as `pc_clmap_decode` demands. -/
def Clmap.Distinct (m : Clmap) : Prop := (m.node.map ClmapNode.nodeId).Nodup

@[simp] theorem cand_id (n : ClmapNode) : (cand kh n).id = n.nodeId := rfl

theorem nodup_cands (hm : m.Distinct) : ((cands m kh).map Cand.key).Nodup := by
  have hids : ((m.node.filter pcClmapPlaceable).map ClmapNode.nodeId).Nodup :=
    hm.sublist (List.Sublist.map _ filter_sublist)
  rw [cands, map_map]
  refine List.Nodup.of_map (fun k : ℚ ×ₗ ℕ => BitVec.ofNat 16 (ofLex k).2) ?_
  simpa [map_map, comp_def, Cand.key] using hids

/-! ### The owner -/

theorem pcClplaceOwner_eq (hm : m.Distinct) :
    pcClplaceOwner m kh = ((ranked Cand.key (cands m kh)).map Cand.id).headD 0 := by
  have hfold : m.node.foldl (fun best n =>
      if pcClmapPlaceable n then keepBetter beats best (cand kh n) else best) none =
      (cands m kh).foldl (keepBetter beats) none := by
    rw [cands, foldl_map, foldl_filter]
  rw [pcClplaceOwner, hfold, foldl_keepBetter beats_iff (nodup_cands kh hm)]
  cases ranked Cand.key (cands m kh) <;> rfl

/-! ### The ranking -/

theorem pcClplaceRank_eq (hm : m.Distinct) (max : Int) :
    pcClplaceRank m kh max = ((ranked Cand.key (cands m kh)).map Cand.id).take max.toNat := by
  unfold pcClplaceRank
  split
  · rename_i hle
    rw [Int.toNat_of_nonpos hle, take_zero]
  · have hlen := (ranked_perm Cand.key (cands m kh)).length_eq
    simp only [select_eq beats_iff (nodup_cands kh hm)]
    rw [map_take, take_eq_take_iff, length_map, hlen]
    omega

/-! ### The first `k` -/

/-- A node that the loop counts. -/
def isAhead (kh : BitVec 64) (me : Cand) (n : ClmapNode) : Bool :=
  pcClmapPlaceable n && n.nodeId ≠ me.id && beats (cand kh n) me

theorem inSetFrom_iff (me : Cand) (k : Int) (ahead : Nat) (ns : List ClmapNode) (hk : ahead < k) :
    inSetFrom kh me k ahead ns = true ↔ ahead + ns.countP (isAhead kh me) < k := by
  induction ns generalizing ahead with
  | nil => simpa [inSetFrom] using hk
  | cons n ns ih =>
    rw [inSetFrom, countP_cons]
    by_cases hskip : n.nodeId = me.id ∨ pcClmapPlaceable n = false
    · have hout : isAhead kh me n = false := by
        rcases hskip with h | h <;> simp [isAhead, h]
      rw [if_pos hskip, ih ahead hk, hout]
      simp
    · obtain ⟨hne, hplace⟩ := not_or.mp hskip
      rw [Bool.not_eq_false] at hplace
      rw [if_neg hskip]
      by_cases hbeat : beats (cand kh n) me = true
      · have hin : isAhead kh me n = true := by simp [isAhead, hplace, hne, hbeat]
        rw [if_pos hbeat, hin, if_pos rfl]
        by_cases hlast : k ≤ ahead + 1
        · rw [if_pos hlast]
          exact iff_of_false Bool.false_ne_true (by omega)
        · rw [if_neg hlast, ih (ahead + 1) (by omega)]
          omega
      · have hout : isAhead kh me n = false := by simp [isAhead, hbeat]
        rw [if_neg hbeat, ih ahead hk, hout]
        simp

theorem beats_self (c : Cand) : beats c c = false := by
  rw [← Bool.not_eq_true, beats_iff]
  exact lt_irrefl _

/-- A node of the map is not ahead of itself, so its id need not be left out. -/
theorem isAhead_iff (hm : m.Distinct) {me n : ClmapNode} (hme : me ∈ m.node) (hn : n ∈ m.node) :
    isAhead kh (cand kh me) n = true ↔
      (pcClmapPlaceable n && beats (cand kh n) (cand kh me)) = true := by
  by_cases hid : n.nodeId = me.nodeId
  · obtain rfl := inj_on_of_nodup_map hm hn hme hid
    simp [isAhead, beats_self]
  · simp [isAhead, hid]

/-- The nodes ahead of a node of the map are the candidates ahead of it. -/
theorem countP_isAhead (hm : m.Distinct) {me : ClmapNode} (hme : me ∈ m.node) :
    m.node.countP (isAhead kh (cand kh me)) =
      (cands m kh).countP fun c => beats c (cand kh me) := by
  rw [cands, countP_map, countP_filter]
  refine countP_congr fun n hn => ?_
  rw [isAhead_iff kh hm hme hn, comp_apply, Bool.and_comm]

theorem mem_cands_iff (hm : m.Distinct) {n : ClmapNode} (hn : n ∈ m.node) {c : Cand}
    (hid : c.id = n.nodeId) : c ∈ cands m kh ↔ c = cand kh n ∧ pcClmapPlaceable n = true := by
  constructor
  · intro hc
    obtain ⟨n', hn', rfl⟩ := mem_map.mp hc
    obtain ⟨hmem, hplace⟩ := mem_filter.mp hn'
    obtain rfl := inj_on_of_nodup_map hm hmem hn hid
    exact ⟨rfl, hplace⟩
  · rintro ⟨rfl, hplace⟩
    exact mem_map_of_mem (mem_filter.mpr ⟨hn, hplace⟩)

theorem pcClplaceInSet_iff (hm : m.Distinct) (nodeId : BitVec 16) (k : Int) :
    pcClplaceInSet m kh nodeId k = true ↔
      nodeId ∈ ((ranked Cand.key (cands m kh)).map Cand.id).take k.toNat := by
  unfold pcClplaceInSet
  by_cases hk : k ≤ 0
  · simp [hk, Int.toNat_of_nonpos hk]
  · rw [if_neg hk]
    have hperm := ranked_perm Cand.key (cands m kh)
    rw [← map_take]
    cases hfind : m.node.find? fun n => n.nodeId = nodeId with
    | none =>
      refine iff_of_false Bool.false_ne_true fun h => ?_
      obtain ⟨c, hc, hid⟩ := mem_map.mp h
      obtain ⟨n, hn, rfl⟩ := mem_map.mp (hperm.mem_iff.mp (mem_of_mem_take hc))
      have hno := find?_eq_none.mp hfind n (mem_of_mem_filter hn)
      exact hno (decide_eq_true hid)
    | some n =>
      have hn := mem_of_find?_eq_some hfind
      have hid : n.nodeId = nodeId := by simpa using find?_some hfind
      subst hid
      -- the node's candidate is the only one of its id
      have hmem : n.nodeId ∈ ((ranked Cand.key (cands m kh)).take k.toNat).map Cand.id ↔
          pcClmapPlaceable n = true ∧ cand kh n ∈ (ranked Cand.key (cands m kh)).take k.toNat := by
        constructor
        · intro h
          obtain ⟨c, hc, hcid⟩ := mem_map.mp h
          have hin := hperm.mem_iff.mp (mem_of_mem_take hc)
          obtain ⟨rfl, hplace⟩ := (mem_cands_iff kh hm hn hcid).mp hin
          exact ⟨hplace, hc⟩
        · exact fun h => mem_map.mpr ⟨_, h.2, cand_id kh n⟩
      rw [hmem]
      by_cases hplace : pcClmapPlaceable n = true
      · have hin := (mem_cands_iff kh hm hn (cand_id kh n)).mpr ⟨rfl, hplace⟩
        simp only [hplace, if_true, true_and]
        rw [inSetFrom_iff kh _ k 0 _ (by omega), countP_isAhead kh hm hn,
          mem_take_ranked beats_iff (nodup_cands kh hm) hin]
        omega
      · simp [hplace]

/-! ### Agreement -/

/-- **Placement agrees with itself.** For a map with distinct ids and any permutation of it, the
owner is the first of the ranking, the first `k` test is membership in the first `k` of the
ranking, none of the three depends on the order of the map's nodes, and no operation of the
scores' arithmetic wraps. -/
theorem placement_agrees {m m' : Clmap} (hm : m.Distinct) (hperm : m'.node.Perm m.node)
    (kh : BitVec 64) :
    (∀ max : Int, 0 < max → pcClplaceOwner m kh = (pcClplaceRank m kh max).headD 0) ∧
      (∀ (nodeId : BitVec 16) (k max : Int), k ≤ max → (pcClplaceInSet m kh nodeId k = true ↔
          nodeId ∈ (pcClplaceRank m kh max).take k.toNat)) ∧
      (pcClplaceOwner m' kh = pcClplaceOwner m kh ∧
        (∀ max, pcClplaceRank m' kh max = pcClplaceRank m kh max) ∧
        ∀ nodeId k, pcClplaceInSet m' kh nodeId k = pcClplaceInSet m kh nodeId k) ∧
      (∀ h, DtermExact h) ∧
      ∀ a b : Cand, (cross a.w b.d).toNat = a.w.toNat * b.d.toNat := by
  have hm' : m'.Distinct := (hperm.map _).nodup_iff.mpr hm
  have hranked : ranked Cand.key (cands m' kh) = ranked Cand.key (cands m kh) :=
    ranked_congr (nodup_cands kh hm) ((hperm.filter _).map _)
  refine ⟨fun max hmax => ?_, fun nodeId k max hk => ?_, ⟨?_, fun max => ?_, fun nodeId k => ?_⟩,
    dtermExact, toNat_cross⟩
  · rw [pcClplaceOwner_eq kh hm, pcClplaceRank_eq kh hm]
    obtain ⟨n, hn⟩ : ∃ n, max.toNat = n + 1 := ⟨max.toNat - 1, by omega⟩
    rw [hn]
    cases (ranked Cand.key (cands m kh)).map Cand.id <;> rfl
  · rw [pcClplaceInSet_iff kh hm, pcClplaceRank_eq kh hm, take_take,
      Nat.min_eq_left (Int.toNat_le_toNat hk)]
  · rw [pcClplaceOwner_eq kh hm', pcClplaceOwner_eq kh hm, hranked]
  · rw [pcClplaceRank_eq kh hm', pcClplaceRank_eq kh hm, hranked]
  · rw [Bool.eq_iff_iff, pcClplaceInSet_iff kh hm', pcClplaceInSet_iff kh hm, hranked]

/-- Two nodes of different weight, in both orders. -/
theorem placement_agrees_two :
    (Clmap.mk [⟨1, 10, 7, 2, 1000, 0xFFFF⟩, ⟨2, 20, 7, 2, 1000, 500⟩]).Distinct ∧
      pcClplaceOwner ⟨[⟨2, 20, 7, 2, 1000, 500⟩, ⟨1, 10, 7, 2, 1000, 0xFFFF⟩]⟩ 5 =
        pcClplaceOwner ⟨[⟨1, 10, 7, 2, 1000, 0xFFFF⟩, ⟨2, 20, 7, 2, 1000, 500⟩]⟩ 5 := by
  have hd : (Clmap.mk [⟨1, 10, 7, 2, 1000, 0xFFFF⟩, ⟨2, 20, 7, 2, 1000, 500⟩]).Distinct := by
    unfold Clmap.Distinct
    decide
  exact ⟨hd, (placement_agrees hd (Perm.swap _ _ _) 5).2.2.1.1⟩

end Perfcached.Cluster
