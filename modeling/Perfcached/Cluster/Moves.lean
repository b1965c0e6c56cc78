import Perfcached.Cluster.Place

/-!
# Perfcached.Cluster.Moves

What a change of the membership moves (`src/clplace.c`).

The ranking of a key's holders is that of the other members with the member's id at its place,
behind those that beat it (`holders_insert`). Taking the member out leaves the others in their
order, so the first `k` lose it and gain the next in line, if there is one. A weight moves the
member up or down in the ranking of the others, which stays as it is.
-/

namespace Perfcached.Cluster

open Rank List Option

/-- The ranked list of a key's holders, best first. -/
def holders (m : Clmap) (kh : BitVec 64) : List (BitVec 16) :=
  (ranked Cand.key (cands m kh)).map Cand.id

/-- The member is removed from the map, or stays without being placeable. -/
def Unplaced (l : List ClmapNode) (n : ClmapNode) (r : List ClmapNode) (m : Clmap) : Prop :=
  m.node = l ++ r ∨ ∃ n', n'.nodeId = n.nodeId ∧ pcClmapPlaceable n' = false ∧ m.node = l ++ n' :: r

/-- The member, with another weight. -/
structure Reweighed (n n' : ClmapNode) : Prop where
  nodeId : n'.nodeId = n.nodeId
  addr : n'.addr = n.addr
  clusterPort : n'.clusterPort = n.clusterPort
  state : n'.state = n.state

section Holders

variable {l r : List ClmapNode} {n n' : ClmapNode} (kh : BitVec 64)

variable {m : Clmap}

theorem pcClplaceRank_holders (hm : m.Distinct) (k : Int) :
    pcClplaceRank m kh k = (holders m kh).take k.toNat :=
  pcClplaceRank_eq kh hm k

open Clmap

theorem Clmap.Distinct.others (hm : Distinct ⟨l ++ n :: r⟩) : Distinct ⟨l ++ r⟩ :=
  hm.sublist ((Sublist.append_left (sublist_cons_self n r) l).map _)

theorem Clmap.Distinct.replace (hm : Distinct ⟨l ++ n :: r⟩) (hid : n'.nodeId = n.nodeId) :
    Distinct ⟨l ++ n' :: r⟩ := by
  unfold Distinct at hm ⊢
  simpa only [map_append, map_cons, hid] using hm

theorem cands_of_unplaceable (hn : pcClmapPlaceable n = false) :
    cands ⟨l ++ n :: r⟩ kh = cands ⟨l ++ r⟩ kh := by
  simp [cands, hn]

theorem cands_of_placeable (hn : pcClmapPlaceable n = true) :
    (cands ⟨l ++ n :: r⟩ kh).Perm (cand kh n :: cands ⟨l ++ r⟩ kh) := by
  simp [cands, hn]

/-- The candidates ahead of a member. -/
def ahead (l r : List ClmapNode) (kh : BitVec 64) (n : ClmapNode) : Nat :=
  (cands ⟨l ++ r⟩ kh).countP fun c => decide ((cand kh n).key < c.key)

theorem not_mem_holders (hm : Distinct ⟨l ++ n :: r⟩) : n.nodeId ∉ holders ⟨l ++ r⟩ kh := by
  intro hmem
  obtain ⟨c, hc, hid⟩ := mem_map.mp hmem
  obtain ⟨n', hn', rfl⟩ := mem_map.mp ((ranked_perm _ _).mem_iff.mp hc)
  have hperm : (l ++ n :: r).Perm (n :: (l ++ r)) := perm_middle
  have hnd := (hperm.map ClmapNode.nodeId).nodup_iff.mp hm
  refine (nodup_cons.mp hnd).1 ?_
  rw [← hid]
  exact mem_map_of_mem (mem_of_mem_filter hn')

/-- **A member's place.** The ranking is that of the others with the member behind those ahead of
it. -/
theorem holders_insert (hm : Distinct ⟨l ++ n :: r⟩) (hn : pcClmapPlaceable n = true) :
    ∃ a b, holders ⟨l ++ r⟩ kh = a ++ b ∧ holders ⟨l ++ n :: r⟩ kh = a ++ n.nodeId :: b ∧
      a.length = ahead l r kh n := by
  have hperm := cands_of_placeable kh (l := l) (r := r) hn
  have hnd := nodup_cands kh hm
  have hnd' := (hperm.map Cand.key).nodup_iff.mp hnd
  obtain ⟨a, b, hothers, hwith, hlen⟩ := ranked_insert hnd'
  refine ⟨a.map Cand.id, b.map Cand.id, ?_, ?_, ?_⟩
  · rw [holders, hothers, map_append]
  · rw [holders, ← ranked_congr hnd hperm.symm, hwith, map_append, map_cons, cand_id]
  · rw [length_map, hlen, ahead]

theorem holders_of_unplaced (hm' : Unplaced l n r m) : holders m kh = holders ⟨l ++ r⟩ kh := by
  obtain ⟨nodes⟩ := m
  rcases hm' with hout | ⟨n', -, hplace, hout⟩
  · rw [show nodes = l ++ r from hout]
  · rw [show nodes = l ++ n' :: r from hout, holders, holders, cands_of_unplaceable kh hplace]

theorem Clmap.Distinct.unplaced (hm : Distinct ⟨l ++ n :: r⟩) (hm' : Unplaced l n r m) :
    m.Distinct := by
  obtain ⟨nodes⟩ := m
  rcases hm' with hout | ⟨n', hid, -, hout⟩
  · rw [show nodes = l ++ r from hout]
    exact hm.others
  · rw [show nodes = l ++ n' :: r from hout]
    exact hm.replace hid

section

variable (h : Reweighed n n') (hw : pcClmapWeight n ≤ pcClmapWeight n')
include h hw

/-- The greater weight has fewer ahead of it. -/
theorem ahead_anti : ahead l r kh n' ≤ ahead l r kh n := by
  have hkey : (cand kh n).key ≤ (cand kh n').key := by
    have hd : (cand kh n').d = (cand kh n).d := by simp only [cand, h.addr, h.clusterPort]
    have hscore : (cand kh n).score ≤ (cand kh n').score := by
      unfold Cand.score
      rw [hd]
      have hle : ((cand kh n).w.toNat : ℚ) ≤ (cand kh n').w.toNat := by exact_mod_cast hw
      exact div_le_div_of_nonneg_right hle (Nat.cast_nonneg _)
    rw [Cand.key, Cand.key, Prod.Lex.toLex_le_toLex, cand_id, cand_id, h.nodeId]
    rcases lt_or_eq_of_le hscore with hlt | heq
    · exact .inl hlt
    · exact .inr ⟨heq, le_rfl⟩
  refine countP_mono_left fun c _ hc => ?_
  exact decide_eq_true (lt_of_le_of_lt hkey (of_decide_eq_true hc))

theorem placeable_mono (hn : pcClmapPlaceable n = true) : pcClmapPlaceable n' = true := by
  simp only [pcClmapPlaceable, decide_eq_true_eq] at hn ⊢
  exact ⟨h.state.trans hn.1, Nat.lt_of_lt_of_le hn.2 hw⟩

end

theorem holders_of_unplaceable (hn : ¬ pcClmapPlaceable n = true) :
    holders ⟨l ++ n :: r⟩ kh = holders ⟨l ++ r⟩ kh := by
  rw [holders, holders, cands_of_unplaceable kh (by simpa using hn)]

/-- The first `k` but for the member. -/
theorem filter_take_holders (hm : Distinct ⟨l ++ n :: r⟩) (k : Nat) :
    ((holders ⟨l ++ n :: r⟩ kh).take k).filter (fun id => id ≠ n.nodeId) =
      (holders ⟨l ++ r⟩ kh).take
        (if pcClmapPlaceable n = true ∧ ahead l r kh n < k then k - 1 else k) := by
  have hout := not_mem_holders kh hm
  by_cases hn : pcClmapPlaceable n = true
  · obtain ⟨a, b, hothers, hwith, hlen⟩ := holders_insert kh hm hn
    rw [hothers, mem_append, not_or] at hout
    rw [hwith, hothers, filter_take_insert hout.1 hout.2, hlen]
    simp only [hn, true_and]
  · rw [holders_of_unplaceable kh hn, if_neg fun h => hn h.1]
    refine filter_eq_self.mpr fun id hid => decide_eq_true ?_
    rintro rfl
    exact hout (mem_of_mem_take hid)

theorem mem_take_holders (hm : Distinct ⟨l ++ n :: r⟩) (k : Nat) :
    n.nodeId ∈ (holders ⟨l ++ n :: r⟩ kh).take k ↔
      pcClmapPlaceable n = true ∧ ahead l r kh n < k := by
  have hout := not_mem_holders kh hm
  by_cases hn : pcClmapPlaceable n = true
  · obtain ⟨a, b, hothers, hwith, hlen⟩ := holders_insert kh hm hn
    rw [hothers, mem_append, not_or] at hout
    rw [hwith, mem_take_insert hout.1, hlen]
    simp only [hn, true_and]
  · rw [holders_of_unplaceable kh hn]
    exact iff_of_false (fun h => hout (mem_of_mem_take h)) fun h => hn h.1

/-! ### The members -/

theorem nodup_holders (hm : m.Distinct) : (holders m kh).Nodup := by
  have hperm := (ranked_perm Cand.key (cands m kh)).map Cand.id
  refine hperm.nodup_iff.mpr ?_
  have hids : (cands m kh).map Cand.id = (m.node.filter pcClmapPlaceable).map ClmapNode.nodeId := by
    rw [cands, List.map_map]
    rfl
  rw [hids]
  exact hm.sublist (List.filter_sublist.map _)

theorem mem_holders {id : BitVec 16} :
    id ∈ holders m kh ↔ ∃ x ∈ m.node, pcClmapPlaceable x = true ∧ x.nodeId = id := by
  rw [holders, ((ranked_perm Cand.key (cands m kh)).map Cand.id).mem_iff, cands, List.map_map]
  simp only [List.mem_map, List.mem_filter, Function.comp_apply, cand_id, and_assoc]

/-- The member leaves the first `k`; the next of the others, if there is one, follows. -/
theorem take_holders_others (hm : Distinct ⟨l ++ n :: r⟩) {k : Nat}
    (hin : n.nodeId ∈ (holders ⟨l ++ n :: r⟩ kh).take k) :
    (holders ⟨l ++ r⟩ kh).take k = ((holders ⟨l ++ n :: r⟩ kh).take k).erase n.nodeId ++
      (holders ⟨l ++ n :: r⟩ kh)[k]?.toList := by
  have hout := not_mem_holders kh hm
  obtain ⟨hn, hlt⟩ := (mem_take_holders kh hm k).mp hin
  obtain ⟨a, b, hothers, hwith, hlen⟩ := holders_insert kh hm hn
  rw [hothers, mem_append, not_or] at hout
  rw [← hlen] at hlt
  obtain ⟨j, rfl⟩ : ∃ j, k = j + 1 := ⟨k - 1, by omega⟩
  have hnext : (a ++ n.nodeId :: b)[j + 1]? = (a ++ b)[j]? := by
    rw [getElem?_append_right (by omega), getElem?_append_right (by omega)]
    rw [show j + 1 - a.length = j - a.length + 1 by omega, getElem?_cons_succ]
  rw [hothers, hwith, erase_take_insert hout.1 hlt, hnext, take_add_one, Nat.add_sub_cancel]

theorem not_mem_take_of_getElem? (hm : m.Distinct) {k : Nat} {id : BitVec 16}
    (hid : (holders m kh)[k]? = some id) : id ∉ (holders m kh).take k := by
  intro hmem
  obtain ⟨i, hi, heq⟩ := mem_take_iff_getElem.mp hmem
  obtain ⟨hk, hkey⟩ := List.getElem?_eq_some_iff.mp hid
  have := (nodup_holders kh hm).getElem_inj_iff.mp (heq.trans hkey.symm)
  omega

section

variable (hm : Distinct ⟨l ++ n :: r⟩)
include hm

theorem unplaced_moves (k : Nat) (hin : n.nodeId ∈ (holders ⟨l ++ n :: r⟩ kh).take k) :
    ((∃ x ∈ l ++ n :: r, pcClmapPlaceable x = true ∧ x.nodeId ∉ (holders ⟨l ++ n :: r⟩ kh).take k) →
      ∃ id, id ∉ (holders ⟨l ++ n :: r⟩ kh).take k ∧ (holders ⟨l ++ r⟩ kh).take k =
          ((holders ⟨l ++ n :: r⟩ kh).take k).erase n.nodeId ++ [id]) ∧
      ((∀ x ∈ l ++ n :: r, pcClmapPlaceable x = true →
        x.nodeId ∈ (holders ⟨l ++ n :: r⟩ kh).take k) →
      (holders ⟨l ++ r⟩ kh).take k = ((holders ⟨l ++ n :: r⟩ kh).take k).erase n.nodeId) := by
  rw [take_holders_others kh hm hin]
  cases hnext : (holders ⟨l ++ n :: r⟩ kh)[k]? with
  | none =>
    refine ⟨fun ⟨x, hx, hplace, hnot⟩ => ?_, fun _ => ?_⟩
    · have hall := take_of_length_le (getElem?_eq_none_iff.mp hnext)
      exact absurd ((mem_holders kh).mpr ⟨x, hx, hplace, rfl⟩) (hall ▸ hnot)
    · rw [toList_none, append_nil]
  | some id =>
    have hnot := not_mem_take_of_getElem? kh hm hnext
    refine ⟨fun _ => ⟨id, hnot, rfl⟩, fun hall => ?_⟩
    obtain ⟨x, hx, hplace, rfl⟩ := (mem_holders kh).mp (mem_of_getElem? hnext)
    exact absurd (hall x hx hplace) hnot

theorem unplaced_keeps (k : Nat) (hout : n.nodeId ∉ (holders ⟨l ++ n :: r⟩ kh).take k) :
    (holders ⟨l ++ r⟩ kh).take k = (holders ⟨l ++ n :: r⟩ kh).take k := by
  have hfilter := filter_take_holders kh hm k
  rw [if_neg fun h => hout ((mem_take_holders kh hm k).mpr h)] at hfilter
  rw [← hfilter]
  refine filter_eq_self.mpr fun id hid => decide_eq_true ?_
  rintro rfl
  exact hout hid

/-- A greater weight lets no other member in. -/
theorem raised_moves (h : Reweighed n n') (hw : pcClmapWeight n ≤ pcClmapWeight n') (k : Nat) :
    ((holders ⟨l ++ n' :: r⟩ kh).take k).filter (fun id => id ≠ n.nodeId) <+:
      ((holders ⟨l ++ n :: r⟩ kh).take k).filter (fun id => id ≠ n.nodeId) := by
  have hafter := filter_take_holders kh (hm.replace h.nodeId) k
  rw [h.nodeId] at hafter
  rw [hafter, filter_take_holders kh hm k]
  have hahead := ahead_anti kh (l := l) (r := r) h hw
  apply take_prefix_take_left
  by_cases hbefore : pcClmapPlaceable n = true ∧ ahead l r kh n < k
  · rw [if_pos hbefore, if_pos ⟨placeable_mono h hw hbefore.1, by omega⟩]
  · rw [if_neg hbefore]
    split <;> omega

theorem lowered_moves (h : Reweighed n n') (hw : pcClmapWeight n' ≤ pcClmapWeight n) (k : Nat)
    (hin : n.nodeId ∈ (holders ⟨l ++ n' :: r⟩ kh).take k) :
    n.nodeId ∈ (holders ⟨l ++ n :: r⟩ kh).take k := by
  have hback : Reweighed n' n := ⟨h.nodeId.symm, h.addr.symm, h.clusterPort.symm, h.state.symm⟩
  rw [← h.nodeId, mem_take_holders kh (hm.replace h.nodeId)] at hin
  rw [mem_take_holders kh hm]
  have hahead := ahead_anti kh (l := l) (r := r) hback hw
  exact ⟨placeable_mono hback hw hin.1, by omega⟩

end

end Holders

/-- **A change of the membership moves only what it must.** For a map with distinct ids, a member
`n` of it, a key and any number `k` of holders:

* without the member, or with the member not placeable, the first `k` holders are the same if it
  was not among them; if it was, the others keep their order, and where a placeable member was not
  among them one such member follows at the end;
* with a greater weight of the member, the others among the first `k` are, in their order, the
  first of those that were there before;
* with a smaller weight, the member is among the first `k` only if it was. -/
theorem membership_moves_least (l r : List ClmapNode) (n : ClmapNode)
    (hm : Clmap.Distinct ⟨l ++ n :: r⟩) (kh : BitVec 64) (k : Int) :
    (∀ m', Unplaced l n r m' → (n.nodeId ∉ pcClplaceRank ⟨l ++ n :: r⟩ kh k →
        pcClplaceRank m' kh k = pcClplaceRank ⟨l ++ n :: r⟩ kh k) ∧
      (n.nodeId ∈ pcClplaceRank ⟨l ++ n :: r⟩ kh k →
        ((∃ x ∈ l ++ n :: r, pcClmapPlaceable x = true ∧
            x.nodeId ∉ pcClplaceRank ⟨l ++ n :: r⟩ kh k) →
          ∃ id, id ∉ pcClplaceRank ⟨l ++ n :: r⟩ kh k ∧
            pcClplaceRank m' kh k = (pcClplaceRank ⟨l ++ n :: r⟩ kh k).erase n.nodeId ++ [id]) ∧
        ((∀ x ∈ l ++ n :: r, pcClmapPlaceable x = true →
            x.nodeId ∈ pcClplaceRank ⟨l ++ n :: r⟩ kh k) →
          pcClplaceRank m' kh k = (pcClplaceRank ⟨l ++ n :: r⟩ kh k).erase n.nodeId))) ∧
    (∀ n', Reweighed n n' → pcClmapWeight n ≤ pcClmapWeight n' →
      (pcClplaceRank ⟨l ++ n' :: r⟩ kh k).filter (fun id => id ≠ n.nodeId) <+:
        (pcClplaceRank ⟨l ++ n :: r⟩ kh k).filter (fun id => id ≠ n.nodeId)) ∧
    (∀ n', Reweighed n n' → pcClmapWeight n' ≤ pcClmapWeight n →
      n.nodeId ∈ pcClplaceRank ⟨l ++ n' :: r⟩ kh k →
        n.nodeId ∈ pcClplaceRank ⟨l ++ n :: r⟩ kh k) := by
  simp only [pcClplaceRank_holders kh hm]
  refine ⟨fun m' hm' => ?_, fun n' h hw => ?_, fun n' h hw => ?_⟩
  · rw [pcClplaceRank_holders kh (hm.unplaced hm'), holders_of_unplaced kh hm']
    exact ⟨unplaced_keeps kh hm k.toNat, unplaced_moves kh hm k.toNat⟩
  · rw [pcClplaceRank_holders kh (hm.replace h.nodeId)]
    exact raised_moves kh hm h hw k.toNat
  · rw [pcClplaceRank_holders kh (hm.replace h.nodeId)]
    exact lowered_moves kh hm h hw k.toNat

/-- Two members and two holders: one member goes, and nobody enters. -/
theorem membership_moves_least_two :
    (Clmap.mk ([] ++ ⟨1, 10, 7, 2, 1000, 0xFFFF⟩ :: [⟨2, 20, 7, 2, 1000, 500⟩])).Distinct ∧
      pcClplaceRank ⟨[⟨2, 20, 7, 2, 1000, 500⟩]⟩ 5 2 =
        (pcClplaceRank ⟨[⟨1, 10, 7, 2, 1000, 0xFFFF⟩, ⟨2, 20, 7, 2, 1000, 500⟩]⟩ 5 2).erase 1 := by
  have hd : (Clmap.mk
      ([] ++ ⟨1, 10, 7, 2, 1000, 0xFFFF⟩ :: [⟨2, 20, 7, 2, 1000, 500⟩])).Distinct := by
    unfold Clmap.Distinct
    decide
  refine ⟨hd, ?_⟩
  exact (((membership_moves_least [] _ _ hd 5 2).1 ⟨[⟨2, 20, 7, 2, 1000, 500⟩]⟩ (.inl rfl)).2
    (by decide)).2 (by decide)

/-- A lone member is its keys' holder; nobody takes its place. -/
theorem lone_member_not_replaced : (Clmap.mk [⟨1, 10, 7, 2, 1000, 0xFFFF⟩]).Distinct ∧
      pcClplaceRank ⟨[⟨1, 10, 7, 2, 1000, 0xFFFF⟩]⟩ 5 1 = [1] ∧ pcClplaceRank ⟨[]⟩ 5 1 = [] := by
  refine ⟨?_, by decide, by decide⟩
  unfold Clmap.Distinct
  decide

end Perfcached.Cluster
