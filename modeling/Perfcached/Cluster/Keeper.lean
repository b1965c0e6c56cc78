import Perfcached.Cluster.Fleet
import Perfcached.Cluster.Forget
import Perfcached.Lib.Machine

/-!
# Perfcached.Cluster.Keeper

A retained delete is forgotten by the marks only when the fleet holds it.

A keeper is a node's tombstone table with what the fleet's members announced. Members announce
their marks, tombstones are noted, expire and are pushed out, and `clretain_forget` is called with
the lowest mark of a space, each under the lock of one shard at a time, so that other calls come in
between. After every run, what such a call takes is a delete that every member it listed has
confirmed, and the newest noted for its name since its entry was planted
(`forgotten_only_confirmed`).

What was noted before the entry was planted the table does not know: an entry that the time rule or
the cap took is planted anew by an older delete (`forgotten_below_greatest`).
-/

namespace Perfcached.Cluster

open Machine List Function

/-- A call of `clretain_forget` on its way through the shards: its mark, the members it was the
lowest of and what they had said, the next shard, and how many went. -/
structure Forgetting where
  space : Key
  upto : Nat
  nowS : Nat
  members : List Nat
  said : Said
  next : Nat
  n : Nat

structure Keeper where
  fleet : Fleet
  said : Said
  shards : Nat → Shard
  bk : Books
  notes : Notes
  forgets : List Forgetting

/-- `clretain_init` and `clackf_new`. -/
def Keeper.new : Keeper where
  fleet := ⟨[]⟩
  said := .nothing
  shards := fun _ => ⟨[], [], [], 0⟩
  bk := ⟨0, 0, 0, 0, 0, 0, 0, []⟩
  notes := fun _ => []
  forgets := []

/-- A shard under its lock. -/
def Keeper.part (s : Keeper) (i : Nat) : Part := ⟨s.shards i, s.bk⟩

/-- The notes of the names that have an entry. -/
def Notes.prune (notes : Notes) (shards : Nat → Shard) : Notes := fun name =>
  if ((shards (shardOf name)).find name).isSome then notes name else []

/-- The lock is given up. -/
def Keeper.put (s : Keeper) (i : Nat) (p : Part) (notes : Notes) : Keeper :=
  let shards := update s.shards i p.sh
  { s with shards, bk := p.bk, notes := notes.prune shards }

inductive KeeperAct
  | announce (an : Announce)
  | note (nt : Noting) (mem alloc : Bool)
  /-- `clretain_expire` in one shard. -/
  | expire (i nowS : Nat)
  /-- `clretain_expire_expiries` in one shard. -/
  | expireExpiries (i nowS holdS : Nat)
  /-- A call of `clretain_forget` at the lowest mark of the members. -/
  | forget (space : Key) (members : List Nat) (nowS : Nat)
  /-- Such a call takes the lock of its next shard, or ends. -/
  | forgetNext (j : Nat)

def keeperStep (c : RetainConf) (s : Keeper) : KeeperAct → Option Keeper
  | .announce an => some { s with fleet := s.fleet.hear an, said := s.said.hear an }
  | .note nt mem alloc =>
    let i := shardOf nt.note.name
    some (s.put i ((s.part i).noteIn c nt.note mem alloc)
      (if nt.note.taken c then s.notes.add nt else s.notes))
  | .expire i nowS => some (s.put i ((s.part i).expire c nowS) s.notes)
  | .expireExpiries i nowS holdS => some (s.put i ((s.part i).expireExpiries c nowS holdS) s.notes)
  | .forget space members nowS =>
    let upto := clackfMin s.fleet space members
    if c.on ∧ upto ≠ 0 then
      some { s with forgets := s.forgets ++ [⟨space, upto, nowS, members, s.said, 0, 0⟩] }
    else some s
  | .forgetNext j =>
    match s.forgets[j]? with
    | none => none
    | some f =>
      if f.next < nShard then
        let r := (s.part f.next).forget f.space f.upto
        some { s.put f.next r.1 s.notes with
          forgets := s.forgets.set j { f with next := f.next + 1, n := f.n + r.2 } }
      else
        some { s with
          bk := s.bk.forgot f.space f.upto f.nowS f.n
          forgets := s.forgets.eraseIdx j }

/-! ### The invariant -/

/-- Every member that the call listed has confirmed its mark. -/
def Forgetting.Confirmed (f : Forgetting) : Prop :=
  f.members ≠ [] ∧ ∀ m ∈ f.members, ∃ v, f.said.mark m f.space = some v ∧ f.upto ≤ v

structure Keeper.Inv (s : Keeper) : Prop where
  heard : Heard s.fleet s.said
  kept : ∀ i, Kept s.notes (s.shards i)
  home : ∀ i, ∀ e ∈ (s.shards i).ents, shardOf e.name = i
  absent : ∀ name, (s.shards (shardOf name)).find name = none → s.notes name = []
  confirmed : ∀ f ∈ s.forgets, f.Confirmed

theorem keeper_new_inv : Keeper.new.Inv where
  heard := heard_nothing
  kept := fun _ => ⟨nodup_nil, ⟨by simp [onList, Keeper.new], fun _ => nodup_nil⟩, nofun, nofun⟩
  home := nofun
  absent := fun _ _ => rfl
  confirmed := nofun

/-- One shard changes, and the notes of its names. -/
theorem Keeper.Inv.put {s : Keeper} (h : s.Inv) {i : Nat} {p : Part} {notes : Notes}
    (hkept : Kept notes p.sh) (hhome : ∀ e ∈ p.sh.ents, shardOf e.name = i)
    (hsame : ∀ name, shardOf name ≠ i → notes name = s.notes name) : (s.put i p notes).Inv := by
  have hi : (s.put i p notes).shards i = p.sh := update_self ..
  have hj : ∀ j, j ≠ i → (s.put i p notes).shards j = s.shards j := fun j hj => update_of_ne hj ..
  have hhome' : ∀ j, ∀ e ∈ ((s.put i p notes).shards j).ents, shardOf e.name = j := by
    intro j e he
    by_cases hji : j = i
    · subst hji
      exact hhome e (hi ▸ he)
    · exact h.home j e (hj j hji ▸ he)
  -- the notes of an entry are not pruned
  have hnotes : ∀ j, ((s.put i p notes).shards j |>.ents.map Ent.name).Nodup →
      ∀ e ∈ ((s.put i p notes).shards j).ents, (s.put i p notes).notes e.name = notes e.name := by
    intro j hnd e he
    have hfind : ((s.put i p notes).shards (shardOf e.name)).find e.name = some e := by
      rw [hhome' j e he]
      exact Slots.find_of_mem hnd he
    exact if_pos (by rw [show (update s.shards i p.sh _).find e.name = _ from hfind]; rfl)
  refine ⟨h.heard, fun j => ?_, hhome', fun name hname => ?_, h.confirmed⟩
  · by_cases hji : j = i
    · subst hji
      have hkept' : Kept notes ((s.put j p notes).shards j) := hi ▸ hkept
      exact hkept'.congr (hnotes j hkept'.names)
    · have hkept' : Kept s.notes ((s.put i p notes).shards j) := hj j hji ▸ h.kept j
      refine hkept'.congr fun e he => (hnotes j hkept'.names e he).trans (hsame e.name ?_)
      rw [hhome' j e he]
      exact hji
  · exact if_neg (by rw [show (update s.shards i p.sh _).find name = _ from hname]; simp)

/-- **Every call keeps the entries and the marks sound.** -/
theorem Keeper.Inv.step {c : RetainConf} {s s' : Keeper} (h : s.Inv) {act : KeeperAct}
    (hs : keeperStep c s act = some s') : s'.Inv := by
  have hshrunk : ∀ i {p : Part}, Shrunk s.notes (s.shards i) p.sh → (s.put i p s.notes).Inv :=
    fun i p hp => h.put hp.kept (fun e he => h.home i e (hp.sub e he)) fun _ _ => rfl
  cases act with
  | announce an =>
    cases hs
    exact ⟨h.heard.hear an, h.kept, h.home, h.absent, h.confirmed⟩
  | note nt mem alloc =>
    cases hs
    obtain ⟨hkept, hents⟩ := Kept.noteIn (c := c) (p := s.part (shardOf nt.note.name)) (h.kept _) nt
      (h.absent _) mem alloc
    refine h.put hkept (fun e he => ?_) fun name hne => ?_
    · rcases hents e he with hname | he
      · rw [hname]
      · exact h.home _ e he
    · split
      · exact s.notes.add_of_ne nt fun hname => hne (hname ▸ rfl)
      · rfl
  | expire i nowS =>
    cases hs
    exact hshrunk i (Kept.expire (c := c) (p := s.part i) (h.kept i) nowS)
  | expireExpiries i nowS holdS =>
    cases hs
    exact hshrunk i (Kept.expireExpiries (c := c) (p := s.part i) (h.kept i) nowS holdS)
  | forget space members nowS =>
    simp only [keeperStep] at hs
    split at hs
    · rename_i hupto
      cases hs
      obtain ⟨hne, hall⟩ := clackfMin_le hupto.2
      refine ⟨h.heard, h.kept, h.home, h.absent, fun f hf => ?_⟩
      rcases mem_append.mp hf with hf | hf
      · exact h.confirmed f hf
      · obtain rfl := mem_singleton.mp hf
        refine ⟨hne, fun m hm => ?_⟩
        obtain ⟨v, hv, hle⟩ := hall m hm
        exact ⟨v, h.heard.mark hv, hle⟩
    · cases hs
      exact h
  | forgetNext j =>
    simp only [keeperStep] at hs
    split at hs
    · cases hs
    · rename_i f hf
      have hconf := h.confirmed f (mem_of_getElem? hf)
      split at hs
      · cases hs
        have hput := hshrunk f.next
          (Kept.forget (p := s.part f.next) (h.kept f.next) f.space f.upto).1
        refine ⟨hput.heard, hput.kept, hput.home, hput.absent, fun f' hf' => ?_⟩
        rcases mem_or_eq_of_mem_set hf' with hf' | rfl
        · exact h.confirmed f' hf'
        · exact hconf
      · cases hs
        exact ⟨h.heard, h.kept, h.home, h.absent,
          fun f' hf' => h.confirmed f' (mem_of_mem_eraseIdx hf')⟩

/-- **The marks forget only what the whole fleet holds.** In every run of announcements, notes,
expiries and calls of `clretain_forget` at the lowest mark of a list of members, an entry that goes
in a step of such a call stands for a delete noted at its version under a number of the call's
space; nothing newer was noted for its name since it was planted; and every member of the list had
last said, when the call was made, a mark of that space at or above the number. -/
theorem forgotten_only_confirmed {c : RetainConf} {acts : List KeeperAct} {s s' : Keeper}
    (hrun : run (keeperStep c) .new acts = some s) {j : Nat} {f : Forgetting}
    (hf : s.forgets[j]? = some f) (hs : keeperStep c s (.forgetNext j) = some s')
    {i : Nat} {e : Ent} (he : e ∈ (s.shards i).ents) (hgone : e ∉ (s'.shards i).ents) :
    e.nseq ≠ 0 ∧ (∃ nowS, .numbered e.name e.ver nowS f.space e.nseq ∈ s.notes e.name) ∧
      (∀ nt ∈ s.notes e.name, nt.note.ver ≤ e.ver) ∧
      f.members ≠ [] ∧ ∀ m ∈ f.members, ∃ v, f.said.mark m f.space = some v ∧ e.nseq ≤ v := by
  have h : s.Inv := run_invariant (I := Keeper.Inv) (fun _ _ _ h _ hs => h.step hs)
    keeper_new_inv (along_true _ _ _) hrun
  obtain ⟨hne, hall⟩ := h.confirmed f (mem_of_getElem? hf)
  simp only [keeperStep, hf] at hs
  split at hs
  · cases hs
    obtain ⟨-, htook⟩ := Kept.forget (p := s.part f.next) (h.kept f.next) f.space f.upto
    -- only the shard under the lock changes
    by_cases hi : i = f.next
    · subst hi
      obtain ⟨hnumber, hle⟩ := (htook e he).resolve_left fun hstay => hgone (by
        simpa [Keeper.put] using hstay)
      have hseq : e.nseq ≠ 0 := by
        intro h0
        simp [numberOf, h0] at hnumber
      refine ⟨hseq, (h.kept _).number e he _ hnumber, (h.kept _).newest e he, hne, fun m hm => ?_⟩
      obtain ⟨v, hv, hup⟩ := hall m hm
      exact ⟨v, hv, le_trans hle hup⟩
    · exact absurd he (by simpa [Keeper.put, update_of_ne hi] using hgone)
  · cases hs
    exact absurd he hgone

/-- Collection `u`, key `p`; its shard is the first. -/
def firstName : Name := ([0x75#8], [0x70#8])

/-- A delete is numbered 1 in a space, the one member confirms it, and the origin calls
`clretain_forget`. -/
def confirmedDelete : List KeeperAct :=
  [.note (.numbered firstName 5 1011 (7, 1) 1) true true, .announce (.member 2 1),
    .announce (.report 2 (7, 1) 1 true), .forget (7, 1) [2] 1012]

theorem forgotten_only_confirmed_one :
    ∃ s s' f e, run (keeperStep ⟨10, 100⟩) .new confirmedDelete = some s ∧
      s.forgets[0]? = some f ∧ keeperStep ⟨10, 100⟩ s (.forgetNext 0) = some s' ∧
      e ∈ (s.shards 0).ents ∧ e ∉ (s'.shards 0).ents ∧
      ∀ m ∈ f.members, ∃ v, f.said.mark m f.space = some v ∧ e.nseq ≤ v :=
  ⟨_, _, _, ⟨firstName, 5, 1011, false, .no, 0, 1⟩, rfl, rfl, rfl, by decide, by decide,
    (@forgotten_only_confirmed ⟨10, 100⟩ confirmedDelete _ _ rfl 0 _ rfl rfl 0
      ⟨firstName, 5, 1011, false, .no, 0, 1⟩ (by decide) (by decide)).2.2.2.2⟩

/-- **A delete older than the greatest that was noted is forgotten.** The plain delete at version
10 has left the table by the time rule when the one at version 5 comes. -/
theorem forgotten_below_greatest : ∃ s s' e, run (keeperStep ⟨10, 100⟩) .new
        (.note (.plain firstName 10 1000) true true :: .expire 0 1010 :: confirmedDelete) = some s ∧
      keeperStep ⟨10, 100⟩ s (.forgetNext 0) = some s' ∧
      e ∈ (s.shards 0).ents ∧ e ∉ (s'.shards 0).ents ∧ e.name = firstName ∧ e.ver < 10 :=
  ⟨_, _, ⟨firstName, 5, 1011, false, .no, 0, 1⟩, rfl, rfl, by decide, by decide, rfl, by decide⟩

/-- **A key has one tombstone, which answers the newest delete.** In every run a name has at most
one entry in the whole table, and `clretain_get` answers 0 or at least every version noted for the
name since its entry was planted. -/
theorem tombstone_of_newest (c : RetainConf) (acts : List KeeperAct) {s : Keeper}
    (hrun : run (keeperStep c) .new acts = some s) :
    (∀ i j, ∀ e ∈ (s.shards i).ents, ∀ e' ∈ (s.shards j).ents, e.name = e'.name →
      i = j ∧ e = e') ∧
    ∀ name nowS, let v := clretainGet c (s.shards (shardOf name)) name nowS
      v = 0 ∨ ∀ nt ∈ s.notes name, nt.note.ver ≤ v := by
  have h : s.Inv := run_invariant (I := Keeper.Inv) (fun _ _ _ h _ hs => h.step hs)
    keeper_new_inv (along_true _ _ _) hrun
  refine ⟨fun i j e he e' he' hname => ?_, fun name nowS => ?_⟩
  · obtain rfl : i = j := by rw [← h.home i e he, hname, h.home j e' he']
    exact ⟨rfl, inj_on_of_nodup_map (h.kept i).names he he' hname⟩
  · unfold clretainGet
    split
    · rename_i e hfind
      obtain ⟨he, rfl⟩ := (h.kept _).find_iff.mp hfind
      split_ifs
      · exact .inr ((h.kept _).newest e he)
      · exact .inl rfl
    · exact .inl rfl

theorem tombstone_of_newest_one : ∃ s, run (keeperStep ⟨10, 100⟩) .new confirmedDelete = some s ∧
      clretainGet ⟨10, 100⟩ (s.shards 0) firstName 1012 = 5 ∧
      ∀ e ∈ (s.shards 0).ents, ∀ e' ∈ (s.shards 0).ents, e.name = e'.name → e = e' :=
  ⟨_, rfl, by decide, fun e he e' he' hname =>
    ((tombstone_of_newest ⟨10, 100⟩ confirmedDelete rfl).1 0 0 e he e' he' hname).2⟩

end Perfcached.Cluster
