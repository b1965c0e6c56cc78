import Perfcached.Pubsub.Interest

/-!
# Perfcached.Pubsub.Coverage

A peer's filter never hides a publish from a subscriber of the node.

The topics a node holds are a roll: each first subscription enters with the next update number.
Every update and every full state the node sends is a sound record of the roll, and so is a
peer's view, which is put together from them. A view that covers a heartbeat has the numbers of
all topics held since then.
-/

namespace Perfcached.Pubsub

open Machine List Option Function

/-! ### The roll of topics -/

/-- The topics the node holds, with their update numbers. -/
def State.roll (s : State) : Roll Topic :=
  { present := s.node.Holds, num := s.num, count := s.node.adds }

variable {name : Name}

namespace Node

variable {n : Node} {t : Topic} {worker : Nat}

theorem map_topic_setOwners (n : Node) (t : Topic) (f : List Nat → List Nat) :
    (n.setOwners t f).map Shared.topic = n.names.map Shared.topic := by
  simp only [setOwners, List.map_map]
  refine List.map_congr_left fun e _ => ?_
  simp only [Function.comp_apply]
  split <;> rfl

theorem holds_filter (u : Topic) :
    u ∈ (n.names.filter fun e => e.topic ≠ t).map Shared.topic ↔ u ≠ t ∧ n.Holds u := by
  simp only [Holds, List.mem_map, List.mem_filter, decide_eq_true_eq]
  constructor
  · intro h
    obtain ⟨e, ⟨he, hne⟩, rfl⟩ := h
    exact ⟨hne, e, he, rfl⟩
  · intro h
    obtain ⟨hne, e, he, rfl⟩ := h
    exact ⟨e, ⟨he, hne⟩, rfl⟩

theorem mem_channels : name ∈ n.channels ↔ n.Holds (.channel name) := by
  simp only [channels, Holds, List.mem_filterMap, List.mem_map]
  refine exists_congr fun e => and_congr_right fun _ => ?_
  cases e.topic <;> simp

theorem mem_patterns : name ∈ n.patterns ↔ n.Holds (.pattern name) := by
  simp only [patterns, Holds, List.mem_filterMap, List.mem_map]
  refine exists_congr fun e => and_congr_right fun _ => ?_
  cases e.topic <;> simp

/-- Every channel held is in the node's filter. -/
def Filtered (n : Node) : Prop :=
  ∀ name, n.Holds (.channel name) → psbTest n.bloom (psbHash name) = true

theorem psbTest_foldl {names : List Name} {bits : Filter}
    (h : name ∈ names ∨ psbTest bits (psbHash name) = true) :
    psbTest (names.foldl (fun bits x => psbAdd bits (psbHash x)) bits) (psbHash name) = true := by
  induction names generalizing bits with
  | nil => exact h.resolve_left not_mem_nil
  | cons x xs ih =>
    refine ih ?_
    rcases h with hmem | hbits
    · rcases mem_cons.mp hmem with rfl | hxs
      · exact .inr (psbTest_psbAdd_self bits _)
      · exact .inl hxs
    · exact .inr (psbTest_psbAdd hbits _)

theorem filtered_interestTick (n : Node) : n.interestTick.Filtered :=
  fun _ hheld => psbTest_foldl (.inl (mem_channels.mpr hheld))

theorem intPats_eq {cap used : Nat} {xs ps : List Name} (h : intPats cap used xs = some ps) :
    ps = xs := by
  induction xs generalizing used ps with
  | nil =>
    cases h
    rfl
  | cons x xs ih =>
    obtain ⟨-, h⟩ := ite_none_left_eq_some.mp h
    obtain ⟨qs, hqs, rfl⟩ := map_eq_some_iff.mp h
    rw [ih hqs]

/-- A full state has the patterns held, or says "everything". -/
theorem interestFull_cases (n : Node) : n.interestFull = .full n.version true n.bloom [] ∨
      n.interestFull = .full n.version false n.bloom n.patterns := by
  unfold interestFull
  split
  · exact .inl rfl
  · rename_i ps hps
    split
    · exact .inl rfl
    · rw [intPats_eq hps]
      exact .inr rfl

end Node

/-! ### What the messages say -/

def Topic.content : Topic → Content
  | .channel name => .probes (psbHash name)
  | .pattern name => .text name

/-- A full state shows the topic. -/
def Shown (everything : Bool) (bloom : Filter) (pats : List Name) : Topic → Prop
  | .channel name => everything = true ∨ psbTest bloom (psbHash name) = true
  | .pattern name => everything = true ∨ name ∈ pats

/-- The message is a sound record of the roll. -/
def Msg.Honest (r : Roll Topic) : Msg → Prop
  | .alive _ => True
  | .add ver content => r.Sound (· = psvAdds ver) (fun t => content = t.content)
  | .full ver everything bloom pats => r.Sound (· ≤ psvAdds ver) (Shown everything bloom pats)

variable {r : Roll Topic} {m : Msg}

theorem Msg.Honest.enter (h : m.Honest r) (t : Topic) : m.Honest (r.enter t) := by
  cases m with
  | alive ver => trivial
  | add | full => exact Roll.Sound.enter h

theorem Msg.Honest.leave (h : m.Honest r) (t : Topic) : m.Honest (r.leave t) := by
  cases m with
  | alive ver => trivial
  | add | full => exact Roll.Sound.leave h

variable {ver : Nat} {t : Topic}

theorem honest_interestAdd (hr : r.Numbered) (hver : psvAdds ver = r.count + 1)
    (hm : m ∈ Node.interestAdd ver t) : m.Honest (r.enter t) := by
  have hadd : (Msg.add ver t.content).Honest (r.enter t) :=
    (hr.sound_enter (x := t)).mono (fun a ha => ha.trans hver) fun u hu => by rw [hu]
  cases t with
  | channel name =>
    cases hm
    exact hadd
  | pattern name =>
    obtain ⟨-, ⟨⟩⟩ := ite_none_left_eq_some.mp hm
    exact hadd

/-- A full state is as good as the node's filter. -/
theorem honest_interestFull {s : State} (hadds : s.node.adds < 2 ^ 32) (hf : s.node.Filtered) :
    s.node.interestFull.Honest s.roll := by
  have hver : psvAdds s.node.version = s.node.adds := psvAdds_psvMake hadds
  have hgiven : ∀ a, a ≤ psvAdds s.node.version → a ≤ s.roll.count := fun a ha =>
    ha.trans (le_of_eq hver)
  rcases s.node.interestFull_cases with hfull | hfull <;> rw [hfull]
  · refine ⟨hgiven, fun t _ _ => ?_⟩
    cases t <;> exact .inl rfl
  · refine ⟨hgiven, fun t ht _ => ?_⟩
    cases t with
    | channel name => exact .inr (hf name ht)
    | pattern name => exact .inr (Node.mem_patterns.mpr ht)

/-! ### What the peer keeps -/

namespace Peer

variable {p : Peer} {r : Roll Topic} {room : Name → Bool}

/-- The peer would relay for the topic. -/
def Shows (p : Peer) (t : Topic) : Prop := p.everything = true ∨ p.Includes t

/-- A view with a full state is a sound record of the roll. -/
def Faithful (r : Roll Topic) (p : Peer) : Prop :=
  p.pv.full = true → p.bloom.isSome = true ∧ r.Sound p.pv.Has p.Shows

theorem Faithful.enter (h : p.Faithful r) (t : Topic) : p.Faithful (r.enter t) :=
  fun hfull => ⟨(h hfull).1, (h hfull).2.enter⟩

theorem Faithful.leave (h : p.Faithful r) (t : Topic) : p.Faithful (r.leave t) :=
  fun hfull => ⟨(h hfull).1, (h hfull).2.leave⟩

/-- The heartbeat and the mode are not part of the record. -/
theorem Faithful.learn (h : p.Faithful r) (ver : Nat) : (p.learn ver).Faithful r := by
  unfold Peer.learn
  split <;> exact h

theorem Faithful.evaluate (h : p.Faithful r) : p.evaluate.Faithful r := h

theorem faithful_forget (p : Peer) : p.forget.Faithful r := by
  intro hfull
  cases hfull

theorem Faithful.heartbeat (h : p.Faithful r) (iv : Nat) : (p.heartbeat iv).Faithful r := by
  unfold Peer.heartbeat
  split
  · split
    · exact faithful_forget p
    · exact h
  · exact h

/-! #### Content -/

theorem fpatAdd_shows (p : Peer) (name : Name) : (p.fpatAdd room name).Shows (.pattern name) := by
  unfold fpatAdd
  split
  · exact .inr mem_cons_self
  · exact .inl rfl

theorem Shows.fpatAdd (h : p.Shows t) (name : Name) : (p.fpatAdd room name).Shows t := by
  unfold Peer.fpatAdd
  split
  · refine h.imp id fun hin => ?_
    cases t with
    | channel name' => exact hin
    | pattern name' => exact mem_cons_of_mem name hin
  · exact .inl rfl

theorem Shows.applyContent (h : p.Shows t) (content : Content) :
    (p.applyContent room content).Shows t := by
  cases content with
  | probes hs =>
    refine h.imp id fun hin => ?_
    cases t with
    | channel name =>
      obtain ⟨b, hb, htest⟩ := hin
      exact ⟨psbAdd b hs, by simp [Peer.applyContent, hb], psbTest_psbAdd htest hs⟩
    | pattern name => exact hin
  | text name => exact h.fpatAdd name

theorem applyContent_shows (hb : p.bloom.isSome = true) (t : Topic) :
    (p.applyContent room t.content).Shows t := by
  cases t with
  | channel name =>
    obtain ⟨b, hb⟩ := isSome_iff_exists.mp hb
    exact .inr ⟨psbAdd b (psbHash name), by simp [applyContent, Topic.content, hb],
      psbTest_psbAdd_self b _⟩
  | pattern name => exact fpatAdd_shows p name

theorem applyContent_bloom (content : Content) :
    (p.applyContent room content).bloom.isSome = p.bloom.isSome := by
  cases content with
  | probes h => simp [applyContent]
  | text name =>
    simp only [applyContent, fpatAdd]
    split <;> rfl

theorem applyContent_pv (content : Content) : (p.applyContent room content).pv = p.pv := by
  cases content with
  | probes h => rfl
  | text name =>
    simp only [applyContent, fpatAdd]
    split <;> rfl

theorem foldl_fpatAdd_bloom (pats : List Name) : (pats.foldl (fpatAdd room) p).bloom = p.bloom := by
  induction pats generalizing p with
  | nil => rfl
  | cons x xs ih =>
    rw [foldl_cons, ih, fpatAdd]
    split <;> rfl

theorem Shows.foldl_fpatAdd (h : p.Shows t) (pats : List Name) :
    (pats.foldl (Peer.fpatAdd room) p).Shows t := by
  induction pats generalizing p with
  | nil => exact h
  | cons x xs ih => exact ih (h.fpatAdd x)

theorem foldl_fpatAdd_shows {pats : List Name} (h : name ∈ pats) :
    (pats.foldl (fpatAdd room) p).Shows (.pattern name) := by
  induction pats generalizing p with
  | nil => cases h
  | cons x xs ih =>
    rcases mem_cons.mp h with rfl | hxs
    · exact (fpatAdd_shows p name).foldl_fpatAdd xs
    · exact ih hxs

/-! #### Messages -/

/-- The view after an update has at most its number more. -/
theorem psvAdd_has {v : View} {a : Nat} (h : (psvAdd v ver).1.Has a) :
    v.Has a ∨ a = psvAdds ver := by
  unfold psvAdd at h
  dsimp only at h
  split at h
  · exact .inl h
  · split at h
    · exact .inl h
    · replace h := (Watermark.has_settle 64).mp h
      split at h
      · rename_i hd
        rcases (Watermark.has_mark hd).mp h with hold | heq
        · exact .inl hold
        · exact .inr (by omega)
      · exact .inl h

theorem psvAdd_full (v : View) (ver : Nat) : (psvAdd v ver).1.full = v.full := by
  unfold psvAdd
  dsimp only
  split
  · rfl
  · split <;> rfl

/-- An update that is not applied leaves the view. -/
theorem psvAdd_foreign {v : View} (h : (psvAdd v ver).2 = false) : (psvAdd v ver).1 = v := by
  unfold psvAdd at h ⊢
  dsimp only at h ⊢
  split at h
  · rw [if_pos (by assumption)]
  · split at h <;> cases h

theorem Faithful.handleIntAdd (h : p.Faithful r) {content : Content}
    (hm : (Msg.add ver content).Honest r) (room : Name → Bool) :
    (p.handleIntAdd ver content room).Faithful r := by
  unfold Peer.handleIntAdd
  split
  · exact h
  · refine Faithful.evaluate (Faithful.learn ?_ ver)
    split
    · intro hfull
      rw [applyContent_pv] at hfull
      obtain ⟨hbloom, hsound⟩ := h (by rw [← psvAdd_full p.pv ver]; exact hfull)
      refine ⟨by rw [applyContent_bloom]; exact hbloom, ?_⟩
      rw [applyContent_pv]
      refine (hsound.or hm).mono (fun a ha => psvAdd_has ha) fun t ht => ?_
      rcases ht with hold | rfl
      · exact Shows.applyContent (p := { p with pv := (psvAdd p.pv ver).1 }) hold content
      · exact applyContent_shows (p := { p with pv := (psvAdd p.pv ver).1 }) hbloom t
    · rename_i hforeign
      rw [psvAdd_foreign (by simpa using hforeign)]
      exact h

theorem Faithful.handleIntFull (h : p.Faithful r) {everything : Bool} {bloom : Filter}
    {pats : List Name} (hm : (Msg.full ver everything bloom pats).Honest r) (mem : Bool)
    (room : Name → Bool) : (p.handleIntFull ver everything bloom pats mem room).Faithful r := by
  unfold Peer.handleIntFull
  split
  · exact h
  · split
    · exact h
    · refine Faithful.evaluate (Faithful.learn ?_ ver)
      intro _
      -- the peer as it was before the patterns are put in
      generalize hq : ({ p with bloom := some bloom, pats := [], everything := everything } :
        Peer) = q
      have hqb : q.bloom = some bloom := by rw [← hq]
      have hqe : q.everything = everything := by rw [← hq]
      refine ⟨by rw [foldl_fpatAdd_bloom, hqb]; rfl, ?_⟩
      refine hm.mono (fun a ha => Watermark.has_zero.mp ha) fun t ht => ?_
      have hev (he : everything = true) : (pats.foldl (fpatAdd room) q).Shows t :=
        Shows.foldl_fpatAdd (.inl (hqe.trans he)) pats
      cases t with
      | channel name =>
        rcases ht with he | htest
        · exact hev he
        · exact Shows.foldl_fpatAdd (t := .channel name) (.inr ⟨bloom, hqb, htest⟩) pats
      | pattern name =>
        rcases ht with he | hmem
        · exact hev he
        · exact foldl_fpatAdd_shows hmem

theorem Faithful.handle (h : p.Faithful r) (hm : m.Honest r) (mem : Bool) (room : Name → Bool) :
    (p.handle mem room m).Faithful r := by
  cases m with
  | alive ver => exact h.heartbeat ver
  | add ver content => exact h.handleIntAdd hm room
  | full ver everything bloom pats => exact h.handleIntFull hm mem room

/-- The mode is that of the fields, after every message. -/
theorem handle_mode (h : p.mode = p.evalMode) (mem : Bool) (room : Name → Bool) (m : Msg) :
    (p.handle mem room m).mode = (p.handle mem room m).evalMode := by
  cases m with
  | alive ver =>
    simp only [handle, heartbeat]
    split
    · split
      · rfl
      · exact h
    · rfl
  | add ver content =>
    simp only [handle, handleIntAdd]
    split
    · exact h
    · rfl
  | full ver everything bloom pats =>
    simp only [handle, handleIntFull]
    split
    · exact h
    · split
      · exact h
      · rfl

end Peer

/-! ### Runs -/

structure Inv (s : State) : Prop where
  numbered : s.roll.Numbered
  filtered : s.node.Filtered
  honest : ∀ m ∈ s.sent, m.Honest s.roll
  faithful : s.peer.Faithful s.roll
  mode : s.peer.mode = s.peer.evalMode

theorem inv_start (epoch : Nat) : Inv (start epoch) where
  numbered := fun t ht => by cases ht
  filtered := fun name hname => by cases hname
  honest := fun m hm => by cases hm
  faithful := fun hfull => by cases hfull
  mode := rfl

variable {s s' : State} {a : Act}

/-- A step that changes neither the roll nor the node's filter. -/
theorem Inv.of_same (hinv : Inv s) (hroll : s'.roll = s.roll)
    (hbloom : s'.node.bloom = s.node.bloom) (hsent : ∀ m ∈ s'.sent, m.Honest s.roll)
    (hpeer : s'.peer.Faithful s.roll) (hmode : s'.peer.mode = s'.peer.evalMode) : Inv s' := by
  have hholds : s'.node.Holds = s.node.Holds := congrArg Roll.present hroll
  refine ⟨hroll ▸ hinv.numbered, fun name hname => ?_, hroll ▸ hsent, hroll ▸ hpeer, hmode⟩
  rw [hholds] at hname
  rw [hbloom]
  exact hinv.filtered name hname

theorem roll_setOwners (s : State) (t : Topic) (f : List Nat → List Nat) :
    State.roll { s with node := { s.node with names := s.node.setOwners t f } } = s.roll := by
  simp only [State.roll, Roll.mk.injEq, and_true]
  funext u
  simp only [Node.Holds, Node.map_topic_setOwners]

theorem Inv.join (hinv : Inv s) (t : Topic) (worker : Nat)
    (h : step s (.join t worker) = some s') (hadds : s'.node.adds < 2 ^ 32) : Inv s' := by
  by_cases hheld : s.node.Holds t
  · simp only [step, Node.sharedJoin, if_pos hheld, some.injEq] at h
    subst h
    exact hinv.of_same (roll_setOwners s t _) rfl hinv.honest hinv.faithful hinv.mode
  · simp only [step, Node.sharedJoin, if_neg hheld, some.injEq] at h
    subst h
    -- the node's first: the topic enters the roll
    generalize hs' : (State.mk _ _ _ _) = s' at hadds ⊢
    have hroll : s'.roll = s.roll.enter t := by
      rw [← hs']
      simp only [State.roll, Roll.enter, Roll.mk.injEq, and_self, and_true]
      funext u
      simp only [Node.Holds, map_cons, mem_cons]
    have hcount : psvAdds s'.node.version = s.roll.count + 1 := by
      have hs : s'.node.adds = s.node.adds + 1 := by rw [← hs']
      exact (psvAdds_psvMake hadds).trans hs
    refine ⟨hroll ▸ hinv.numbered.enter, ?_, ?_, ?_, ?_⟩
    · intro name hname
      rw [← hs'] at hname ⊢
      rcases mem_cons.mp hname with rfl | hold
      · exact psbTest_psbAdd_self _ _
      · have htest := hinv.filtered name hold
        cases t with
        | channel name' => exact psbTest_psbAdd htest _
        | pattern name' => exact htest
    · intro m hm
      rw [hroll]
      rw [← hs'] at hm hcount
      rcases mem_append.mp hm with hnew | hold
      · exact honest_interestAdd hinv.numbered hcount (mem_toList.mp hnew)
      · exact (hinv.honest m hold).enter t
    · rw [hroll, ← hs']
      exact hinv.faithful.enter t
    · rw [← hs']
      exact hinv.mode

theorem Inv.leave (hinv : Inv s) (t : Topic) (worker : Nat)
    (h : step s (.leave t worker) = some s') : Inv s' := by
  obtain ⟨-, ⟨⟩⟩ := ite_none_right_eq_some.mp h
  by_cases hlast : ((s.node.owners t).filter (· ≠ worker)).isEmpty = true
  · rw [Node.sharedLeave, if_pos hlast]
    generalize hs' : (State.mk _ _ _ _) = s'
    have hroll : s'.roll = s.roll.leave t := by
      rw [← hs']
      simp only [State.roll, Roll.leave, Roll.mk.injEq, and_true]
      funext u
      exact propext (Node.holds_filter u)
    refine ⟨hroll ▸ hinv.numbered.leave, ?_, ?_, ?_, ?_⟩
    · intro name hname
      rw [← hs'] at hname ⊢
      exact hinv.filtered name ((Node.holds_filter _).mp hname).2
    · intro m hm
      rw [← hs'] at hm
      exact hroll ▸ (hinv.honest m hm).leave t
    · rw [hroll, ← hs']
      exact hinv.faithful.leave t
    · rw [← hs']
      exact hinv.mode
  · rw [Node.sharedLeave, if_neg hlast]
    exact hinv.of_same (roll_setOwners s t _) rfl hinv.honest hinv.faithful hinv.mode

theorem Inv.tick (hinv : Inv s) (h : step s .tick = some s') : Inv s' := by
  obtain ⟨-, ⟨⟩⟩ := ite_none_right_eq_some.mp h
  exact ⟨hinv.numbered, Node.filtered_interestTick s.node, hinv.honest, hinv.faithful, hinv.mode⟩

/-- The invariant is kept while the update count does not wrap. -/
theorem Inv.step (hinv : Inv s) (h : step s a = some s') (hadds : s'.node.adds < 2 ^ 32) :
    Inv s' := by
  cases a with
  | join t worker => exact hinv.join t worker h hadds
  | leave t worker => exact hinv.leave t worker h
  | tick => exact hinv.tick h
  | beat =>
    cases h
    refine hinv.of_same rfl rfl (fun m hm => ?_) hinv.faithful hinv.mode
    rcases mem_cons.mp hm with rfl | hold
    · trivial
    · exact hinv.honest m hold
  | request =>
    cases h
    refine hinv.of_same rfl rfl (fun m hm => ?_) hinv.faithful hinv.mode
    rcases mem_cons.mp hm with rfl | hold
    · exact honest_interestFull hadds hinv.filtered
    · exact hinv.honest m hold
  | deliver i mem room =>
    obtain ⟨m, hm, rfl⟩ := map_eq_some_iff.mp h
    have hhonest := hinv.honest m (mem_of_getElem? hm)
    exact hinv.of_same rfl rfl hinv.honest (hinv.faithful.handle hhonest mem room)
      (Peer.handle_mode hinv.mode mem room m)
  | forget =>
    cases h
    exact hinv.of_same rfl rfl hinv.honest (Peer.faithful_forget s.peer) rfl

theorem adds_le_of_step (h : Pubsub.step s a = some s') : s.node.adds ≤ s'.node.adds := by
  cases a with
  | join t worker =>
    cases h
    simp only [Node.sharedJoin]
    split
    · exact le_rfl
    · exact Nat.le_succ _
  | leave t worker =>
    obtain ⟨-, ⟨⟩⟩ := ite_none_right_eq_some.mp h
    simp only [Node.sharedLeave]
    split <;> exact le_rfl
  | tick =>
    obtain ⟨-, ⟨⟩⟩ := ite_none_right_eq_some.mp h
    exact le_rfl
  | beat | request | forget =>
    cases h
    exact le_rfl
  | deliver i mem room =>
    obtain ⟨m, -, rfl⟩ := map_eq_some_iff.mp h
    exact le_rfl

theorem num_of_step (hheld : s.node.Holds t) (h : Pubsub.step s a = some s') :
    s'.num t = s.num t := by
  cases a with
  | join u worker =>
    cases h
    split
    · rfl
    · rename_i hnew
      have hne : t ≠ u := fun heq => hnew (heq ▸ hheld)
      exact update_of_ne hne _ _
  | leave | tick =>
    simp only [Pubsub.step] at h
    split at h <;> cases h
    rfl
  | beat | request | forget =>
    cases h
    rfl
  | deliver i mem room =>
    obtain ⟨m, -, rfl⟩ := map_eq_some_iff.mp h
    rfl

variable {as bs : List Act}

theorem inv_run (hinv : s.node.adds < 2 ^ 32 → Inv s) (hrun : run step s as = some s')
    (hadds : s'.node.adds < 2 ^ 32) : Inv s' := by
  refine run_invariant (I := fun x => x.node.adds < 2 ^ 32 → Inv x) ?_ hinv
    (along_true step s as) hrun hadds
  intro x a x' hx _ hstep hx'
  exact (hx (lt_of_le_of_lt (adds_le_of_step hstep) hx')).step hstep hx'

theorem adds_le_of_run (hrun : run step s as = some s') : s.node.adds ≤ s'.node.adds := by
  refine run_invariant (I := fun x => s.node.adds ≤ x.node.adds) ?_ le_rfl
    (along_true step s as) hrun
  intro x a x' hx _ hstep
  exact hx.trans (adds_le_of_step hstep)

theorem num_of_run (hheld : Along step (fun x _ => x.node.Holds t) s as)
    (hrun : run step s as = some s') : s'.num t = s.num t := by
  refine run_invariant (I := fun x => x.num t = s.num t) ?_ rfl hheld hrun
  intro x a x' hx hok hstep
  exact (num_of_step hok hstep).trans hx

/-- The view covers a heartbeat: it has the number of every topic held since. -/
theorem shows_of_covered (hinv : Inv s) (hinv' : Inv s') (hs : s.node.adds < 2 ^ 32)
    (hheld : s.node.Holds t) (hheld' : s'.node.Holds t) (hnum : s'.num t = s.num t)
    (hcov : psvCovered s'.peer.pv s.node.version = true) : s'.peer.Shows t := by
  simp only [psvCovered, Bool.and_eq_true, decide_eq_true_eq] at hcov
  obtain ⟨⟨⟨hfull, -⟩, -⟩, hupto⟩ := hcov
  refine (hinv'.faithful hfull).2.shown t hheld' (.inl ?_)
  calc s'.num t = s.num t := hnum
    _ ≤ s.node.adds := hinv.numbered t hheld
    _ = psvAdds s.node.version := (psvAdds_psvMake hs).symm
    _ ≤ s'.peer.pv.upto := hupto

/-- A publish on the channel is one for the topic. -/
def Topic.Wants (glob : Name → Name → Bool) (chan : Name) : Topic → Prop
  | .channel name => name = chan
  | .pattern name => glob name chan = true

/-- A peer that filters does not want everything. -/
theorem Peer.everything_of_filter {p : Peer} (h : p.evalMode = .filter) : p.everything = false := by
  unfold Peer.evalMode at h
  split at h
  · cases h
  · split at h
    · cases h
    · rename_i hno
      simp only [Bool.or_eq_true, not_or, Bool.not_eq_true] at hno
      exact hno.1.2

theorem Peer.Shows.not_skips {p : Peer} (h : p.Shows t) (hmode : p.mode = p.evalMode)
    {glob : Name → Name → Bool} {chan : Name} (hw : t.Wants glob chan) :
    p.skips glob chan = false := by
  unfold Peer.skips
  by_cases hfilter : p.mode = .filter
  · have heverything := Peer.everything_of_filter (hmode.symm.trans hfilter)
    have hin : p.Includes t := h.resolve_left (by simp [heverything])
    cases t with
    | channel name =>
      obtain ⟨b, hb, htest⟩ := hin
      have heq : name = chan := hw
      rw [heq] at htest
      rw [hb, elim_some, htest, Bool.not_true, Bool.and_false]
    | pattern name =>
      have hany : (p.pats.any fun x => glob x chan) = true := any_eq_true.mpr ⟨name, hin, hw⟩
      rw [hany, Bool.not_true, Bool.and_false, Bool.false_and]
  · simp only [hfilter, decide_false, Bool.false_and]

/-- In every run of subscriptions, leaves, rebuilds, heartbeats and full states of a node that
starts with none, its messages arriving in any order, again, or never, and with an update count
that does not wrap: when the view of a peer covers the version `h` that the node's heartbeat
carries in a state, the view includes every channel and pattern the node held then and has held
ever since, or is marked as wanting everything. So no publish that such a subscription wants is
skipped. -/
theorem interest_covers (epoch : Nat) (hrun : run step (start epoch) as = some s)
    (hrest : run step s bs = some s') (hadds : s'.node.adds < 2 ^ 32) {t : Topic}
    (hheld : Along step (fun x _ => x.node.Holds t) s bs) (hnow : s'.node.Holds t)
    (hcov : psvCovered s'.peer.pv s.node.version = true) :
    (s'.peer.everything = true ∨ s'.peer.Includes t) ∧
      ∀ glob chan, t.Wants glob chan → s'.peer.skips glob chan = false := by
  have hs : s.node.adds < 2 ^ 32 := lt_of_le_of_lt (adds_le_of_run hrest) hadds
  have hinv : Inv s := inv_run (fun _ => inv_start epoch) hrun hs
  have hinv' : Inv s' := inv_run (fun _ => hinv) hrest hadds
  have hthen : s.node.Holds t := by
    cases bs with
    | nil =>
      cases hrest
      exact hnow
    | cons b bs => exact hheld.1
  have hshows : s'.peer.Shows t :=
    shows_of_covered hinv hinv' hs hthen hnow (num_of_run hheld hrest) hcov
  exact ⟨hshows, fun glob chan hw => hshows.not_skips hinv'.mode hw⟩

def oneJoin : List Act := [.join (.channel [97#8]) 0]

/-- The node sends its full state and the peer gets it. -/
def oneFull : List Act := [.request, .deliver 0 true fun _ => true]

theorem interest_covers_oneJoin : ∃ s s', run step (start 1) oneJoin = some s ∧
    run step s oneFull = some s' ∧ psvCovered s'.peer.pv s.node.version = true ∧
    (s'.peer.everything = true ∨ s'.peer.Includes (.channel [97#8])) := by
  refine ⟨_, _, rfl, rfl, by decide, ?_⟩
  exact (interest_covers 1 (show run step (start 1) oneJoin = some _ from rfl)
    (show run step _ oneFull = some _ from rfl) (by decide)
    ⟨mem_cons_self, mem_cons_self, trivial⟩ mem_cons_self (by decide)).1

/-- Channel `a` is left, the filter rebuilt and the full state fetched. -/
def leaveAndRebuild : List Act := [.leave (.channel [97#8]) 0, .tick] ++ oneFull

/-- A topic left since the heartbeat need not be included. The view covers the heartbeat sent
while channel `a` was held, by a full state made after it was left. -/
theorem covered_after_leave : ∃ s s', run step (start 1) oneJoin = some s ∧
    run step s leaveAndRebuild = some s' ∧ s'.node.adds < 2 ^ 32 ∧
    s.node.Holds (.channel [97#8]) ∧ psvCovered s'.peer.pv s.node.version = true ∧
    ¬ (s'.peer.everything = true ∨ s'.peer.Includes (.channel [97#8])) := by
  refine ⟨_, _, rfl, rfl, by decide, mem_cons_self, by decide, ?_⟩
  intro h
  rcases h with heverything | ⟨b, hb, htest⟩
  · cases heverything
  · cases hb
    have hzero : psbTest Bitmap.zero (psbHash [97#8]) = true := htest
    rw [psbTest_zero] at hzero
    cases hzero

end Perfcached.Pubsub
