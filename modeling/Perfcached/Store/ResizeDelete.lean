import Perfcached.Store.Resize

/-!
# Perfcached.Store.ResizeDelete

Deletes of a key while its collection is resized.

A delete removes the key from the other table of the resize first and from the table it resolved
last. After the swap that is the order the drain copies in. Before it the copier runs the other way:
a copy made between the two removes survives in the table about to be published, and so does one
that was read before the delete and stored after it. Nor does a delete that looked for the other
table before the resize started, or resolved its table before the swap and looks after it, reach
the copy.

A key stays deleted where none of these happens (`Resizing.Parted`).
-/

namespace Perfcached.Resize

open Bytes Machine List Option

/-- The copier has a record in hand only while the resize runs its passes. -/
def Resizing.CopierIn (s : Resizing) : Prop :=
  s.copier = .rest ∨ s.phase = .filling ∨ s.phase = .swapped

/-- A delete that has still to look for the other table. -/
def Req.unlooked : Req → Bool
  | .del _ _ .resolved => true
  | _ => false

/-- A delete that has only the old table left to remove the key from. -/
def Req.oldLeft : Req → Bool
  | .del _ .old .own => true
  | _ => false

def Resizing.noSet (s : Resizing) : Bool := s.reqs.all fun q => !(q.running && q.isSet)

/-- The tables are swapped while no delete of the key has still to look for the other one. A copy is
stored while the table it was read from still has the key, and no delete has only that table left to
remove it from. -/
def Resizing.Parted (k : Key) (s : Resizing) : Act → Prop
  | .swap => ∀ q ∈ s.reqs, q.unlooked = false
  | .copy _ =>
    match s.copier with
    | .held _ => s.old.lookup k ≠ none ∧ ∀ q ∈ s.reqs, q.oldLeft = false
    | _ => True
  | _ => True

instance (k : Key) (s : Resizing) : DecidablePred (s.Parted k) := fun a => by
  unfold Resizing.Parted
  repeat' split
  all_goals infer_instance

def Act.writes : Act → Bool
  | .beginSet .. => true
  | _ => false

/-- The key is in neither table, or only in one that no read resolves again. -/
def Resizing.Clear (k : Key) (s : Resizing) : Prop :=
  (s.old.lookup k = none ∨ s.phase = .ended) ∧ (s.new.lookup k = none ∨ s.phase = .idle)

/-- How far a delete of the key has come. -/
def Resizing.Deleting (k : Key) (s : Resizing) (on : Side) : DelPc → Prop
  | .resolved => s.phase.live = on
  | .shadow sh => sh ≠ on
  | .own =>
    match on with
    | .old => s.new.lookup k = none ∨ s.phase = .idle
    | .new => s.old.lookup k = none ∨ s.phase = .ended
  | .done => s.Clear k

section Steps

variable {ed : Edition} {A : Arena} {k : Key} {s s' : Resizing}

/-! ### What the steps leave -/

@[simp] theorem remove_phase (tid : Nat) (ht : Side) :
    (s.remove ed k tid ht).phase = s.phase := by
  cases ht <;> rfl

@[simp] theorem remove_copier (tid : Nat) (ht : Side) :
    (s.remove ed k tid ht).copier = s.copier := by
  cases ht <;> rfl

theorem lookup_removeImpl_zero (clock : Nat) (t : Table) (k : Key) :
    (removeImpl clock t k 0 false).table.lookup k = none := by
  rw [lookup_removeImpl, if_pos rfl, filter_not_under_zero]

open Resizing

/-- A remove takes the key out of its table and leaves the other. -/
@[simp] theorem lookup_remove_old (tid : Nat) (ht : Side) :
    (s.remove ed k tid ht).old.lookup k = if ht = .old then none else s.old.lookup k := by
  cases ht <;> simp [remove, put, table, lookup_removeImpl_zero]

@[simp] theorem lookup_remove_new (tid : Nat) (ht : Side) :
    (s.remove ed k tid ht).new.lookup k = if ht = .new then none else s.new.lookup k := by
  cases ht <;> simp [remove, put, table, lookup_removeImpl_zero]

theorem Resizing.forget_lacks (ht : Side) (f : Forget) (h : s.old.lookup k = none) :
    (s.forget k ht f).1.lookup k = none := by
  cases f with
  | load => exact h
  | getver =>
    simp only [forget]
    split <;> exact h
  | drop ver => simp [forget, htRemoveBelow, lookup_removeImpl, h]

variable {on : Side} {pc : DelPc}

/-- What a delete has done stays done while no copy is stored and the tables keep their places. -/
theorem Resizing.Deleting.keep (h : s.Deleting k on pc) (hlive : s'.phase.live = s.phase.live)
    (hidle : s.phase = .idle → s'.phase = .idle) (hended : s.phase = .ended → s'.phase = .ended)
    (hold : s.old.lookup k = none → s'.old.lookup k = none)
    (hnew : s.new.lookup k = none → s'.new.lookup k = none) : s'.Deleting k on pc := by
  cases pc with
  | resolved => exact hlive.trans h
  | shadow sh => exact h
  | own =>
    cases on with
    | old => exact h.imp hnew hidle
    | new => exact h.imp hold hended
  | done => exact ⟨h.1.imp hold hended, h.2.imp hnew hidle⟩

theorem Resizing.Deleting.mono (h : s.Deleting k on pc) (hphase : s'.phase = s.phase)
    (hold : s.old.lookup k = none → s'.old.lookup k = none)
    (hnew : s.new.lookup k = none → s'.new.lookup k = none) : s'.Deleting k on pc :=
  h.keep (by rw [hphase]) hphase.trans hphase.trans hold hnew

variable {tid : Nat}

theorem Resizing.Deleting.delNext {pc' : DelPc} (h : s.Deleting k on pc)
    (hstep : s.delNext ed k tid on pc = some (s', pc')) : s'.Deleting k on pc' := by
  cases pc with
  | resolved =>
    have hlive : s.phase.live = on := h
    simp only [delNext, Phase.resizeShadow, hlive, if_true] at hstep
    cases hp : s.phase <;> simp [hp, Phase.rsTo] at hstep <;> obtain ⟨rfl, rfl⟩ := hstep <;>
      subst hlive <;> simp [Deleting, hp, Phase.live]
  | shadow sh =>
    obtain ⟨rfl, rfl⟩ := hstep
    cases on <;> cases sh
    · exact absurd rfl h
    · exact .inl (by simp)
    · exact .inl (by simp)
    · exact absurd rfl h
  | own =>
    obtain ⟨rfl, rfl⟩ := hstep
    cases on with
    | old => exact ⟨.inl (by simp), h.imp (by simp) (by simp)⟩
    | new => exact ⟨h.imp (by simp) (by simp), .inl (by simp)⟩
  | done => cases hstep

theorem Resizing.delNext_lacks {pc' : DelPc} (hstep : s.delNext ed k tid on pc = some (s', pc')) :
    s'.phase = s.phase ∧ s'.copier = s.copier ∧ (s.old.lookup k = none → s'.old.lookup k = none) ∧
      (s.new.lookup k = none → s'.new.lookup k = none) := by
  cases pc with
  | resolved =>
    simp only [delNext] at hstep
    split at hstep <;> cases hstep <;> simp
  | shadow | own =>
    cases hstep
    simp +contextual
  | done => cases hstep

variable {now : Nat}

theorem Resizing.setNext_frame {expires : Nat} {v : List Byte} {pc : SetPc} {x : Resizing × SetPc}
    (hstep : s.setNext ed A k now v expires tid on pc = some x) :
    x.1.phase = s.phase ∧ x.1.copier = s.copier := by
  cases pc with
  | resolved =>
    simp only [setNext] at hstep
    split at hstep <;> cases hstep <;> exact ⟨rfl, rfl⟩
  | fetched nver at_ =>
    simp only [setNext] at hstep
    split at hstep
    · split at hstep <;> cases hstep <;> exact ⟨rfl, rfl⟩
    · cases hstep
      exact ⟨rfl, rfl⟩
  | storing =>
    simp only [setNext] at hstep
    split at hstep <;> cases hstep
    · cases on <;> exact ⟨rfl, rfl⟩
    · exact ⟨rfl, rfl⟩
  | carrying | forget =>
    cases hstep
    exact ⟨rfl, rfl⟩
  | done => cases hstep

theorem Resizing.next_frame {i : Nat} (hstep : s.next ed A k i now = some s') :
    s'.phase = s.phase ∧ s'.copier = s.copier := by
  unfold next at hstep
  split at hstep
  · obtain ⟨x, hx, rfl⟩ := map_eq_some_iff.mp hstep
    exact setNext_frame hx
  · obtain ⟨x, hx, rfl⟩ := map_eq_some_iff.mp hstep
    exact ⟨rfl, rfl⟩
  · obtain ⟨⟨s₁, pc⟩, hx, rfl⟩ := map_eq_some_iff.mp hstep
    exact ⟨(delNext_lacks hx).1, (delNext_lacks hx).2.1⟩
  · cases hstep

theorem Resizing.copy_frame (hstep : s.copy ed A k now = some s') :
    s'.phase = s.phase ∧ s'.reqs = s.reqs ∧ s.copier ≠ .rest := by
  unfold copy at hstep
  split at hstep
  · cases hstep
  · rename_i hc
    split at hstep <;> cases hstep <;> simp [hc, storeCopy]
  · rename_i hc
    cases hstep
    simp [hc]

theorem Resizing.rest_of_passDone (h : s.passDone = true) : s.copier = .rest := by
  simp only [passDone, Bool.and_eq_true, decide_eq_true_eq] at h
  exact h.2

theorem Resizing.CopierIn.step {a : Act} (h : s.CopierIn) (hstep : s.step ed A k a = some s') :
    s'.CopierIn := by
  cases a with
  | next i now =>
    obtain ⟨hphase, hcopier⟩ := Resizing.next_frame hstep
    simpa only [Resizing.CopierIn, hphase, hcopier] using h
  | copy now =>
    obtain ⟨hphase, -, hrest⟩ := Resizing.copy_frame hstep
    exact .inr (by rw [hphase]; exact h.resolve_left hrest)
  | start =>
    obtain ⟨-, hstep⟩ := ite_none_right_eq_some.mp hstep
    cases hstep
    exact .inl rfl
  | walk =>
    obtain ⟨hin, hstep⟩ := ite_none_right_eq_some.mp hstep
    cases hstep
    exact .inr hin.1
  | endPass =>
    obtain ⟨-, hstep⟩ := ite_none_right_eq_some.mp hstep
    cases hstep
    exact h
  | swap =>
    obtain ⟨-, hstep⟩ := ite_none_right_eq_some.mp hstep
    cases hstep
    exact .inr (.inr rfl)
  | close =>
    obtain ⟨⟨-, hdone, -⟩, hstep⟩ := ite_none_right_eq_some.mp hstep
    cases hstep
    exact .inl (Resizing.rest_of_passDone hdone)
  | finish =>
    obtain ⟨hclosing, hstep⟩ := ite_none_right_eq_some.mp hstep
    cases hstep
    exact .inl (h.resolve_right (by simp [hclosing]))
  | beginSet | beginGet | beginDel | elsewhere =>
    cases hstep
    exact h

/-! ### The delete `d`, and after it -/

/-- Delete `d` has begun, no SET is running, and the delete has come as far as `Deleting` says. -/
structure Resizing.Deleted (k : Key) (d : Nat) (s : Resizing) : Prop where
  copierIn : s.CopierIn
  noSet : s.noSet = true
  deleting : ∃ tid on pc, s.reqs[d]? = some (.del tid on pc) ∧ s.Deleting k on pc

variable {d : Nat}

theorem Resizing.Deleted.copy (h : s.Deleted k d) (hok : s.Parted k (.copy now))
    (hstep : s.copy ed A k now = some s') : s'.Deleted k d := by
  obtain ⟨hphase, hreqs, hbusy⟩ := Resizing.copy_frame hstep
  have hin := h.copierIn.resolve_left hbusy
  obtain ⟨tid, on, pc, hd, hdel⟩ := h.deleting
  refine ⟨.inr (by rw [hphase]; exact hin), by rw [Resizing.noSet, hreqs]; exact h.noSet,
    tid, on, pc, hreqs ▸ hd, ?_⟩
  unfold Resizing.copy at hstep
  split at hstep
  · cases hstep
  · rename_i r hc
    simp only [Resizing.Parted, hc] at hok
    obtain ⟨hhas, hleft⟩ := hok
    have hnot : ¬ (s.old.lookup k = none ∨ s.phase = .ended) := by
      rintro (hnone | hended)
      · exact hhas hnone
      · simp [hended] at hin
    split at hstep
    · cases hstep
      exact hdel.mono rfl id id
    · cases hstep
      cases pc with
      | resolved | shadow => exact hdel
      | own =>
        cases on with
        | old => cases hleft _ (mem_of_getElem? hd)
        | new => exact absurd hdel hnot
      | done => exact absurd hdel.1 hnot
  · cases hstep
    exact hdel.mono rfl (Resizing.forget_lacks _ _) id

theorem Resizing.noSet_set {q : Req} (h : s.noSet = true) (i : Nat) (hset : q.isSet = false) :
    ((s.reqs.set i q).all fun q => !(q.running && q.isSet)) = true := by
  refine all_eq_true.mpr fun x hx => ?_
  rcases mem_or_eq_of_mem_set hx with hmem | rfl
  · exact all_eq_true.mp h x hmem
  · simp [hset]

theorem Resizing.noSet_append {q : Req} (h : s.noSet = true) (hset : q.isSet = false) :
    ((s.reqs ++ [q]).all fun q => !(q.running && q.isSet)) = true := by
  refine all_eq_true.mpr fun x hx => ?_
  rcases mem_append.mp hx with hmem | hmem
  · exact all_eq_true.mp h x hmem
  · simp [mem_singleton.mp hmem, hset]

/-- No SET takes a step, and a step of a request takes the key from tables only. -/
theorem Resizing.Deleted.next {i : Nat} (h : s.Deleted k d)
    (hstep : s.next ed A k i now = some s') : s'.Deleted k d := by
  obtain ⟨hphase, hcopier⟩ := Resizing.next_frame hstep
  obtain ⟨tid, on, pc, hd, hdel⟩ := h.deleting
  have hcop : s'.CopierIn := by
    simpa only [Resizing.CopierIn, hphase, hcopier] using h.copierIn
  unfold Resizing.next at hstep
  split at hstep
  · rename_i v expires tid' on' prior pc' hq
    obtain ⟨x, hx, rfl⟩ := map_eq_some_iff.mp hstep
    have hno := all_eq_true.mp h.noSet _ (mem_of_getElem? hq)
    cases pc' with
    | done => cases hx
    | resolved | carrying | fetched | storing | forget => simp [Req.running, Req.isSet] at hno
  · rename_i now' on' prior pc' hq
    obtain ⟨x, hx, rfl⟩ := map_eq_some_iff.mp hstep
    have hdi : i ≠ d := by
      rintro rfl
      cases hq.symm.trans hd
    exact ⟨hcop, s.noSet_set h.noSet i rfl, tid, on, pc, by rwa [getElem?_set_ne hdi],
      hdel.mono rfl id id⟩
  · rename_i tid' on' pc' hq
    obtain ⟨⟨s₁, pc₁⟩, hx, rfl⟩ := map_eq_some_iff.mp hstep
    refine ⟨hcop, s.noSet_set h.noSet i rfl, ?_⟩
    by_cases hdi : i = d
    · subst hdi
      cases hq.symm.trans hd
      have hlt : i < s.reqs.length := (List.getElem?_eq_some_iff.mp hd).1
      exact ⟨tid, on, pc₁, getElem?_set_self hlt, (hdel.delNext hx).mono rfl id id⟩
    · obtain ⟨-, -, hold, hnew⟩ := Resizing.delNext_lacks hx
      exact ⟨tid, on, pc, by rwa [getElem?_set_ne hdi], hdel.mono hphase hold hnew⟩
  · cases hstep

theorem Resizing.Deleted.step {a : Act} (h : s.Deleted k d) (hok : s.Parted k a ∧ a.writes = false)
    (hstep : s.step ed A k a = some s') : s'.Deleted k d := by
  have hcop := h.copierIn.step hstep
  obtain ⟨tid, on, pc, hd, hdel⟩ := h.deleting
  cases a with
  | next i now => exact h.next hstep
  | copy now => exact h.copy hok.1 hstep
  | beginSet tid v expires => cases hok.2
  | start =>
    obtain ⟨hidle, hstep⟩ := ite_none_right_eq_some.mp hstep
    cases hstep
    refine ⟨hcop, h.noSet, tid, on, pc, hd, ?_⟩
    cases pc with
    | resolved => simpa [Resizing.Deleting, hidle, Phase.live] using hdel
    | shadow sh => exact hdel
    | own =>
      cases on with
      | old => exact .inl rfl
      | new => exact .inl (hdel.resolve_right (by simp [hidle]))
    | done => exact ⟨.inl (hdel.1.resolve_right (by simp [hidle])), .inl rfl⟩
  | swap =>
    obtain ⟨⟨hfilling, -⟩, hstep⟩ := ite_none_right_eq_some.mp hstep
    cases hstep
    have hnew : s.new.lookup k = none ∨ s.phase = .idle → s.new.lookup k = none :=
      fun h => h.resolve_right (by simp [hfilling])
    have hold : s.old.lookup k = none ∨ s.phase = .ended → s.old.lookup k = none :=
      fun h => h.resolve_right (by simp [hfilling])
    refine ⟨hcop, h.noSet, tid, on, pc, hd, ?_⟩
    cases pc with
    -- the swap waits for a request that has resolved its table only
    | resolved => cases hok.1 _ (mem_of_getElem? hd)
    | shadow sh => exact hdel
    | own =>
      cases on with
      | old => exact .inl (hnew hdel)
      | new => exact .inl (hold hdel)
    | done => exact ⟨.inl (hold hdel.1), .inl (hnew hdel.2)⟩
  | close =>
    obtain ⟨⟨hswapped, -⟩, hstep⟩ := ite_none_right_eq_some.mp hstep
    cases hstep
    refine ⟨hcop, h.noSet, tid, on, pc, hd, hdel.keep ?_ ?_ ?_ id id⟩ <;>
      simp [hswapped, Phase.live]
  | finish =>
    obtain ⟨hclosing, hstep⟩ := ite_none_right_eq_some.mp hstep
    cases hstep
    refine ⟨hcop, h.noSet, tid, on, pc, hd, hdel.keep ?_ ?_ ?_ (fun _ => rfl) id⟩ <;>
      simp [hclosing, Phase.live]
  | walk | endPass =>
    obtain ⟨-, hstep⟩ := ite_none_right_eq_some.mp hstep
    cases hstep
    exact ⟨hcop, h.noSet, tid, on, pc, hd, hdel.mono rfl id id⟩
  | beginGet | beginDel =>
    cases hstep
    have hlt : d < s.reqs.length := (List.getElem?_eq_some_iff.mp hd).1
    refine ⟨hcop, ?_, tid, on, pc, ?_, hdel.mono rfl id id⟩
    · exact s.noSet_append h.noSet rfl
    · exact (getElem?_append_left hlt).trans hd
  | elsewhere =>
    cases hstep
    exact ⟨hcop, h.noSet, tid, on, pc, hd, hdel.mono rfl id id⟩

theorem Resizing.Deleted.begin (h : s.CopierIn) (hset : s.noSet = true) (tid : Nat) :
    Deleted k s.reqs.length
      { s with reqs := s.reqs ++ [.del tid s.phase.live .resolved] } where
  copierIn := h
  noSet := s.noSet_append hset rfl
  deleting := ⟨tid, s.phase.live, .resolved, by simp, rfl⟩

end Steps

theorem copierIn_run {ed : Edition} {A : Arena} {k : Key} {t : Table} {c : Clocks} {as : List Act}
    {s : Resizing} (hrun : run (Resizing.step ed A k) (Resizing.start t c) as = some s) :
    s.CopierIn := by
  have hok := along_true (Resizing.step ed A k) (Resizing.start t c) as
  exact run_invariant (fun _ _ _ hI _ hs => hI.step hs) (.inl rfl) hok hrun

/-- **A key deleted during a resize stays deleted**, in every run whose steps from the begin of its
last delete on are `Parted`: the last write of the key has completed when that delete begins, no
write follows, and once the delete has answered and the resize is over the key is not in the table
that every read resolves. -/
theorem deleted_stays_deleted (ed : Edition) (A : Arena) (k : Key) (t : Table) (c : Clocks)
    (before : List Act) (s₀ : Resizing) (tid : Nat) (after : List Act) (s : Resizing)
    (hbefore : run (Resizing.step ed A k) (Resizing.start t c) before = some s₀)
    (hset : s₀.noSet = true)
    (hrun : run (Resizing.step ed A k) s₀ (.beginDel tid :: after) = some s)
    (hok : Along (Resizing.step ed A k) (fun s a => s.Parted k a ∧ a.writes = false) s₀
      (.beginDel tid :: after))
    (hdone : ∃ on, s.reqs[s₀.reqs.length]? = some (.del tid on .done)) (hended : s.phase = .ended) :
    (s.table s.phase.live).lookup k = none := by
  have h : s.Deleted k s₀.reqs.length :=
    run_invariant (fun _ _ _ hI hok hs => hI.step hok hs)
      (Resizing.Deleted.begin (copierIn_run hbefore) hset tid) hok.2 hrun
  obtain ⟨tid', on', pc', hd, hdel⟩ := h.deleting
  obtain ⟨on, hdone⟩ := hdone
  cases hd.symm.trans hdone
  simpa [hended, Phase.live, Resizing.table] using hdel.2

/-- A SET of the empty key, from its begin to its answer. -/
def setKey : List Act := [.beginSet 0 [] 0, .next 0 0, .next 0 0, .next 0 0]

/-- The rest of a resize that is in its first pass, and has come by the key. -/
def passOn : List Act := [.endPass, .walk, .swap, .walk, .endPass, .walk, .close, .finish]

/-- The key is copied, then deleted. -/
theorem deleted_stays_deleted_copied :
    ∃ s₀ s, run (Resizing.step .clustered vastArena []) (Resizing.start ∅ ⟨0, fun _ => 0⟩)
        (setKey ++ [.start, .walk, .copy 0, .copy 0]) = some s₀ ∧
      s₀.new.lookup [] ≠ none ∧
      run (Resizing.step .clustered vastArena []) s₀
        (.beginDel 0 :: ([.next 1 0, .next 1 0, .next 1 0] ++ passOn)) = some s ∧
      s.phase = .ended ∧ (s.table s.phase.live).lookup [] = none := by
  refine ⟨_, _, rfl, by decide, rfl, rfl, ?_⟩
  refine deleted_stays_deleted .clustered vastArena [] ∅ ⟨0, fun _ => 0⟩
    (setKey ++ [.start, .walk, .copy 0, .copy 0]) _ 0 ([.next 1 0, .next 1 0, .next 1 0] ++ passOn)
    _ rfl (by decide) rfl (by decide) ⟨.old, by decide⟩ rfl

/-- The delete removes the key from the table being filled; a copy is made; the delete removes the
key from the live table, and answers. The swap brings the key back. -/
theorem deleted_key_back_at_swap :
    ∃ s₀ s, run (Resizing.step .clustered vastArena []) (Resizing.start ∅ ⟨0, fun _ => 0⟩)
        (setKey ++ [.start]) = some s₀ ∧
      s₀.noSet = true ∧
      run (Resizing.step .clustered vastArena []) s₀
        (.beginDel 0 :: ([.next 1 0, .next 1 0, .walk, .copy 0, .copy 0, .next 1 0] ++ passOn)) =
          some s ∧
      s.reqs[s₀.reqs.length]? = some (.del 0 .old .done) ∧ s.phase = .ended ∧
      (s.table s.phase.live).lookup [] ≠ none :=
  ⟨_, _, rfl, by decide, rfl, by decide, rfl, by decide⟩

end Perfcached.Resize
