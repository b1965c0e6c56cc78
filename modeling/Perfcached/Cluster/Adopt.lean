import Perfcached.Cluster.Publish

/-!
# Perfcached.Cluster.Adopt

The maps a node takes.

A node's term is the highest it has seen, in a beacon, in a map or by its own claim. What
`handle_clmap` compares an arriving map with is the map the node has: a term that came without its
map does not keep an older map out. And `become_master` takes the change it owes the fleet after it
has claimed a term above the one the change was staged under. `InOrder` says that neither happens.
-/

namespace Perfcached.Cluster.Publish

open Machine Option

variable {β : Type} {n n' : Node β} {store : Store} {m : Map β}

/-- The map a step makes the node's own: one that arrives (`handle_clmap`), or the one it held for
the last master (`become_master`). -/
def Node.takes (n : Node β) : Act β → Option (Map β)
  | .clmap _ m => if pcTermPlausible n.T m.term = true ∧ n.newer m = true then some m else none
  | .becomeMaster store _ _ =>
    if (pcTermClaim n.T store.ok).1.isSome = true ∧ pcClsyncOwed n.sync = true then n.held else none
  | _ => none

/-- The maps that arrive are not below the term the node has seen, unless the node has a map of that
term; and when the node is promoted and can store its claim, a map has come for every sync. -/
def InOrder (n : Node β) : Act β → Prop
  | .clmap _ m => m.term < n.T.term → n.mapTerm = n.T.term
  | .becomeMaster store _ _ => store ≠ .failed → pcClsyncOwed n.sync = false
  | _ => True

instance decidableInOrder (n : Node β) : DecidablePred (InOrder n)
  | .clmap _ m => inferInstanceAs (Decidable (m.term < n.T.term → _))
  | .becomeMaster store _ _ => inferInstanceAs (Decidable (store ≠ .failed → _))
  | .observe .. | .masterAlive .. | .clsync _ | .stage .. | .ack .. | .abort | .publish _ | .yield
  | .stop _ | .crash _ => isTrue trivial

/-- The process goes on. -/
def Act.InLife : Act β → Prop
  | .stop _ | .crash _ => False
  | _ => True

instance decidableInLife : DecidablePred (Act.InLife (β := β))
  | .stop _ | .crash _ => isFalse id
  | .observe .. | .masterAlive .. | .clmap .. | .clsync _ | .becomeMaster .. | .stage .. | .ack ..
  | .abort | .publish _ | .yield => isTrue trivial

/-! ### The term a node has seen -/

theorem pcTermObserve_le (T : Term) (ok : Bool) (seen : Nat) :
    T.term ≤ (pcTermObserve T ok seen).term := by
  rcases pcTermObserve_cases T ok seen with heq | ⟨hlt, heq⟩
  · exact Nat.le_of_eq (congrArg Term.term heq.symm)
  · rw [heq]
    exact Nat.le_of_lt hlt

theorem term_masterAlive (theirs : Nat) : n.T.term ≤ (n.masterAlive store theirs).T.term := by
  unfold Node.masterAlive
  split
  · dsimp only
    split
    all_goals exact pcTermObserve_le _ _ _
  · exact le_rfl

theorem term_handleClmap : n.T.term ≤ (n.handleClmap store m).T.term := by
  unfold Node.handleClmap
  split
  · dsimp only
    split
    · split
      all_goals exact pcTermObserve_le _ _ _
    · exact pcTermObserve_le _ _ _
  · exact le_rfl

theorem term_clmapStage (backup : Bool) (body : β) : (n.clmapStage backup body).T = n.T := by
  unfold Node.clmapStage
  split
  · split <;> rfl
  · rfl

theorem term_promote : n.T.term ≤ (n.promote store).T.term := by
  unfold Node.promote
  rcases pcTermClaim_cases n.T store.ok with heq | heq
  · exact Nat.le_of_eq (by rw [heq])
  · rw [heq]
    exact Nat.le_succ _

variable {a : Act β}

/-- The term does not go down while the process lives. -/
theorem term_step (hlife : a.InLife) (hstep : step n a = some n') : n.T.term ≤ n'.T.term := by
  cases a with
  | observe store seen =>
    simp only [step, ite_none_left_eq_some, some.injEq] at hstep
    obtain ⟨-, rfl⟩ := hstep
    exact pcTermObserve_le _ _ _
  | masterAlive store theirs =>
    simp only [step, ite_none_right_eq_some, some.injEq] at hstep
    obtain ⟨-, rfl⟩ := hstep
    exact term_masterAlive theirs
  | clmap store m =>
    obtain rfl := some.inj hstep
    exact term_handleClmap
  | becomeMaster store backup body =>
    simp only [step, ite_none_left_eq_some, some.injEq] at hstep
    obtain ⟨-, rfl⟩ := hstep
    rw [term_clmapStage]
    exact term_promote
  | stage backup body =>
    obtain rfl := some.inj hstep
    exact Nat.le_of_eq (congrArg Term.term (term_clmapStage backup body).symm)
  | clsync m | ack term seq =>
    obtain rfl := some.inj hstep
    exact le_rfl
  | abort | yield =>
    simp only [step, ite_none_right_eq_some, some.injEq] at hstep
    obtain ⟨-, rfl⟩ := hstep
    exact le_rfl
  | publish send =>
    simp only [step, ite_none_right_eq_some, map_eq_some_iff] at hstep
    obtain ⟨-, m, -, rfl⟩ := hstep
    cases send <;> exact le_rfl
  | stop storing | crash disk => exact hlife.elim

/-- A map that is newer than the node's is of its term at least. -/
theorem mapTerm_le_of_newer (h : n.newer m = true) : n.mapTerm ≤ m.term := by
  unfold Node.newer at h
  unfold Node.mapTerm
  cases hmap : n.map with
  | none => exact Nat.zero_le _
  | some mine =>
    rw [hmap] at h
    rcases of_decide_eq_true h with hlt | ⟨heq, -⟩
    · exact Nat.le_of_lt hlt
    · exact Nat.le_of_eq heq

/-- What a step takes is not below the term the node has after it. -/
theorem term_le_of_takes (horder : InOrder n a) (htakes : n.takes a = some m)
    (hstep : step n a = some n') : n'.T.term ≤ m.term := by
  cases a with
  | clmap store m' =>
    obtain rfl := some.inj hstep
    obtain ⟨h, ⟨⟩⟩ := ite_none_right_eq_some.mp htakes
    have hle : n.T.term ≤ m.term := by
      by_contra hlt
      have hmap := horder (Nat.lt_of_not_le hlt)
      exact hlt (hmap ▸ mapTerm_le_of_newer h.2)
    have hterm : (n.handleClmap store m).T = pcTermObserve n.T store.ok m.term := by
      have hnewer : ∀ T, (n.setTerm store T).newer m = true := fun _ => h.2
      simp only [Node.handleClmap, h.1, hnewer, if_true]
      split <;> rfl
    rw [hterm]
    rcases pcTermObserve_cases n.T store.ok m.term with heq | ⟨-, heq⟩
    · rw [heq]
      exact hle
    · rw [heq]
  | becomeMaster store backup body =>
    -- the claim needs its store, and then nothing is owed
    obtain ⟨⟨hclaim, howed⟩, -⟩ := ite_none_right_eq_some.mp htakes
    have hstored : store ≠ .failed := by
      rintro rfl
      simp [pcTermClaim, Store.ok] at hclaim
    rw [horder hstored] at howed
    cases howed
  | observe | masterAlive | clsync | stage | ack | abort | publish | yield | stop | crash =>
    cases htakes

/-- Once a node has seen a term, every map it takes is of that term at least, and of the term the
node has when it takes it, if no map below the term arrives before the node has one of it and the
node owes no change when it is promoted. -/
theorem takes_no_lower_map (n : Node β) (t : Nat) (ht : t ≤ n.T.term) (acts : List (Act β))
    (hlife : ∀ a ∈ acts, a.InLife) (horder : Along step InOrder n acts) :
    Along step (fun n a => ∀ m n', n.takes a = some m → step n a = some n' →
      t ≤ m.term ∧ n'.T.term ≤ m.term) n acts := by
  have hkept : ∀ (n : Node β) a n', t ≤ n.T.term → (InOrder n a ∧ a.InLife) →
      step n a = some n' → t ≤ n'.T.term :=
    fun _ _ _ h hok hstep => Nat.le_trans h (term_step hok.2 hstep)
  refine along_of_invariant hkept ?_ ht (horder.and (along_of_forall step n hlife))
  intro n a h hok m n' hm hstep
  have hle := term_le_of_takes hok.1 hm hstep
  exact ⟨Nat.le_trans (hkept n a n' h hok hstep) hle, hle⟩

/-- A beacon of term 5, its map, an older one, a sync with its map, and a promotion. -/
theorem takes_no_lower_map_five :
    Along step (fun n a => ∀ m n', n.takes a = some m → step n a = some n' →
        5 ≤ m.term ∧ n'.T.term ≤ m.term)
      (⟨⟨5, 5⟩, [5], false, pcClsyncInit 5 0, none, some ⟨5, 1, 0⟩, none, none, []⟩ : Node Nat)
      [.observe .synced 5, .clmap .synced ⟨5, 2, 7⟩, .clmap .synced ⟨4, 9, 8⟩, .clsync ⟨5, 3, 9⟩,
        .clmap .failed ⟨5, 3, 9⟩, .becomeMaster .renamed false 10] :=
  takes_no_lower_map _ 5 (Nat.le_refl 5) _ (by decide) (by decide)

/-- A map of term 3 is taken after a beacon of term 5. -/
theorem lower_map_taken :
    ∃ n : Node Nat, run step (Node.boot 0 [0] []) [.observe .synced 5] = some n ∧ n.T.term = 5 ∧
      n.takes (.clmap .synced ⟨3, 1, 7⟩) = some ⟨3, 1, 7⟩ :=
  ⟨_, rfl, by decide, by decide⟩

end Perfcached.Cluster.Publish
