import Perfcached.Arena.SlotOps

/-!
# Perfcached.Arena.InFlight

A give-back keeps the kinds of the slots and the books.

The first phase takes the slots of a group off their map, which puts the group in flight; the third
puts them on the cold map, or back on the warm one. The groups of the tail have no map: what keeps
carves out of them is the extent that the first phase leaves, which covers every run of the tail.
-/

namespace Perfcached.Reservation

open List Nat

open Arena (pcacheSlot)
open Tally

/-- What the slots of a group are before the give-back. -/
def RunKind.warm : RunKind → Kind
  | .chunk => .warm
  | .zone => .zwarm
  | .tail => .tail

/-- What they are while it is in flight. -/
def RunKind.flying : RunKind → Kind
  | .chunk => .flying
  | .zone => .zflying
  | .tail => .tail

/-- What they are once its pages are gone. -/
def RunKind.cold : RunKind → Kind
  | .chunk => .cold
  | .zone => .zcold
  | .tail => .tail

/-- The groups whose slots are marked. -/
def aloft (l : List (RunKind × Nat)) : List (RunKind × Nat) := l.filter fun x => x.1 ≠ .tail

section
variable {s s' : State} {K : Nat → Kind} {F F' : List (RunKind × Nat)} {g : Nat} {k : RunKind}
  {fr : Frame}

theorem mem_aloft {x : RunKind × Nat} : x ∈ aloft F ↔ x ∈ F ∧ x.1 ≠ .tail := by
  rw [aloft, mem_filter, decide_eq_true_iff]

/-! ### A group takes off and lands -/

theorem Flying.slot (h : Flying s K F) (hk : k ≠ .tail) (i : Nat) :
    K i = k.flying ↔ (k, i / groupSlots) ∈ F := by
  cases k with
  | chunk => exact h.chunk i
  | zone => exact h.zone i
  | tail => exact absurd rfl hk

theorem flying_inj {k' : RunKind} (h : k.flying = k'.flying) : k = k' := by
  cases k <;> cases k' <;> first | rfl | cases h

theorem warm_ne_flying {k' : RunKind} (hk : k ≠ .tail) (hk' : k' ≠ .tail) : k.warm ≠ k'.flying := by
  cases k <;> cases k' <;> first | exact absurd rfl hk | exact absurd rfl hk' | nofun

theorem mem_group {i : Nat} :
    g * groupSlots ≤ i ∧ i < g * groupSlots + groupSlots ↔ i / groupSlots = g := by
  rw [groupSlots]
  omega

theorem Inv.perm (h : Inv s K F) (hp : F.Perm F') : Inv s K F' := by
  refine ⟨h.maps, h.area, h.hoff_le, h.rtop_le, h.pages, ?_, h.books⟩
  exact ⟨hp.nodup h.flying.nodup, fun i => (h.flying.chunk i).trans hp.mem_iff,
    fun i => (h.flying.zone i).trans hp.mem_iff, fun g hg => h.flying.tail g (hp.mem_iff.mpr hg)⟩

theorem Sound.perm (h : Sound fr s F) (hp : F.Perm F') : Sound fr s F' := by
  obtain ⟨hfr, hlim, K, h⟩ := h
  exact ⟨hfr, hlim, K, h.perm hp⟩

/-- The slots of a group that are warm are not in flight. -/
theorem Inv.not_flying (h : Inv s K F) (hk : k ≠ .tail)
    (hblock : ∀ i, i / groupSlots = g → K i = k.warm) : (k, g) ∉ F := by
  intro hmem
  have hfirst : g * groupSlots / groupSlots = g := Nat.mul_div_cancel g (by decide)
  have hfly := (h.flying.slot hk (g * groupSlots)).mpr (hfirst.symm ▸ hmem)
  exact warm_ne_flying hk hk ((hblock _ hfirst).symm.trans hfly)

/-- A group whose slots are of one kind is in the reservation. -/
theorem Inv.group_le (h : Inv s K F) {k : Kind} (hblock : ∀ i, i / groupSlots = g → K i = k)
    (hk : k ≠ .beyond) : g * groupSlots + groupSlots ≤ s.rslots := by
  have hlast : (g * groupSlots + 7) / groupSlots = g := by
    rw [groupSlots]
    omega
  have hlt := h.lt_rslots (hblock _ hlast ▸ hk)
  rw [groupSlots] at *
  omega

/-- A group takes off: its slots, all warm, are in flight. -/
theorem Sound.launch (h : Sound fr s F) (hk : k ≠ .tail)
    (ht : Turned s s' (g * groupSlots) groupSlots k.warm k.flying) (hs : Still s s') {m : Bits}
    (hm : s.map k.warm = some m) (hwarm : ∀ i, i / groupSlots = g → m i = true) :
    (k, g) ∉ F ∧ Sound fr s' ((k, g) :: F) := by
  obtain ⟨hfr, hlim, K, h⟩ := h
  have hblock : ∀ i, i / groupSlots = g → K i = k.warm := fun i hi => h.kind hm (hwarm i hi)
  have hnot := h.not_flying hk hblock
  have hslot : ∀ k' : RunKind, k' ≠ .tail → ∀ i,
      turn K (g * groupSlots) groupSlots k.flying i = k'.flying ↔
        (k', i / groupSlots) ∈ (k, g) :: F := by
    intro k' hk' i
    rw [mem_cons, Prod.mk.injEq, ← h.flying.slot hk' i]
    by_cases hi : i / groupSlots = g
    · have hin := mem_group.mpr hi
      rw [turn_in K _ hin.1 hin.2, hblock i hi]
      constructor
      · exact fun heq => .inl ⟨(flying_inj heq).symm, hi⟩
      · rintro (⟨rfl, -⟩ | hwarm)
        · rfl
        · exact absurd hwarm (warm_ne_flying hk hk')
    · rw [turn_out K _ fun hin => hi (mem_group.mp hin)]
      exact ⟨.inr, fun h => h.resolve_left fun h => hi h.2⟩
  have hbytes := ht.bytes_le (by cases k <;> decide)
  refine ⟨hnot, hs.frame.trans hfr, limit_of_le hlim (.inr hbytes), _,
    h.still ht (fun i hlo hhi => hblock i (mem_group.mp ⟨hlo, hhi⟩)) ?_ ?_ hs
      ⟨nodup_cons.mpr ⟨hnot, h.flying.nodup⟩, hslot .chunk (by decide), hslot .zone (by decide),
        fun g' hg' => ?_⟩⟩
  · refine h.group_le (k := k.warm) (fun i hi => hblock i hi) ?_
    cases k <;> nofun
  · cases k <;> rfl
  · rw [hs.hoff, hs.rtop, hs.tailFlLo, hs.tailFlHi]
    refine h.flying.tail g' ((mem_cons.mp hg').resolve_left fun heq => hk ?_)
    exact (congrArg Prod.fst heq).symm

/-- A group lands: its slots are cold, or warm as before. -/
theorem Sound.land (b : RunKind → Kind) (h : Sound fr s ((k, g) :: F)) (hk : k ≠ .tail)
    (ht : Turned s s' (g * groupSlots) groupSlots k.flying (b k)) (hs : Still s s')
    (hok : (b k).grounded ∧ (b k).area = k.flying.area ∧ held (b k) ≤ held k.flying) :
    Sound fr s' F := by
  obtain ⟨hb, harea, hheld⟩ := hok
  obtain ⟨hfr, hlim, K, h⟩ := h
  obtain ⟨hnot, hnodup⟩ := nodup_cons.mp h.flying.nodup
  have hblock : ∀ i, i / groupSlots = g → K i = k.flying := fun i hi =>
    (h.flying.slot hk i).mpr (hi ▸ mem_cons_self ..)
  have hslot : ∀ k' : RunKind, k' ≠ .tail → b k ≠ k'.flying → ∀ i,
      turn K (g * groupSlots) groupSlots (b k) i = k'.flying ↔ (k', i / groupSlots) ∈ F := by
    intro k' hk' hb' i
    by_cases hi : i / groupSlots = g
    · have hin := mem_group.mpr hi
      rw [turn_in K _ hin.1 hin.2]
      refine ⟨fun heq => absurd heq hb', fun hmem => absurd ?_ hnot⟩
      have hfly := (h.flying.slot hk' i).mpr (mem_cons_of_mem _ hmem)
      rw [hi, ← flying_inj ((hblock i hi).symm.trans hfly)] at hmem
      exact hmem
    · rw [turn_out K _ fun hin => hi (mem_group.mp hin), h.flying.slot hk' i, mem_cons]
      exact ⟨fun h => h.resolve_left fun h => hi (congrArg Prod.snd h), .inr⟩
  refine ⟨hs.frame.trans hfr, limit_of_le hlim (.inr (ht.bytes_le hheld)), _,
    h.still ht (fun i hlo hhi => hblock i (mem_group.mp ⟨hlo, hhi⟩)) ?_ harea hs
      ⟨hnodup, hslot .chunk (by decide) hb.1, hslot .zone (by decide) hb.2, fun g' hg' => ?_⟩⟩
  · refine h.group_le (k := k.flying) hblock ?_
    cases k <;> nofun
  · rw [hs.hoff, hs.rtop, hs.tailFlLo, hs.tailFlHi]
    exact h.flying.tail g' (mem_cons_of_mem _ hg')

/-! ### The first phase -/

/-- A run is begun or extended by one group. -/
theorem groupsIn_addRun (k : RunKind) (g : Nat) (runs : List Run) :
    (groupsIn (addRun k g runs)).Perm ((k, g) :: groupsIn runs) := by
  cases runs with
  | nil => exact .refl _
  | cons r rs =>
    rw [addRun]
    split
    · next hext =>
        have hlong : Run.groups { r with n := r.n + 1 } = r.groups ++ [(k, g)] := by
          rw [Run.groups, range'_1_concat, map_append, ← hext.1, ← hext.2]
          rfl
        rw [groupsIn, flatMap_cons, hlong, append_assoc]
        exact perm_middle
    · exact .refl _

/-- A walk, with what holds of the groups that are left. -/
theorem walk_keep {look : Plan → Nat → Look} {skip take : Plan → Nat → Plan}
    {I : Plan → List Nat → Prop}
    (hskip : ∀ P g gs, look P g = .skip → I P (g :: gs) → I (skip P g) gs)
    (htake : ∀ P g gs, look P g = .take → I P (g :: gs) → I (take P g) gs) (gs : List Nat)
    (P : Plan) (h : I P gs) : ∃ gs', I (walk look skip take gs P) gs' := by
  induction gs generalizing P with
  | nil => exact ⟨[], h⟩
  | cons g gs ih =>
    rw [walk]
    split
    · exact ⟨g :: gs, h⟩
    · next hlook => exact ih _ (hskip P g gs hlook h)
    · next hlook => exact ih _ (htake P g gs hlook h)

/-- The groups of chunks and of the region zone that are marked so far. -/
structure Marked (fr : Frame) (P : Plan) : Prop where
  sound : Sound fr P.state (groupsIn P.runs)
  noTail : ∀ x ∈ groupsIn P.runs, x.1 ≠ .tail

variable {P P' : Plan} {T : Tick}

theorem Marked.add (h : Marked fr P) (hk : k ≠ .tail)
    (ht : Turned P.state P'.state (g * groupSlots) groupSlots k.warm k.flying)
    (hs : Still P.state P'.state) {m : Bits} (hm : P.state.map k.warm = some m)
    (hwarm : ∀ i ∈ State.slotsOf g, m i = true) (hruns : P'.runs = addRun k g P.runs) :
    Marked fr P' := by
  have hp := groupsIn_addRun k g P.runs
  rw [← hruns] at hp
  have hslots : ∀ i, i / groupSlots = g → m i = true := fun i hi => hwarm i (hi ▸ mem_slotsOf i)
  refine ⟨(h.sound.launch hk ht hs hm hslots).2.perm hp.symm, fun x hx => ?_⟩
  rcases mem_cons.mp (hp.mem_iff.mp hx) with rfl | hx
  · exact hk
  · exact h.noTail x hx

theorem all_slots {m q : Bits} (h : ((State.slotsOf g).all fun i => m i && q i) = true) :
    ∀ i ∈ State.slotsOf g, m i = true := fun i hi =>
  ((Bool.and_eq_true _ _).mp (all_eq_true.mp h i hi)).1

section

variable (h : Marked fr P)
include h

theorem Marked.takeChunk (hlook : P.lookChunk T g = .take) : Marked fr (P.takeChunk g) := by
  unfold Plan.lookChunk at hlook
  split at hlook
  · cases hlook
  · split at hlook
    · next hall =>
        refine h.add (k := .chunk) (by decide) ?_ ⟨rfl, rfl, rfl, rfl, rfl⟩ rfl (all_slots hall) rfl
        constructor
        case map => rintro ⟨⟩ <;> rfl
        all_goals simp [Plan.takeChunk, RunKind.warm, RunKind.flying, sub_eq_add_neg]
    · cases hlook

theorem Marked.takeZone (hlook : P.lookZone T g = .take) : Marked fr (P.takeZone g) := by
  unfold Plan.lookZone at hlook
  split at hlook
  · cases hlook
  · split at hlook
    · next hall =>
        refine h.add (k := .zone) (by decide) ?_ ⟨rfl, rfl, rfl, rfl, rfl⟩ rfl (all_slots hall) rfl
        constructor
        case map => rintro ⟨⟩ <;> rfl
        all_goals simp [Plan.takeZone, RunKind.warm, RunKind.flying, sub_eq_add_neg]
    · cases hlook

theorem Marked.pickChunks (T : Tick) : Marked fr (P.pickChunks T) := by
  unfold Plan.pickChunks
  split
  · exact h
  · obtain ⟨-, h⟩ := walk_keep (I := fun P _ => Marked fr P) (fun P g gs _ h => h)
      (fun P g gs hlook h => h.takeChunk hlook) _ P h
    exact h

theorem Marked.pickZone (T : Tick) : Marked fr (P.pickZone T) := by
  unfold Plan.pickZone
  split
  · obtain ⟨-, h⟩ := walk_keep (I := fun P _ => Marked fr P) (fun P g gs _ h => h)
      (fun P g gs hlook h => h.takeZone hlook) _ P h
    exact h
  · exact h

theorem Marked.dropWindow (T : Tick) : Marked fr (P.dropWindow T) := by
  obtain ⟨⟨hfr, hlim, K, h⟩, hnoTail⟩ := h
  unfold Plan.dropWindow
  split
  · exact ⟨⟨hfr, hlim, K, h.rest _ _ _ _ _ _⟩, hnoTail⟩
  · exact ⟨⟨hfr, hlim, K, h⟩, hnoTail⟩

end

/-- The groups of the tail that are on the runs, and the marked ones below. -/
structure Planned (fr : Frame) (F : List (RunKind × Nat)) (tails : List Nat)
    (P : Plan) : Prop where
  sound : Sound fr P.state F
  runs : (groupsIn P.runs).Perm (tails.map (Prod.mk .tail) ++ F)
  nodup : tails.Nodup
  between : ∀ g ∈ tails, P.state.hoff ≤ g * groupSlots ∧ (g + 1) * groupSlots ≤ P.state.rtop

variable {tails : List Nat}

theorem Planned.rest (h : Planned fr F tails P) (tailNext : Nat) (tailDone : Bool) :
    Planned fr F tails { P with state := { P.state with tailNext, tailDone } } := by
  obtain ⟨⟨hfr, hlim, K, hK⟩, hruns, hnodup, hbetween⟩ := h
  exact ⟨⟨hfr, hlim, K, hK.rest _ _ _ _ _ _⟩, hruns, hnodup, hbetween⟩

theorem Planned.takeTail (h : Planned fr F tails P) (hnot : g ∉ tails)
    (hlo : P.state.hoff ≤ g * groupSlots) (hhi : (g + 1) * groupSlots ≤ P.state.rtop) :
    Planned fr F (g :: tails) (P.takeTail g) := by
  obtain ⟨⟨hfr, hlim, K, hK⟩, hruns, hnodup, hbetween⟩ := h
  refine ⟨⟨hfr, hlim, K, hK.rest _ _ _ _ _ _⟩, ?_, nodup_cons.mpr ⟨hnot, hnodup⟩, ?_⟩
  · exact (groupsIn_addRun .tail g P.runs).trans (hruns.cons _)
  · exact forall_mem_cons.mpr ⟨⟨hlo, hhi⟩, hbetween⟩

/-- The walk over the tail: what is left of it is between the frontiers and not on the runs. -/
theorem Planned.walkTail (h : Planned fr F tails P) {gs : List Nat} (hgs : gs.Nodup)
    (hleft : ∀ g ∈ gs, g ∉ tails ∧ P.state.hoff ≤ g * groupSlots ∧
      (g + 1) * groupSlots ≤ P.state.rtop) :
    ∃ tails', Planned fr F tails' (walk (Plan.lookTail T) Plan.skipTail Plan.takeTail gs P) := by
  induction gs generalizing P tails with
  | nil => exact ⟨tails, h⟩
  | cons g gs ih =>
    obtain ⟨hg, hgs⟩ := nodup_cons.mp hgs
    obtain ⟨⟨hnot, hlo, hhi⟩, hleft⟩ := forall_mem_cons.mp hleft
    rw [walk]
    split
    · exact ⟨tails, h⟩
    · exact ih (h.rest _ _) hgs hleft
    · refine ih (h.takeTail hnot hlo hhi) hgs fun g' hg' => ⟨fun hmem => ?_, (hleft g' hg').2⟩
      rcases mem_cons.mp hmem with rfl | hmem
      · exact hg hg'
      · exact (hleft g' hg').1 hmem

theorem hoff_le_tailFrom (T : Tick) (s : State) : s.hoff ≤ Plan.tailFrom T s * groupSlots := by
  have hlo : s.hoff ≤ (s.hoff + groupSlots - 1) / groupSlots * groupSlots := by
    rw [groupSlots]
    omega
  unfold Plan.tailFrom
  split
  · exact hlo.trans (mul_le_mul_right _ (le_max_left _ _))
  · exact hlo

/-- Groups of the tail lie between the frontiers, and are picked once. -/
theorem Marked.pickTail (h : Marked fr P) (T : Tick) :
    ∃ tails, Planned fr (groupsIn P.runs) tails (P.pickTail T) := by
  have hstart : Planned fr (groupsIn P.runs) [] P := ⟨h.sound, .refl _, nodup_nil, nofun⟩
  unfold Plan.pickTail
  split
  · dsimp only
    have hleft : ∀ g ∈ range' (max P.state.tailNext (Plan.tailFrom T P.state))
        (P.state.rtop / groupSlots - max P.state.tailNext (Plan.tailFrom T P.state)),
        g ∉ ([] : List Nat) ∧ P.state.hoff ≤ g * groupSlots ∧
          (g + 1) * groupSlots ≤ P.state.rtop := by
      intro g hg
      obtain ⟨hfrom, hto⟩ := mem_range'_1.mp hg
      refine ⟨not_mem_nil, ?_, ?_⟩
      · exact (hoff_le_tailFrom T P.state).trans
          (mul_le_mul_right _ ((le_max_right _ _).trans hfrom))
      · have hlt : g + 1 ≤ P.state.rtop / groupSlots := by omega
        exact (mul_le_mul_right _ hlt).trans (div_mul_le_self _ _)
    obtain ⟨tails, hwalk⟩ := (hstart.rest (max P.state.tailNext (Plan.tailFrom T P.state))
      P.state.tailDone).walkTail (T := T) nodup_range' hleft
    split
    · exact ⟨tails, hwalk.rest _ _⟩
    · exact ⟨tails, hwalk⟩
  · exact ⟨[], hstart⟩

/-- The counts that pages are in. -/
def State.recount (s : State) (nfreeWarm bytes : Int) : State := { s with nfreeWarm, bytes }

/-- The pages that go: their slots and their bytes leave the counts. -/
structure Picked (pages : List Nat) (P : Plan) (q : List Nat × Plan) : Prop where
  runs : q.2.runs = P.runs
  length : q.1.length ≤ pages.length
  le : ∀ nfree ∈ q.1, nfree ≤ pageSlots
  state : q.2.state = P.state.recount (P.state.nfreeWarm + q.1.sum - pages.sum)
    (P.state.bytes + pageBytes * q.1.length - pageBytes * pages.length)

variable {q : List Nat × Plan}

theorem Picked.bytes_le {pages : List Nat} (h : Picked pages P q) :
    q.2.state.bytes ≤ P.state.bytes := by
  have hlen : (pageBytes * q.1.length : Int) ≤ pageBytes * pages.length := by
    exact_mod_cast mul_le_mul_left pageBytes h.length
  rw [h.state]
  dsimp only [State.recount]
  omega

theorem Picked.keep {pages : List Nat} {nfree : Nat} (h : Picked pages P q)
    (hle : nfree ≤ pageSlots) : Picked (nfree :: pages) P (nfree :: q.1, q.2) := by
  refine ⟨h.runs, succ_le_succ h.length, forall_mem_cons.mpr ⟨hle, h.le⟩, h.state.trans ?_⟩
  refine congrArg₂ P.state.recount ?_ ?_
  · push_cast [sum_cons]
    ring
  · push_cast [length_cons]
    ring

theorem Picked.go {pages : List Nat} {nfree planned : Nat}
    (h : Picked pages
      ⟨P.state.recount (P.state.nfreeWarm - pageSlots) (P.state.bytes - pageBytes), P.runs,
        planned⟩ q)
    (hfull : nfree = pageSlots) : Picked (nfree :: pages) P q := by
  refine ⟨h.runs, le_succ_of_le h.length, h.le, h.state.trans ?_⟩
  refine congrArg₂ P.state.recount ?_ ?_
  · change P.state.nfreeWarm - pageSlots + _ - _ = _
    push_cast [sum_cons, hfull]
    ring
  · change P.state.bytes - pageBytes + _ - _ = _
    push_cast [length_cons]
    ring

/-- A page goes with all its free slots. -/
theorem picked_pickPages (T : Tick) (j kept : Nat) (pages : List Nat)
    (hle : ∀ nfree ∈ pages, nfree ≤ pageSlots) (P : Plan) :
    Picked pages P (P.pickPages T j kept pages) := by
  induction pages generalizing j kept P with
  | nil =>
    refine ⟨rfl, le_rfl, nofun, ?_⟩
    simp [Plan.pickPages, State.recount]
  | cons nfree rest ih =>
    obtain ⟨hnfree, hrest⟩ := forall_mem_cons.mp hle
    unfold Plan.pickPages
    split
    · exact (ih _ _ hrest P).keep hnfree
    · next hfull =>
        split
        · exact (ih _ _ hrest P).keep hnfree
        · split
          · refine ⟨rfl, le_rfl, hle, ?_⟩
            simp [State.recount]
          · split
            · exact (ih _ _ hrest _).go (by omega)
            · exact (ih _ _ hrest P).keep hnfree

/-! ### The extent of the tail in flight -/

theorem Run.mem_groups {r : Run} : (k, g) ∈ r.groups ↔ r.kind = k ∧ r.g0 ≤ g ∧ g < r.g0 + r.n := by
  rw [Run.groups, mem_map]
  constructor
  · rintro ⟨g', hg', heq⟩
    cases heq
    exact ⟨rfl, mem_range'_1.mp hg'⟩
  · intro ⟨hk, hg⟩
    exact ⟨g, mem_range'_1.mpr hg, by rw [hk]⟩

/-- A group is in an extent. -/
def Covers (fl : Nat × Nat) (g : Nat) : Prop :=
  fl.1 ≤ g * groupSlots ∧ (g + 1) * groupSlots ≤ fl.2

theorem Covers.widen {fl : Nat × Nat} (h : Covers fl g) (r : Run) : Covers (widen fl r) g := by
  obtain ⟨hlo, hhi⟩ := h
  unfold Covers Reservation.widen
  rw [groupSlots] at *
  split
  · -- an extent that holds a group is not empty, so its lower end is one
    constructor <;> dsimp only <;> split <;> omega
  · exact ⟨hlo, hhi⟩

theorem covers_widen {r : Run} (hg : (.tail, g) ∈ r.groups) (fl : Nat × Nat) :
    Covers (widen fl r) g := by
  obtain ⟨hk, hlo, hhi⟩ := Run.mem_groups.mp hg
  unfold Covers widen
  rw [if_pos hk, groupSlots]
  constructor <;> dsimp only <;> split <;> omega

/-- The extent covers every group of the tail on the runs. -/
theorem tailExtent_covers {runs : List Run} (hg : (.tail, g) ∈ groupsIn runs) :
    Covers (tailExtent runs) g := by
  have hfold : ∀ (runs : List Run) (fl : Nat × Nat), Covers fl g ∨ (.tail, g) ∈ groupsIn runs →
      Covers (runs.foldl widen fl) g := by
    intro runs
    induction runs with
    | nil => exact fun fl h => h.resolve_right not_mem_nil
    | cons r rs ih =>
      intro fl h
      rw [foldl_cons]
      refine ih _ ?_
      rcases h with h | h
      · exact .inl (h.widen r)
      · rcases mem_append.mp h with h | h
        · exact .inl (covers_widen h fl)
        · exact .inr h
  exact hfold runs (0, 0) (.inr hg)

variable {m n : Nat} {lim : Option Int}

/-- The runs of a plan take off: the state is that of the flight. -/
theorem Planned.depart (h : Planned ((n, m, none), lim) F tails P)
    (hnoTail : ∀ x ∈ F, x.1 ≠ .tail) :
    Sound ((n, m, some ⟨P.runs.reverse, 0, false⟩), lim)
      { P.state with
        tailFlLo := (tailExtent P.runs.reverse).1
        tailFlHi := (tailExtent P.runs.reverse).2
        flight := some ⟨P.runs.reverse, 0, false⟩ } (groupsIn P.runs.reverse) := by
  obtain ⟨⟨hfr, hlim, K, hK⟩, hruns, hnodup, hbetween⟩ := h
  have hperm : (groupsIn P.runs.reverse).Perm (tails.map (Prod.mk .tail) ++ F) :=
    (P.runs.reverse_perm.flatMap_right _).trans hruns
  have hmem : ∀ k, k ≠ .tail → ∀ g, (k, g) ∈ groupsIn P.runs.reverse ↔ (k, g) ∈ F := by
    intro k hk g
    rw [hperm.mem_iff, mem_append]
    refine ⟨fun h => h.resolve_left fun h => ?_, .inr⟩
    obtain ⟨g', -, heq⟩ := mem_map.mp h
    exact hk (congrArg Prod.fst heq).symm
  refine ⟨?_, hlim, K, hK.maps, hK.area, hK.hoff_le, hK.rtop_le, hK.pages,
    ⟨?_, fun i => ?_, fun i => ?_, fun g hg => ?_⟩, ?_⟩
  · obtain ⟨rfl, hm⟩ := Prod.mk.inj hfr
    obtain ⟨rfl, -⟩ := Prod.mk.inj hm
    rfl
  · refine hperm.nodup_iff.mpr (nodup_append'.mpr ⟨?_, hK.flying.nodup, ?_⟩)
    · exact hnodup.map fun _ _ heq => congrArg Prod.snd heq
    · intro x hx hF
      obtain ⟨g, -, rfl⟩ := mem_map.mp hx
      exact hnoTail _ hF rfl
  · exact (hK.flying.chunk i).trans (hmem .chunk (by decide) _).symm
  · exact (hK.flying.zone i).trans (hmem .zone (by decide) _).symm
  · have hcovers := tailExtent_covers hg
    rcases mem_append.mp (hperm.mem_iff.mp hg) with hg | hg
    · obtain ⟨g', hg', heq⟩ := mem_map.mp hg
      cases heq
      exact ⟨(hbetween g hg').1, (hbetween g hg').2, hcovers⟩
    · exact absurd rfl (hnoTail _ hg)
  · obtain ⟨h1, h2, h3, h4, h5, h6, h7⟩ := hK.books
    exact ⟨h1, h2, h3, h4, h5, h6, h7⟩

/-- The pages that are left stand in the state. -/
theorem Planned.pages (h : Planned fr F tails P) (hq : Picked P.state.pages P q) :
    Planned fr F tails { q.2 with state := { q.2.state with pages := q.1 } } := by
  have hbytes := hq.bytes_le
  obtain ⟨hruns, -, hle, hstate⟩ := hq
  refine ⟨?_, ?_, h.nodup, ?_⟩
  · rw [hstate]
    refine h.sound.outside (fun _ => hle) ?_ ?_ ?_ (.inr (hstate ▸ hbytes))
    · rfl
    all_goals
      dsimp only [State.recount]
      ring
  · rw [hruns]
    exact h.runs
  · rw [hstate]
    exact h.between

def flightGroups : Option Flight → List (RunKind × Nat)
  | some f => groupsIn f.runs
  | none => []

/-- The first phase: what is on the runs is in flight. -/
theorem Sound.beginGiveback (h : Sound ((n, m, none), lim) s []) (T : Tick) :
    ∃ fl, Sound ((n, m, fl), lim) (beginGiveback T s) (flightGroups fl) := by
  unfold Reservation.beginGiveback
  split
  · have hmarked : Marked ((n, m, none), lim) ⟨s, [], 0⟩ := ⟨h, nofun⟩
    have hwindow := ((hmarked.pickChunks T).pickZone T).dropWindow T
    obtain ⟨tails, hplan⟩ := hwindow.pickTail T
    obtain ⟨-, -, K, hK⟩ := hplan.sound
    have hpages := hplan.pages (picked_pickPages T 0 0 _ hK.pages _)
    dsimp only
    split
    · next hnone =>
        have hperm := hpages.runs
        dsimp only at hperm
        rw [hnone.1] at hperm
        have hnil := (append_eq_nil_iff.mp (nil_perm.mp hperm)).2
        refine ⟨none, ?_⟩
        have hsound := hpages.sound
        rw [hnil] at hsound
        exact hsound
    · exact ⟨_, hpages.depart hwindow.noTail⟩
  · exact ⟨none, h⟩

/-! ### The second phase and the third -/

variable {fl : Option Flight}

theorem Sound.flight (h : Sound ((n, m, fl), lim) s F) : s.flight = fl :=
  congrArg (·.2.2) h.1

/-- The host's answers are noted, and the slots stay in flight. -/
theorem Sound.punch (h : Sound ((n, m, fl), lim) s (flightGroups fl)) {ok : Bool}
    (hs : punch ok s = some s') : ∃ fl, Sound ((n, m, fl), lim) s' (flightGroups fl) := by
  have hflight := h.flight
  obtain ⟨hfr, hlim, K, h⟩ := h
  obtain ⟨rfl, hm⟩ := Prod.mk.inj hfr
  obtain ⟨rfl, -⟩ := Prod.mk.inj hm
  unfold Reservation.punch at hs
  rw [hflight] at hs
  split at hs
  · next f =>
      split at hs
      · cases hs
        cases ok with
        | true => exact ⟨some { f with done := f.done + 1 }, rfl, hlim, K, h.rest _ _ _ _ _ _⟩
        | false => exact ⟨some { f with refused := true }, rfl, hlim, K, h.rest _ _ _ _ _ _⟩
      · cases hs
  · cases hs

/-- The tail's groups are not in flight any more: they were never marked. -/
theorem Sound.arrive (h : Sound ((n, m, fl), lim) s F) :
    Sound ((n, m, none), lim) { s with tailFlLo := 0, tailFlHi := 0, flight := none }
      (aloft F) := by
  obtain ⟨hfr, hlim, K, h⟩ := h
  obtain ⟨rfl, hm⟩ := Prod.mk.inj hfr
  obtain ⟨rfl, -⟩ := Prod.mk.inj hm
  refine ⟨rfl, hlim, K, h.maps, h.area, h.hoff_le, h.rtop_le, h.pages, ⟨h.flying.nodup.filter _,
    fun i => ?_, fun i => ?_, fun g hg => absurd rfl (mem_aloft.mp hg).2⟩, ?_⟩
  · rw [h.flying.chunk i, mem_aloft]
    exact (and_iff_left nofun).symm
  · rw [h.flying.zone i, mem_aloft]
    exact (and_iff_left nofun).symm
  · obtain ⟨h1, h2, h3, h4, h5, h6, h7⟩ := h.books
    exact ⟨h1, h2, h3, h4, h5, h6, h7⟩

theorem Sound.foldl_land {f : State → RunKind × Nat → State}
    (hf : ∀ s x F, Sound fr s (aloft [x] ++ F) → Sound fr (f s x) F) (l : List (RunKind × Nat))
    (h : Sound fr s (aloft l ++ F)) : Sound fr (l.foldl f s) F := by
  induction l generalizing s with
  | nil => exact h
  | cons x l ih =>
    refine ih (hf s x _ ?_)
    rw [← append_assoc, aloft, aloft, ← filter_append]
    exact h

theorem Sound.landGroup (x : RunKind × Nat) (h : Sound fr s (aloft [x] ++ F)) :
    Sound fr (s.landGroup x) F := by
  obtain ⟨k, g⟩ := x
  cases k with
  | tail =>
    obtain ⟨hfr, hlim, K, h⟩ := h
    exact ⟨hfr, hlim, K, h.rest _ _ _ _ _ _⟩
  | chunk | zone =>
    refine Sound.land RunKind.cold h (by decide) ?_ ⟨rfl, rfl, rfl, rfl, rfl⟩ (by decide)
    constructor
    case map => rintro ⟨⟩ <;> rfl
    all_goals simp [State.landGroup, RunKind.flying, RunKind.cold, hps, sub_eq_add_neg]

theorem Sound.backGroup (x : RunKind × Nat) (h : Sound fr s (aloft [x] ++ F)) :
    Sound fr (s.backGroup x) F := by
  obtain ⟨k, g⟩ := x
  cases k with
  | tail =>
    obtain ⟨hfr, hlim, K, h⟩ := h
    exact ⟨hfr, hlim, K, h.rest _ _ _ _ _ _⟩
  | chunk | zone =>
    refine Sound.land RunKind.warm h (by decide) ?_ ⟨rfl, rfl, rfl, rfl, rfl⟩ (by decide)
    constructor
    case map => rintro ⟨⟩ <;> rfl
    all_goals simp [State.backGroup, RunKind.flying, RunKind.warm]

/-- The third phase: nothing is in flight any more. -/
theorem Sound.finish (h : Sound ((n, m, fl), lim) s (flightGroups fl)) (hs : finish s = some s') :
    Sound ((n, m, none), lim) s' [] := by
  have hflight := h.flight
  unfold Reservation.finish at hs
  rw [hflight] at hs
  split at hs
  · next f =>
      obtain ⟨hdone, ⟨⟩⟩ := Option.ite_none_right_eq_some.mp hs
      have hsplit : aloft (groupsIn f.runs) =
          aloft (groupsIn (f.runs.take f.done)) ++ aloft (groupsIn (f.runs.drop f.done)) := by
        rw [aloft, aloft, aloft, ← filter_append, groupsIn, groupsIn, groupsIn,
          ← flatMap_append, take_append_drop]
      have harrive := h.arrive
      dsimp only [flightGroups] at harrive
      rw [hsplit] at harrive
      have hland := harrive.foldl_land (fun s x F => Sound.landGroup x) _
      refine Sound.zoneRaise ?_
      split
      · rw [← append_nil (aloft (groupsIn (f.runs.drop f.done)))] at hland
        obtain ⟨hfr, hlim, K, hland⟩ := hland
        exact Sound.foldl_land (fun s x F => Sound.backGroup x) _
          ⟨hfr, hlim, K, hland.rest _ _ _ _ _ _⟩
      · next hall =>
          rw [drop_eq_nil_of_le (Nat.le_of_not_lt hall)] at hland
          exact hland
  · cases hs

end

end Perfcached.Reservation
