import Mathlib
import Perfcached.Cluster.Clack
import Perfcached.Lib.Slots

/-!
# Perfcached.Cluster.Fleet

What the fleet's members say they hold (`src/clackf.c`).

Each member's keepalive announces its incarnation and its confirmed marks of the numbering spaces.
A mark belongs to the incarnation that reported it: a new incarnation, and a keepalive without
marks, forget what the member said. The lowest mark of a space among the members is what an origin
may forget at or below.

`Said` is what the members said, kept by the announcements alone; every mark of the table is the
member's last report in it (`Heard.hear`). The times of the announcements and the statistics, which
nothing here reads, are left out.
-/

namespace Perfcached.Cluster

open List Option Function

def clackfMembers : Nat := 513

def clackfSpaces : Nat := 1026

/-- `struct fmark`. -/
structure FMark where
  space : Key
  mark : Nat

/-- `struct fmember`. -/
structure FMember where
  member : Nat
  incarn : Nat
  cap : Nat
  marks : List FMark

/-- `struct clackf`. -/
structure Fleet where
  members : List FMember

def Fleet.mfind (f : Fleet) (member : Nat) : Option FMember :=
  Slots.find FMember.member member f.members

def FMember.sfind (m : FMember) (k : Key) : Option FMark := Slots.find FMark.space k m.marks

def Fleet.change (f : Fleet) (member : Nat) (g : FMember → FMember) : Fleet :=
  ⟨Slots.update FMember.member member g f.members⟩

def clackfMember (f : Fleet) (member incarn : Nat) : Int × Fleet :=
  match f.mfind member with
  | none =>
    if f.members.length = clackfMembers then (-1, f)
    else (0, ⟨f.members ++ [⟨member, incarn, 0, []⟩]⟩)
  | some m =>
    if m.incarn = incarn then (0, f)
    else (1, f.change member fun m => { m with incarn, marks := [] })

/-- The room that a new mark of a member needs. -/
def FMember.newCap (m : FMember) : Nat := Slots.room m.marks.length m.cap clackfSpaces

/-- `clackf_report`; `alloc` says whether there is memory for a longer list. -/
def clackfReport (f : Fleet) (member : Nat) (k : Key) (mark : Nat) (alloc : Bool) : Int × Fleet :=
  match f.mfind member with
  | none => (-1, f)
  | some m =>
    match m.sfind k with
    | some s =>
      (if mark < s.mark then 1 else 0, f.change member fun m =>
        { m with marks := Slots.update FMark.space k (fun s => { s with mark }) m.marks })
    | none =>
      if m.marks.length = m.cap ∧ (m.marks.length = m.newCap ∨ alloc = false) then (-1, f)
      else
        (0, f.change member fun m =>
          { m with cap := m.newCap, marks := m.marks ++ [⟨k, mark⟩] })

def clackfClear (f : Fleet) (member : Nat) : Fleet :=
  f.change member fun m => { m with marks := [] }

def clackfForget (f : Fleet) (member : Nat) : Fleet :=
  ⟨Slots.remove FMember.member member f.members⟩

def clackfMark (f : Fleet) (member : Nat) (k : Key) : Option Nat :=
  (f.mfind member).bind fun m => (m.sfind k).map FMark.mark

/-- The loop of `clackf_min`: one that has not reported makes it 0. -/
def Fleet.minLoop (f : Fleet) (k : Key) : Nat → List Nat → Nat
  | lo, [] => lo
  | lo, member :: members =>
    match clackfMark f member k with
    | none => 0
    | some v => f.minLoop k (if v < lo then v else lo) members

def clackfMin (f : Fleet) (k : Key) (members : List Nat) : Nat :=
  if members = [] then 0 else f.minLoop k (2 ^ 64 - 1) members

variable {f : Fleet} {k : Key}

theorem Fleet.minLoop_le {members : List Nat} {lo : Nat} (h : f.minLoop k lo members ≠ 0) :
    f.minLoop k lo members ≤ lo ∧
      ∀ m ∈ members, ∃ v, clackfMark f m k = some v ∧ f.minLoop k lo members ≤ v := by
  induction members generalizing lo with
  | nil => simp [Fleet.minLoop]
  | cons member members ih =>
    unfold Fleet.minLoop at h ⊢
    cases hmark : clackfMark f member k with
    | none => simp [hmark] at h
    | some v =>
      simp only [hmark] at h ⊢
      obtain ⟨hle, hall⟩ := ih h
      have hmin : (if v < lo then v else lo) ≤ v ∧ (if v < lo then v else lo) ≤ lo := by
        split <;> omega
      refine ⟨Nat.le_trans hle hmin.2, forall_mem_cons.mpr ⟨?_, hall⟩⟩
      exact ⟨v, hmark, Nat.le_trans hle hmin.1⟩

/-- A lowest mark that is not 0 is at or below a mark of every member. -/
theorem clackfMin_le {members : List Nat} (h : clackfMin f k members ≠ 0) :
    members ≠ [] ∧ ∀ m ∈ members, ∃ v, clackfMark f m k = some v ∧ clackfMin f k members ≤ v := by
  unfold clackfMin at h ⊢
  by_cases hnone : members = []
  · simp [hnone] at h
  · rw [if_neg hnone] at h ⊢
    exact ⟨hnone, (Fleet.minLoop_le h).2⟩

/-! ### What the members said -/

/-- The announcements. -/
inductive Announce
  | member (member incarn : Nat)
  | report (member : Nat) (k : Key) (mark : Nat) (alloc : Bool)
  | clear (member : Nat)
  | forget (member : Nat)

def Fleet.hear (f : Fleet) : Announce → Fleet
  | .member member incarn => (clackfMember f member incarn).2
  | .report member k mark alloc => (clackfReport f member k mark alloc).2
  | .clear member => clackfClear f member
  | .forget member => clackfForget f member

/-- What each member last said: its incarnation, and its mark of each space since that incarnation
began or its marks were last cleared. -/
structure Said where
  incarn : Nat → Option Nat
  mark : Nat → Key → Option Nat

def Said.nothing : Said := ⟨fun _ => none, fun _ _ => none⟩

def Said.hear (s : Said) : Announce → Said
  | .member member incarn =>
    if s.incarn member = some incarn then s
    else ⟨update s.incarn member (some incarn),
      update s.mark member fun _ => none⟩
  | .report member k mark _ =>
    ⟨s.incarn, update s.mark member (update (s.mark member) k (some mark))⟩
  | .clear member => ⟨s.incarn, update s.mark member fun _ => none⟩
  | .forget _ => s

/-- A row of the table holds what its member said. -/
structure Row (s : Said) (m : FMember) : Prop where
  incarn : s.incarn m.member = some m.incarn
  marks : ∀ k r, m.sfind k = some r → s.mark m.member k = some r.mark

/-- The table holds what its members said. -/
structure Heard (f : Fleet) (s : Said) : Prop where
  nodup : (f.members.map FMember.member).Nodup
  rows : ∀ m ∈ f.members, Row s m

theorem heard_nothing : Heard ⟨[]⟩ .nothing := ⟨nodup_nil, nofun⟩

variable {s : Said}

open Slots

theorem Heard.mark (h : Heard f s) {member : Nat} {v : Nat} (hv : clackfMark f member k = some v) :
    s.mark member k = some v := by
  obtain ⟨m, hm, hr⟩ := bind_eq_some_iff.mp hv
  obtain ⟨r, hfind, rfl⟩ := map_eq_some_iff.mp hr
  obtain ⟨hmem, rfl⟩ := mem_of_find hm
  exact (h.rows m hmem).marks k r hfind

/-- One member's row and what it said change. -/
theorem Heard.change {s' : Said} (h : Heard f s) {member : Nat} {g : FMember → FMember}
    (hg : ∀ m, (g m).member = m.member)
    (hrow : ∀ m, f.mfind member = some m → Row s m → Row s' (g m))
    (hsame : ∀ m, m ≠ member → s'.incarn m = s.incarn m ∧ s'.mark m = s.mark m) :
    Heard (f.change member g) s' := by
  refine ⟨(keys_update fun m hm => (hg m).trans hm).symm ▸ h.nodup, fun m hm => ?_⟩
  rcases mem_update h.nodup hm with ⟨hmem, hne⟩ | ⟨m₀, hfind, rfl⟩
  · obtain ⟨hincarn, hmark⟩ := hsame m.member hne
    exact ⟨hincarn ▸ (h.rows m hmem).incarn, hmark ▸ (h.rows m hmem).marks⟩
  · exact hrow m₀ hfind (h.rows m₀ (mem_of_find hfind).1)

/-- What one member said changes, and the table does not. -/
theorem Heard.same {s' : Said} (h : Heard f s) {member : Nat}
    (hrow : ∀ m, f.mfind member = some m → Row s m → Row s' m)
    (hsame : ∀ m, m ≠ member → s'.incarn m = s.incarn m ∧ s'.mark m = s.mark m) : Heard f s' := by
  refine ⟨h.nodup, fun m hm => ?_⟩
  by_cases hm' : m.member = member
  · exact hrow m (hm' ▸ find_of_mem h.nodup hm) (h.rows m hm)
  · obtain ⟨hincarn, hmark⟩ := hsame m.member hm'
    exact ⟨hincarn ▸ (h.rows m hm).incarn, hmark ▸ (h.rows m hm).marks⟩

theorem Heard.member (h : Heard f s) (member incarn : Nat) :
    Heard (clackfMember f member incarn).2 (s.hear (.member member incarn)) := by
  have hsame : ∀ m, m ≠ member → (s.hear (.member member incarn)).incarn m = s.incarn m ∧
      (s.hear (.member member incarn)).mark m = s.mark m := by
    intro m hm
    unfold Said.hear
    dsimp only
    split <;> simp [update_of_ne hm]
  unfold clackfMember
  cases hfind : f.mfind member with
  | none =>
    have habs := h.same (fun m hm _ => nomatch hfind.symm.trans hm) hsame
    dsimp only
    split
    · exact habs
    · have hnew : member ∉ f.members.map FMember.member := find_eq_none.mp hfind
      refine ⟨nodup_append h.nodup hnew, fun m hm => ?_⟩
      rcases mem_append.mp hm with hm | hm
      · exact habs.rows m hm
      · obtain rfl := mem_singleton.mp hm
        refine ⟨?_, nofun⟩
        simp only [Said.hear]
        split <;> simp [*]
  | some m =>
    dsimp only
    have hincarn := (h.rows m (mem_of_find hfind).1).incarn
    rw [(mem_of_find hfind).2] at hincarn
    split
    · rename_i heq
      rw [Said.hear, if_pos (heq ▸ hincarn)]
      exact h
    · rename_i hne
      refine h.change (fun _ => rfl) (fun m₀ hfind₀ _ => ?_) hsame
      have hkey := (mem_of_find hfind₀).2
      refine ⟨?_, nofun⟩
      rw [Said.hear, if_neg (by simp [hincarn, hne])]
      simp [hkey]

/-- A member reports: its row has the report under that space, or nothing. -/
theorem Row.report {m m' : FMember} (h : Row s m) (hm : m'.member = m.member)
    (hi : m'.incarn = m.incarn) {mark : Nat} (hothers : ∀ k', k' ≠ k → m'.sfind k' = m.sfind k')
    (hthis : ∀ r, m'.sfind k = some r → r.mark = mark) (alloc : Bool) :
    Row (s.hear (.report m.member k mark alloc)) m' := by
  refine ⟨by rw [hm, hi]; exact h.incarn, fun k' r hr => ?_⟩
  by_cases hk : k' = k
  · subst hk
    simp [Said.hear, hm, hthis r hr]
  · rw [hothers k' hk] at hr
    simpa [Said.hear, hm, update_of_ne hk] using h.marks k' r hr

theorem Heard.report (h : Heard f s) (member : Nat) (k : Key) (mark : Nat) (alloc : Bool) :
    Heard (clackfReport f member k mark alloc).2 (s.hear (.report member k mark alloc)) := by
  have hsame : ∀ m, m ≠ member → (s.hear (.report member k mark alloc)).incarn m = s.incarn m ∧
      (s.hear (.report member k mark alloc)).mark m = s.mark m := by
    intro m hm
    simp [Said.hear, update_of_ne hm]
  unfold clackfReport
  cases hfind : f.mfind member with
  | none => exact h.same (fun m hm _ => nomatch hfind.symm.trans hm) hsame
  | some m =>
    obtain ⟨hmem, rfl⟩ := mem_of_find hfind
    have hone : ∀ m₀, f.mfind m.member = some m₀ → m₀ = m :=
      fun m₀ h₀ => some.inj (h₀.symm.trans hfind)
    dsimp only
    cases hmark : m.sfind k with
    | some r =>
      have hfound : ∀ k', find FMark.space k'
          (update FMark.space k (fun s => { s with mark }) m.marks) = _ :=
        fun k' => find_update fun _ h => h
      refine h.change (fun _ => rfl) (fun m₀ h₀ hrow => ?_) hsame
      obtain rfl := hone m₀ h₀
      apply hrow.report
      · rfl
      · rfl
      · exact fun k' hk => (hfound k').trans (if_neg hk)
      · intro r' hr'
        unfold FMember.sfind at hmark hr'
        rw [hfound, if_pos rfl, hmark] at hr'
        cases hr'
        rfl
    | none =>
      dsimp only
      split
      -- no room for a mark: the report is dropped
      · refine h.same (fun m₀ h₀ hrow => ?_) hsame
        obtain rfl := hone m₀ h₀
        exact hrow.report rfl rfl (fun _ _ => rfl) (fun r hr => nomatch hmark.symm.trans hr) alloc
      · have hfound : ∀ k', find FMark.space k' (m.marks ++ [⟨k, mark⟩]) = _ :=
          fun k' => find_append
        refine h.change (fun _ => rfl) (fun m₀ h₀ hrow => ?_) hsame
        obtain rfl := hone m₀ h₀
        apply hrow.report
        · rfl
        · rfl
        · intro k' hk
          refine (hfound k').trans ?_
          rw [if_neg (Ne.symm hk), or_none]
          rfl
        · intro r hr
          unfold FMember.sfind at hmark hr
          rw [hfound, if_pos rfl, hmark] at hr
          cases hr
          rfl

/-- **The table holds what the members last said**, whatever they announce. -/
theorem Heard.hear (h : Heard f s) (an : Announce) : Heard (f.hear an) (s.hear an) := by
  cases an with
  | member member incarn => exact h.member member incarn
  | report member k mark alloc => exact h.report member k mark alloc
  | clear member =>
    refine h.change (fun _ => rfl) (fun m hm hrow => ?_) fun m hm => ?_
    · exact ⟨hrow.incarn, nofun⟩
    · simp [Said.hear, update_of_ne hm]
  | forget member =>
    refine ⟨nodup_remove h.nodup, fun m hm => ?_⟩
    exact h.rows m ((mem_remove h.nodup).mp hm).1

end Perfcached.Cluster
