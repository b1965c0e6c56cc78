import Mathlib.Data.List.TakeWhile
import Mathlib.Order.Bounds.Defs
import Perfcached.Cluster.Held
import Perfcached.Lib.Greatest

/-!
# Perfcached.Cluster.Ledger

What a space's marks say about what happened to it.

The ledger of a numbering space is what happened since it was made or last restored: the mark it
was restored with, the floors it was given, the numbers that were taken with their WAL sequences,
and every number it was called with. `Sound` reads the fields of a space against its ledger: the
mark is where the taken numbers stop being contiguous (`Contiguous`), `hi` is the highest number
seen (`Highest`), the WAL maxima bound what they stand for (`Weighed`), and the pairs that wait
and the durable mark claim no more than is so (`Queue`). Every call keeps it.
-/

namespace Perfcached.Cluster

open Window List

/-! ### The ledger -/

/-- What happened to a space since it was made or last restored. -/
structure Ledger where
  /-- The mark it was restored with. -/
  base : Nat
  floors : List Nat
  /-- The numbers that were taken, each with the WAL sequence of its record. -/
  taken : List (Nat × Nat)
  /-- The numbers `clack_applied` was called with. -/
  called : List Nat

def Ledger.empty : Ledger := ⟨0, [], [], []⟩

def Ledger.numbers (l : Ledger) : List Nat := l.taken.map Prod.fst

/-- Inside the restored mark or a floor. -/
def Ledger.Inside (l : Ledger) (n : Nat) : Prop := n ≤ l.base ∨ ∃ f ∈ l.floors, n ≤ f

/-- Inside, or taken. -/
def Ledger.Covers (l : Ledger) (n : Nat) : Prop := l.Inside n ∨ n ∈ l.numbers

/-- A number the space has heard of. -/
def Ledger.Seen (l : Ledger) (n : Nat) : Prop := n = l.base ∨ n ∈ l.floors ∨ n ∈ l.called

/-- A call of `clack_applied` and its answer. -/
def Ledger.note (l : Ledger) (seq walseq : Nat) : Answer → Ledger
  | .new => { l with taken := l.taken ++ [(seq, walseq)], called := l.called ++ [seq] }
  | .dup | .far => { l with called := l.called ++ [seq] }
  | .full | .bad => l

/-- A call of `clack_floor` and its answer. -/
def Ledger.noteFloor (l : Ledger) (floor : Nat) : Answer → Ledger
  | .full => l
  | _ => { l with floors := l.floors ++ [floor] }

open Ledger

theorem Ledger.numbers_note_new (l : Ledger) (seq walseq : Nat) :
    (l.note seq walseq .new).numbers = l.numbers ++ [seq] := by
  simp only [note, numbers, map_append, map_cons, map_nil]

variable {l : Ledger}

theorem Ledger.mem_numbers {n : Nat} : n ∈ l.numbers ↔ ∃ w, (n, w) ∈ l.taken := by
  simp only [numbers, mem_map, Prod.exists, exists_and_right, exists_eq_right]

/-! ### The mark -/

/-- Everything up to the mark is covered, and the mark can go no further. -/
structure Contiguous (l : Ledger) (mark : Nat) : Prop where
  covered : ∀ k, 1 ≤ k → k ≤ mark → l.Covers k
  inside : ∀ k, l.Inside k → k ≤ mark
  next : mark + 1 ∉ l.numbers

variable {mark : Nat}

theorem Contiguous.isGreatest (h : Contiguous l mark) :
    IsGreatest { n | ∀ k, 1 ≤ k → k ≤ n → l.Covers k } mark := by
  refine ⟨h.covered, fun n hn => ?_⟩
  by_contra hlt
  rcases hn (mark + 1) (by omega) (by omega) with hin | hmem
  · have := h.inside _ hin
    omega
  · exact h.next hmem

variable {sp : Space}

/-- A mark from which the loop connected what is held. -/
theorem Contiguous.of_connected {sp' : Space} (hc : Connected sp sp' l.numbers)
    (hcov : ∀ k, 1 ≤ k → k ≤ sp.mark → l.Covers k) (hin : ∀ k, l.Inside k → k ≤ sp.mark) :
    Contiguous l sp'.mark where
  covered := by
    intro k hk hk'
    rcases lt_or_ge sp.mark k with hlt | hge
    · exact .inr (hc.between k hlt hk')
    · exact hcov k hk hge
  inside := fun k hk => le_trans (hin k hk) hc.le
  next := hc.stop

variable {seq : Nat}

/-- A number held ahead of the mark does not move it. -/
theorem Contiguous.ahead (h : Contiguous l mark) {walseq : Nat} (hseq : seq ≠ mark + 1) :
    Contiguous (l.note seq walseq .new) mark where
  covered := by
    intro k hk hk'
    refine (h.covered k hk hk').imp id fun hmem => ?_
    rw [numbers_note_new]
    exact mem_append_left _ hmem
  inside := h.inside
  next := by
    rw [numbers_note_new, mem_append, mem_singleton]
    exact fun hmem => hmem.elim h.next fun heq => hseq heq.symm

/-! ### The highest number seen -/

/-- `hi` is the highest number seen; the mark and what was taken are among those. -/
structure Highest (l : Ledger) (mark hi : Nat) : Prop where
  greatest : IsGreatest { n | l.Seen n } hi
  mark_le : mark ≤ hi
  taken : ∀ n ∈ l.numbers, n ≤ hi

theorem isGreatest_seen {l' : Ledger} {hi n : Nat} (h : IsGreatest { n | l.Seen n } hi)
    (hseen : ∀ m, l'.Seen m ↔ l.Seen m ∨ m = n) : IsGreatest { n | l'.Seen n } (max hi n) := by
  constructor
  · refine (hseen _).mpr ?_
    rcases le_total hi n with hle | hle
    · exact .inr (max_eq_right hle)
    · rw [max_eq_left hle]
      exact .inl h.1
  · intro m hm
    rcases (hseen m).mp hm with hm | rfl
    · exact le_trans (h.2 hm) (le_max_left _ _)
    · exact le_max_right _ _

theorem Ledger.seen_note (l : Ledger) (seq walseq : Nat) {r : Answer}
    (hr : r = .new ∨ r = .dup ∨ r = .far) (m : Nat) :
    (l.note seq walseq r).Seen m ↔ l.Seen m ∨ m = seq := by
  have hcalled : (l.note seq walseq r).called = l.called ++ [seq] := by
    rcases hr with rfl | rfl | rfl <;> rfl
  have hrest : (l.note seq walseq r).base = l.base ∧ (l.note seq walseq r).floors = l.floors := by
    rcases hr with rfl | rfl | rfl <;> exact ⟨rfl, rfl⟩
  simp only [Seen, hcalled, hrest, mem_append, mem_singleton, or_assoc]

theorem Ledger.seen_noteFloor (l : Ledger) (floor : Nat) {r : Answer} (hr : r ≠ .full) (m : Nat) :
    (l.noteFloor floor r).Seen m ↔ l.Seen m ∨ m = floor := by
  have heq : l.noteFloor floor r = { l with floors := l.floors ++ [floor] } := by
    cases r <;> first | rfl | exact absurd rfl hr
  simp only [heq, Seen, mem_append, mem_singleton]
  tauto

/-- The loop takes the mark to a number that was taken. -/
theorem Highest.connected {sp' : Space} {hi : Nat} (h : Highest l sp.mark hi)
    (hc : Connected sp sp' l.numbers) : Highest l sp'.mark hi where
  greatest := h.greatest
  mark_le := by
    rcases lt_or_ge sp.mark sp'.mark with hlt | hge
    · exact h.taken _ (hc.between _ hlt le_rfl)
    · exact le_trans hge h.mark_le
  taken := h.taken

/-! ### The WAL maxima -/

/-- `wmax` bounds the WAL sequences up to the mark that still matter, `wahead` those ahead of
it, and neither is above every sequence given. -/
structure Weighed (l : Ledger) (mark wmax wahead : Nat) : Prop where
  ahead : ∀ p ∈ l.taken, mark < p.1 → p.2 ≤ wahead
  upto : ∀ p ∈ l.taken, p.1 ≤ mark → l.Inside p.1 ∨ p.2 ≤ wmax
  given : ∀ b, (∀ p ∈ l.taken, p.2 ≤ b) → wmax ≤ b ∧ wahead ≤ b

variable {wmax wahead : Nat}

/-- The loop raised the mark from `mark` to `mark'`: the maximum of all that was ahead goes in,
and it is forgotten when nothing is ahead any more. -/
theorem Weighed.raise {mark' : Nat} (h : Weighed l mark wmax wahead) (hle : mark ≤ mark') :
    Weighed l mark' (if mark < mark' then max wmax wahead else wmax)
      (if above mark' l.numbers = 0 then 0 else wahead) where
  ahead := by
    intro p hp hlt
    split
    · rename_i hnone
      have := above_eq_zero.mp hnone p.1 (mem_map_of_mem hp)
      omega
    · exact h.ahead p hp (by omega)
  upto := by
    intro p hp hle'
    rcases lt_or_ge mark p.1 with hlt | hge
    · rw [if_pos (by omega)]
      exact .inr (le_trans (h.ahead p hp hlt) (le_max_right _ _))
    · refine (h.upto p hp hge).imp id fun hw => le_trans hw ?_
      split
      · exact le_max_left _ _
      · exact le_rfl
  given := by
    intro b hb
    obtain ⟨hw, hwa⟩ := h.given b hb
    constructor
    · split
      · exact Nat.max_le.mpr ⟨hw, hwa⟩
      · exact hw
    · split
      · exact Nat.zero_le _
      · exact hwa

section

variable (h : Weighed l mark wmax wahead)
include h

theorem Weighed.hold {walseq : Nat} (hseq : mark < seq) :
    Weighed (l.note seq walseq .new) mark wmax (max wahead walseq) where
  ahead := by
    intro p hp hlt
    rcases mem_append.mp hp with hp | hp
    · exact le_trans (h.ahead p hp hlt) (le_max_left _ _)
    · obtain rfl := mem_singleton.mp hp
      exact le_max_right _ _
  upto := by
    intro p hp hle
    rcases mem_append.mp hp with hp | hp
    · exact h.upto p hp hle
    · obtain rfl := mem_singleton.mp hp
      exact absurd hseq (Nat.not_lt.mpr hle)
  given := by
    intro b hb
    obtain ⟨hw, hwa⟩ := h.given b fun p hp => hb p (mem_append_left _ hp)
    have hnew := hb (seq, walseq) (mem_append_right _ (mem_singleton_self _))
    exact ⟨hw, Nat.max_le.mpr ⟨hwa, hnew⟩⟩

theorem Weighed.next (hnew : mark + 1 ∉ l.numbers) (walseq : Nat) :
    Weighed (l.note (mark + 1) walseq .new) (mark + 1) (max walseq wmax) wahead where
  ahead := by
    intro p hp hlt
    rcases mem_append.mp hp with hp | hp
    · exact h.ahead p hp (by omega)
    · obtain rfl := mem_singleton.mp hp
      exact absurd hlt (lt_irrefl _)
  upto := by
    intro p hp hle
    rcases mem_append.mp hp with hp | hp
    · have hne : p.1 ≠ mark + 1 := fun heq => hnew (heq ▸ mem_map_of_mem hp)
      exact (h.upto p hp (by omega)).imp id fun hw => le_trans hw (le_max_right _ _)
    · obtain rfl := mem_singleton.mp hp
      exact .inr (le_max_left _ _)
  given := by
    intro b hb
    obtain ⟨hw, hwa⟩ := h.given b fun p hp => hb p (mem_append_left _ hp)
    have hnew := hb (mark + 1, walseq) (mem_append_right _ (mem_singleton_self _))
    exact ⟨Nat.max_le.mpr ⟨hnew, hw⟩, hwa⟩

/-- A floor is given: what lies below it no longer matters. -/
theorem Weighed.floor {floor : Nat} (hf : mark < floor) :
    Weighed (l.noteFloor floor .new) floor wmax wahead where
  ahead := fun p hp hlt => h.ahead p hp (by omega)
  upto := fun p _ hle => .inl (.inr ⟨floor, mem_append_right _ (mem_singleton_self _), hle⟩)
  given := h.given

end

/-! ### The pairs that wait -/

/-- The taken numbers up to `seq` are durable once `w` is synced. -/
def Ledger.DurableAt (l : Ledger) (seq w : Nat) : Prop :=
  ∀ p ∈ l.taken, p.1 ≤ seq → l.Inside p.1 ∨ p.2 ≤ w

/-- Inside, or taken with a record that is synced. -/
def Ledger.Durable (l : Ledger) (synced k : Nat) : Prop :=
  l.Inside k ∨ ∃ w, (k, w) ∈ l.taken ∧ w ≤ synced

variable {synced : Nat}

theorem Ledger.DurableAt.durable {w k : Nat} (h : l.DurableAt seq w) (hw : w ≤ synced)
    (hk : k ≤ seq) (hcov : l.Covers k) : l.Durable synced k := by
  rcases hcov with hin | hmem
  · exact .inl hin
  · obtain ⟨w', hw'⟩ := mem_numbers.mp hmem
    exact (h _ hw' hk).imp id fun hle => ⟨w', hw', le_trans hle hw⟩

theorem Ledger.Durable.mono {synced' k : Nat} (h : l.Durable synced k) (hle : synced ≤ synced') :
    l.Durable synced' k :=
  h.imp id fun ⟨w, hw, hws⟩ => ⟨w, hw, le_trans hws hle⟩

/-- The durable mark and the pairs that wait claim no more than is so. -/
structure Queue (mode : Bool) (synced : Nat) (l : Ledger) (sp : Space) : Prop where
  le : sp.dmark ≤ sp.mark
  durable : mode = false → ∀ k, 1 ≤ k → k ≤ sp.dmark → l.Durable synced k
  pending : ∀ p ∈ sp.pend, p.seq ≤ sp.mark ∧ synced < p.w ∧ p.w ≤ sp.wmax ∧ l.DurableAt p.seq p.w
  sorted : sp.pend.Pairwise fun p q => p.w < q.w
  immediate : mode = true → sp.pend = []

/-- Nothing is forgotten: the durable mark is the mark, or the mark waits. -/
def Space.Waits (sp : Space) : Prop :=
  sp.dmark = sp.mark ∨ sp.pend.getLast? = some ⟨sp.mark, sp.wmax⟩

theorem le_of_mem_of_getLast {ps : List Pend} (hs : ps.Pairwise fun p q => p.w < q.w) {t : Pend}
    (ht : ps.getLast? = some t) : ∀ p ∈ ps, p = t ∨ p ∈ ps.dropLast ∧ p.w < t.w := by
  obtain ⟨init, rfl⟩ := getLast?_eq_some_iff.mp ht
  rw [dropLast_concat]
  intro p hp
  rcases mem_append.mp hp with hp | hp
  · exact .inr ⟨hp, (pairwise_append.mp hs).2.2 p hp t (mem_singleton_self t)⟩
  · exact .inl (mem_singleton.mp hp)

/-- What `confirm` does: the mark is durable at once, or it waits behind pairs with smaller WAL
sequences. -/
theorem confirm_cases (a : Clack) (sp : Space) (hs : sp.pend.Pairwise fun p q => p.w < q.w)
    (hw : ∀ p ∈ sp.pend, p.w ≤ sp.wmax) :
    (a.durableOnApply = true ∨ sp.wmax ≤ a.synced) ∧
        a.confirm sp = { sp with dmark := sp.mark, pend := [] } ∨
      a.durableOnApply = false ∧ a.synced < sp.wmax ∧ ∃ init,
        init.Sublist sp.pend ∧ (∀ p ∈ init, p.w < sp.wmax) ∧
        a.confirm sp = { sp with pend := init ++ [⟨sp.mark, sp.wmax⟩] } := by
  unfold Clack.confirm
  split
  · exact .inl ⟨‹_›, rfl⟩
  · rename_i hwait
    rw [not_or, Bool.not_eq_true, not_le] at hwait
    refine .inr ⟨hwait.1, hwait.2, ?_⟩
    split
    · exact ⟨[], nil_sublist _, nofun, rfl⟩
    · rename_i t ht
      have htw : t.w ≤ sp.wmax := hw t (mem_of_getLast? ht)
      have hinit : ∀ p ∈ sp.pend.dropLast, p.w < t.w := by
        obtain ⟨init, hinit⟩ := getLast?_eq_some_iff.mp ht
        rw [hinit, dropLast_concat]
        rw [hinit] at hs
        exact fun p hp => (pairwise_append.mp hs).2.2 p hp t (mem_singleton_self t)
      split
      · rename_i heq
        refine ⟨_, dropLast_sublist _, fun p hp => heq ▸ hinit p hp, ?_⟩
        rw [heq]
      · split
        · exact ⟨_, dropLast_sublist _, fun p hp => lt_of_lt_of_le (hinit p hp) htw, rfl⟩
        · refine ⟨_, Sublist.refl _, fun p hp => ?_, rfl⟩
          rcases le_of_mem_of_getLast hs ht p hp with rfl | ⟨-, hlt⟩
          · omega
          · omega

/-- `confirm` of a mark whose WAL maximum is sound. -/
theorem Queue.confirm {a : Clack} (h : Queue a.durableOnApply a.synced l sp)
    (hcov : ∀ k, 1 ≤ k → k ≤ sp.mark → l.Covers k) (hw : l.DurableAt sp.mark sp.wmax) :
    Queue a.durableOnApply a.synced l (a.confirm sp) ∧ (a.confirm sp).Waits := by
  rcases confirm_cases a sp h.sorted fun p hp => (h.pending p hp).2.2.1 with
    ⟨hnow, heq⟩ | ⟨hmode, hlate, init, hsub, hlt, heq⟩
  · rw [heq]
    refine ⟨⟨le_rfl, fun hmode k hk hk' => ?_, nofun, Pairwise.nil, fun _ => rfl⟩, .inl rfl⟩
    have hsynced : sp.wmax ≤ a.synced := hnow.resolve_left (by rw [hmode]; exact Bool.false_ne_true)
    exact hw.durable hsynced hk' (hcov k hk hk')
  · rw [heq]
    refine ⟨⟨h.le, h.durable, ?_, ?_, fun hm => ?_⟩, .inr ?_⟩
    · intro p hp
      rcases mem_append.mp hp with hp | hp
      · exact h.pending p (hsub.subset hp)
      · obtain rfl := mem_singleton.mp hp
        exact ⟨le_rfl, hlate, le_rfl, hw⟩
    · refine pairwise_append.mpr ⟨h.sorted.sublist hsub, pairwise_singleton _ _, ?_⟩
      intro p hp q hq
      obtain rfl := mem_singleton.mp hq
      exact hlt p hp
    · rw [hmode] at hm
      exact absurd hm Bool.false_ne_true
    · exact getLast?_concat

/-! ### The sync -/

theorem lt_of_mem_dropWhile {ps : List Pend} (hs : ps.Pairwise fun p q => p.w < q.w) {x : Nat} :
    ∀ p ∈ ps.dropWhile (fun p => p.w ≤ x), x < p.w := by
  induction ps with
  | nil => exact nofun
  | cons q ps ih =>
    rw [pairwise_cons] at hs
    rw [dropWhile_cons]
    split
    · exact ih hs.2
    · rename_i hq
      rw [decide_eq_true_eq, not_le] at hq
      intro p hp
      rcases mem_cons.mp hp with rfl | hp
      · exact hq
      · exact lt_trans hq (hs.1 p hp)

theorem Queue.sync {mode : Bool} {x : Nat} (h : Queue mode synced l sp) (hx : synced ≤ x)
    (hcov : ∀ k, 1 ≤ k → k ≤ sp.mark → l.Covers k) : Queue mode x l (sp.sync x) where
  le := by
    have hle : (sp.sync x).dmark ≤ sp.dmark ∨ _ :=
      (Greatest.le_foldl_max_iff Pend.seq _ _ _).mp le_rfl
    rcases hle with hle | ⟨p, hp, hle⟩
    · exact le_trans hle h.le
    · have hp' := (takeWhile_sublist _).subset hp
      exact le_trans hle (h.pending p hp').1
  durable := by
    intro hmode k hk hk'
    rcases (Greatest.le_foldl_max_iff Pend.seq _ _ _).mp hk' with hle | ⟨p, hp, hle⟩
    · exact (h.durable hmode k hk hle).mono hx
    · -- the pair's WAL maximum is synced, and it bounds the number's own
      obtain ⟨hmark, -, -, hat⟩ := h.pending p ((takeWhile_sublist _).subset hp)
      have hpx := mem_takeWhile_imp hp
      exact hat.durable (of_decide_eq_true hpx) hle (hcov k hk (le_trans hle hmark))
  pending := by
    intro p hp
    obtain ⟨hmark, -, hw, hat⟩ := h.pending p ((dropWhile_sublist _).subset hp)
    exact ⟨hmark, lt_of_mem_dropWhile h.sorted p hp, hw, hat⟩
  sorted := h.sorted.sublist (dropWhile_sublist _)
  immediate := by
    intro hmode
    change sp.pend.dropWhile _ = []
    rw [h.immediate hmode]
    rfl

theorem Space.dmark_le_sync (sp : Space) (x : Nat) : sp.dmark ≤ (sp.sync x).dmark :=
  (Greatest.le_foldl_max_iff Pend.seq _ _ _).mpr (.inl le_rfl)

theorem Space.Waits.sync (h : sp.Waits) (x : Nat) (hle : (sp.sync x).dmark ≤ sp.mark) :
    (sp.sync x).Waits := by
  rcases h with h | h
  · left
    have := sp.dmark_le_sync x
    exact le_antisymm hle (h ▸ this)
  · have hsplit : sp.pend.takeWhile (fun p => p.w ≤ x) ++ (sp.sync x).pend = sp.pend :=
      takeWhile_append_dropWhile
    cases hrest : (sp.sync x).pend with
    | nil =>
      -- the last pair was among those synced
      left
      rw [hrest, append_nil] at hsplit
      refine le_antisymm hle ((Greatest.le_foldl_max_iff Pend.seq _ _ _).mpr (.inr ?_))
      rw [hsplit]
      exact ⟨_, mem_of_getLast? h, le_refl sp.mark⟩
    | cons p ps =>
      right
      rw [← hsplit, getLast?_append_of_ne_nil _ (by rw [hrest]; exact cons_ne_nil p ps)] at h
      exact h

/-! ### A space and its ledger -/

/-- A space whose fields are those of its ledger. -/
structure Counted (mode : Bool) (synced : Nat) (l : Ledger) (sp : Space) : Prop where
  held : Held sp l.numbers
  contiguous : Contiguous l sp.mark
  highest : Highest l sp.mark sp.hi
  weighed : Weighed l sp.mark sp.wmax sp.wahead
  queue : Queue mode synced l sp

/-- A space that has also confirmed its mark, or has it waiting. -/
structure Sound (mode : Bool) (synced : Nat) (l : Ledger) (sp : Space) : Prop
    extends Counted mode synced l sp where
  waits : sp.Waits

/-- `confirm` changes the durable mark and the pairs only. -/
theorem confirm_rest (a : Clack) (sp : Space) : a.confirm sp =
      { sp with dmark := (a.confirm sp).dmark, pend := (a.confirm sp).pend } := by
  unfold Clack.confirm
  split
  · rfl
  · split
    · rfl
    · split
      · rfl
      · split <;> rfl

theorem confirm_wahead (a : Clack) (sp : Space) (x : Nat) :
    { a.confirm sp with wahead := x } = a.confirm { sp with wahead := x } := by
  unfold Clack.confirm
  dsimp only
  split
  · rfl
  · split
    · rfl
    · split
      · rfl
      · split <;> rfl

theorem Counted.confirm {a : Clack} (h : Counted a.durableOnApply a.synced l sp) :
    Sound a.durableOnApply a.synced l (a.confirm sp) := by
  obtain ⟨hq, hwaits⟩ := h.queue.confirm h.contiguous.covered h.weighed.upto
  rw [confirm_rest a sp] at hq hwaits ⊢
  exact
    { held := ⟨h.held.shows, h.held.bound, h.held.count, h.held.nodup⟩
      contiguous := h.contiguous
      highest := h.highest
      weighed := h.weighed
      queue := hq
      waits := hwaits }

/-- **The loop from a new mark.** The maximum of what was ahead goes in if the loop took
anything, and is forgotten when nothing is ahead any more. -/
theorem counted_connect {mode : Bool} (hheld : Held sp l.numbers)
    (hcov : ∀ k, 1 ≤ k → k ≤ sp.mark → l.Covers k) (hin : ∀ k, l.Inside k → k ≤ sp.mark)
    (hhigh : Highest l sp.mark sp.hi) (hw : Weighed l sp.mark wmax sp.wahead)
    (hq : Queue mode synced l { sp with wmax := wmax }) :
    Counted mode synced l { sp.connect.1 with
      wahead := if sp.connect.1.nahead = 0 then 0 else sp.connect.1.wahead
      wmax := if sp.connect.2 then max wmax sp.connect.1.wahead else wmax } := by
  obtain ⟨hc, htook⟩ := connect_spec hheld
  have hwa : sp.connect.1.wahead = sp.wahead := by rw [hc.rest]
  have hhi : sp.connect.1.hi = sp.hi := by rw [hc.rest]
  have hraise := hw.raise hc.le
  rw [← hc.held.count] at hraise
  simp only [← htook] at hraise
  have hcont : Contiguous l sp.connect.1.mark := .of_connected hc hcov hin
  refine ⟨⟨hc.held.shows, hc.held.bound, hc.held.count, hc.held.nodup⟩, hcont, ?_, ?_, ?_⟩
  · have hhigh' : Highest l sp.connect.1.mark sp.hi := hhigh.connected hc
    exact hhi ▸ hhigh'
  · exact hwa ▸ hraise
  · have hd : sp.connect.1.dmark = sp.dmark := by rw [hc.rest]
    have hp : sp.connect.1.pend = sp.pend := by rw [hc.rest]
    refine ⟨?_, ?_, ?_, ?_, ?_⟩
    · exact hd ▸ le_trans hq.le hc.le
    · exact hd ▸ hq.durable
    · intro p hmem
      rw [hp] at hmem
      obtain ⟨hmark, hlate, hwp, hat⟩ := hq.pending p hmem
      refine ⟨le_trans hmark hc.le, hlate, le_trans hwp ?_, hat⟩
      split
      · exact le_max_left _ _
      · exact le_rfl
    · exact hp ▸ hq.sorted
    · exact hp ▸ hq.immediate

end Perfcached.Cluster
