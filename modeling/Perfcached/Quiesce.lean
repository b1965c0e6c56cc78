import Mathlib
import Perfcached.Lib.Machine

/-!
# Perfcached.Quiesce

Per-thread quiescent state (`src/quiesce.c`) and the tables that wait in `retq` of `src/store.c`.

Every atomic access is a step: `pc_qs_enter` reads the sequence in one and stores it in another, and
`pc_qs_clear` looks at one line in a step. A table is unpublished, stamped and looked at on its own,
so any number of retirements run beside each other; that `reg_mx` orders them is not needed. The
sequence does not wrap.

What carries the proof is where a held table can be (`Safe`): a thread that holds a pointer took it
before the table was unpublished, so it stored a sequence below the stamp, and its line is still to
be looked at.
-/

namespace Perfcached.Quiesce

open Machine List Option Function Nat

def pcQsLines : Nat := 1024

/-- Where a thread stands. -/
inductive Turn
  /-- before `pc_qs_attach` -/
  | fresh
  | outside
  /-- in `pc_qs_enter`, with the sequence it read -/
  | entering (e : Nat)
  | inside
  deriving DecidableEq

/-- A thread: its line, and the tables whose pointers it took in this turn. -/
structure Thread where
  me : Option Nat := none
  turn : Turn := .fresh
  held : List Nat := []

/-- Where a table stands; in `pc_qs_clear` with the number of lines read and the next to look at. -/
inductive Table
  | unborn
  | published
  | unpublished
  | stamped (stamp : Nat)
  | looking (stamp n i : Nat)
  /-- `pc_qs_clear` answered 1 -/
  | clear
  | freed
  deriving DecidableEq

/-- The lines, the threads and the tables; a thread that uses a table given back makes a fault. -/
structure State (T : Nat) where
  seq : Nat
  nlines : Nat
  epoch : Nat → Nat
  thread : Fin T → Thread
  table : Nat → Table
  fault : Bool

variable {T : Nat}

def State.init (T : Nat) : State T := ⟨1, 0, fun _ => 0, fun _ => {}, fun _ => .unborn, false⟩

def State.setThread (s : State T) (t : Fin T) (th : Thread) : State T :=
  { s with thread := update s.thread t th }

def State.setTable (s : State T) (x : Nat) (p : Table) : State T :=
  { s with table := update s.table x p }

/-- `lines[me].epoch`, for a thread that has a line. -/
def State.store (s : State T) (me : Option Nat) (e : Nat) : State T :=
  match me with
  | some i => { s with epoch := update s.epoch i e }
  | none => s

inductive Act (T : Nat)
  | attach (t : Fin T)
  | enterRead (t : Fin T)
  | enterStore (t : Fin T)
  /-- the thread reads the published pointer of a table -/
  | take (t : Fin T) (x : Nat)
  | use (t : Fin T) (x : Nat)
  | exit (t : Fin T)
  | publish (x : Nat)
  | unpublish (x : Nat)
  | stamp (x : Nat)
  /-- `pc_qs_clear` reads `nlines` -/
  | begin (x : Nat)
  | look (x : Nat)
  | free (x : Nat)
  deriving DecidableEq

def step (s : State T) : Act T → Option (State T)
  | .attach t =>
    let th := s.thread t
    if th.turn = .fresh then
      -- past the last line the count is taken back, and the thread goes on uncounted
      if s.nlines < pcQsLines then
        some { s.setThread t { th with me := some s.nlines, turn := .outside } with
          nlines := s.nlines + 1 }
      else some (s.setThread t { th with turn := .outside })
    else none
  | .enterRead t =>
    let th := s.thread t
    if th.turn = .outside then
      some (s.setThread t { th with turn := if th.me = none then .inside else .entering s.seq })
    else none
  | .enterStore t =>
    let th := s.thread t
    match th.turn with
    | .entering e => some ((s.store th.me e).setThread t { th with turn := .inside })
    | _ => none
  | .take t x =>
    let th := s.thread t
    if th.turn = .inside ∧ s.table x = .published then
      some (s.setThread t { th with held := x :: th.held })
    else none
  | .use t x =>
    if (s.thread t).turn = .inside ∧ x ∈ (s.thread t).held then
      some { s with fault := s.fault || s.table x = .freed }
    else none
  | .exit t =>
    let th := s.thread t
    if th.turn = .inside then
      some ((s.store th.me 0).setThread t { th with turn := .outside, held := [] })
    else none
  | .publish x => if s.table x = .unborn then some (s.setTable x .published) else none
  | .unpublish x => if s.table x = .published then some (s.setTable x .unpublished) else none
  | .stamp x =>
    if s.table x = .unpublished then
      some { s.setTable x (.stamped (s.seq + 1)) with seq := s.seq + 1 }
    else none
  | .begin x =>
    match s.table x with
    | .stamped stamp => some (s.setTable x (.looking stamp s.nlines 0))
    | _ => none
  | .look x =>
    match s.table x with
    | .looking stamp n i =>
      if i < n ∧ i < pcQsLines then
        if s.epoch i ≠ 0 ∧ s.epoch i < stamp then some (s.setTable x (.stamped stamp))
        else some (s.setTable x (.looking stamp n (i + 1)))
      else some (s.setTable x .clear)
    | _ => none
  | .free x => if s.table x = .clear then some (s.setTable x .freed) else none

/-- Where a table can be while a thread holds it that stored the epoch `e` in line `i`. -/
def Safe (e i : Nat) : Table → Prop
  | .published | .unpublished => True
  | .stamped stamp => e < stamp
  | .looking stamp n j => e < stamp ∧ j ≤ i ∧ i < n
  | .unborn | .clear | .freed => False

/-- The stamp of a table that waits was taken from the sequence. -/
def Stamped (seq : Nat) : Table → Prop
  | .stamped stamp | .looking stamp _ _ => stamp ≤ seq
  | _ => True

/-- What is known of a thread that owns a line with this epoch. -/
structure Owns (s : State T) (th : Thread) (i e : Nat) : Prop where
  attached : th.turn ≠ .fresh
  entering : ∀ e', th.turn = .entering e' → 0 < e' ∧ e' ≤ s.seq
  inside : th.turn = .inside → 0 < e ∧ e ≤ s.seq
  parked : th.turn ≠ .inside → e = 0
  held : ∀ x ∈ th.held, th.turn = .inside ∧ Safe e i (s.table x)

structure Inv (s : State T) : Prop where
  apart : ∀ t t' i, (s.thread t).me = some i → (s.thread t').me = some i → t = t'
  owner : ∀ i, i < s.nlines ↔ ∃ t, (s.thread t).me = some i
  lines : s.nlines ≤ pcQsLines
  owns : ∀ t i, (s.thread t).me = some i → Owns s (s.thread t) i (s.epoch i)
  fresh : ∀ t, (s.thread t).me = none → (s.thread t).turn = .fresh ∧ (s.thread t).held = []
  idle : ∀ i, s.nlines ≤ i → s.epoch i = 0
  seq : 0 < s.seq
  stamps : ∀ x, Stamped s.seq (s.table x)
  fault : s.fault = false

variable {s s' : State T} {a : Act T} {t : Fin T} {th : Thread} {x stamp n i k e seq : Nat}
  {p : Table}

/-- A thread that has no line yet finds one. -/
theorem Inv.line_left (hT : T ≤ pcQsLines) (h : Inv s) (ht : (s.thread t).me = none) :
    s.nlines < pcQsLines := by
  choose f hf using fun i : Fin s.nlines => (h.owner i).mp i.2
  -- the owners of the lines, and the thread itself
  let g : Option (Fin s.nlines) → Fin T := fun o => o.elim t f
  have hme : ∀ o, (s.thread (g o)).me = o.map Fin.val := by
    intro o
    cases o with
    | none => exact ht
    | some i => exact hf i
  have hg : Injective g := fun a b hab =>
    map_injective Fin.val_injective ((hme a).symm.trans (hab ▸ hme b))
  have := Fintype.card_le_of_injective g hg
  simp only [Fintype.card_option, Fintype.card_fin] at this
  omega

theorem table_setTable (s : State T) (x y : Nat) (p : Table) :
    (s.setTable y p).table x = if x = y then p else s.table x :=
  update_apply _ _ _ _

theorem Stamped.mono (h : Stamped seq p) (hle : seq ≤ n) : Stamped n p := by
  cases p <;> simp only [Stamped] at h ⊢ <;> omega

open State

/-- A table moves on; no thread holds it where it cannot be held. -/
theorem Inv.setTable (h : Inv s) (hseq : s.seq ≤ seq) (hp : Stamped seq p)
    (hheld : ∀ t i, (s.thread t).me = some i → 0 < s.epoch i → s.epoch i ≤ s.seq →
      Safe (s.epoch i) i (s.table x) → Safe (s.epoch i) i p) :
    Inv { s.setTable x p with seq } where
  __ := h
  seq := lt_of_lt_of_le h.seq hseq
  stamps y := by
    simp only [State.setTable, update_apply]
    split
    · exact hp
    · exact (h.stamps y).mono hseq
  owns t i hi := by
    have howns := h.owns t i hi
    refine ⟨howns.attached, fun e he => (howns.entering e he).imp_right hseq.trans',
      fun hin => (howns.inside hin).imp_right hseq.trans', howns.parked, fun y hy => ?_⟩
    obtain ⟨hin, hsafe⟩ := howns.held y hy
    obtain ⟨hpos, hle⟩ := howns.inside hin
    refine ⟨hin, ?_⟩
    simp only [State.setTable, update_apply]
    split
    · subst y
      exact hheld t i hi hpos hle hsafe
    · exact hsafe

theorem Inv.turn (h : Inv s) (hi : (s.thread t).me = some i) (hme : th.me = some i)
    (howns : Owns s th i e) : Inv ((s.store (some i) e).setThread t th) where
  __ := h
  apart t₁ t₂ j := by
    have := h.apart t₁ t₂ j
    simp only [store, setThread, update_apply]
    grind
  owner j := by
    rw [store, setThread, h.owner]
    simp only [update_apply]
    grind
  owns t' j hj := by
    have hapart := h.apart t' t i
    have := h.owns t' j
    simp only [store, setThread, update_apply] at hj ⊢
    by_cases ht : t' = t
    · rw [if_pos ht] at hj ⊢
      obtain rfl : i = j := some.inj (hme.symm.trans hj)
      rw [if_pos rfl]
      exact { howns with }
    · rw [if_neg ht] at hj ⊢
      rw [if_neg (by rintro rfl; exact ht (hapart hj hi))]
      exact { this hj with }
  fresh t' ht' := by
    simp only [setThread, update_apply] at ht' ⊢
    split
    · simp_all
    · simp_all [store, h.fresh]
  idle j hj := by
    have := (h.owner i).mpr ⟨t, hi⟩
    have := h.idle j hj
    simp only [store, setThread, update_apply] at *
    grind

theorem Inv.attach (h : Inv s) (ht : (s.thread t).me = none) (hroom : s.nlines < pcQsLines) :
    Inv { s.setThread t { me := some s.nlines, turn := .outside } with
      nlines := s.nlines + 1 } where
  __ := h
  apart t₁ t₂ j := by
    have := h.apart t₁ t₂ j
    have hnew : ∀ t, (s.thread t).me ≠ some s.nlines := fun t ht =>
      absurd ((h.owner _).mpr ⟨t, ht⟩) (lt_irrefl _)
    simp only [setThread, update_apply]
    grind
  owner j := by
    have := h.owner j
    simp only [setThread, update_apply]
    grind
  lines := hroom
  owns t' j hj := by
    simp only [setThread, update_apply] at hj ⊢
    by_cases htt : t' = t
    · rw [if_pos htt] at hj ⊢
      obtain rfl := some.inj hj
      exact ⟨nofun, nofun, nofun, fun _ => h.idle _ le_rfl, nofun⟩
    · rw [if_neg htt] at hj ⊢
      exact { h.owns t' j hj with }
  fresh t' ht' := by
    simp only [setThread, update_apply] at ht' ⊢
    split
    · simp_all
    · simp_all [h.fresh]
  idle j hj := h.idle j (le_of_succ_le hj)

/-- A look at a line, or the answer behind the last one. -/
theorem Inv.look (h : Inv s) (hs : Quiesce.step s (.look x) = some s') : Inv s' := by
  simp only [Quiesce.step] at hs
  split at hs
  · rename_i stamp n j hx
    have hstamp := h.stamps x
    rw [hx] at hstamp
    split at hs
    · split at hs <;> cases hs
      · exact h.setTable le_rfl hstamp fun t i _ _ _ hsafe => by
          rw [hx] at hsafe
          exact hsafe.1
      · refine h.setTable le_rfl hstamp fun t i hi hpos _ hsafe => ?_
        rw [hx] at hsafe
        obtain ⟨hlt, hle, hn⟩ := hsafe
        -- a line that holds the table up would have been an answer 0
        have hne : j ≠ i := by
          rintro rfl
          omega
        exact ⟨hlt, by omega, hn⟩
    · cases hs
      refine h.setTable le_rfl trivial fun t i hi _ _ hsafe => ?_
      rw [hx] at hsafe
      obtain ⟨-, hle, hn⟩ := hsafe
      -- every line was looked at, so that no thread holds it
      have := (h.owner i).mpr ⟨t, hi⟩
      have := h.lines
      omega
  · cases hs

theorem Inv.step (hT : T ≤ pcQsLines) (h : Inv s) (hs : Quiesce.step s a = some s') : Inv s' := by
  have hline : ∀ t, (s.thread t).turn ≠ .fresh → ∃ i, (s.thread t).me = some i := by
    intro t ht
    cases hme : (s.thread t).me with
    | none => exact absurd (h.fresh t hme).1 ht
    | some i => exact ⟨i, rfl⟩
  have hsame : ∀ i, s.store (some i) (s.epoch i) = s := by simp [store]
  cases a <;> simp only [Quiesce.step] at hs
  case attach t =>
    obtain ⟨ht, hs⟩ := ite_none_right_eq_some.mp hs
    have hme : (s.thread t).me = none := by
      cases hme : (s.thread t).me with
      | none => rfl
      | some i => exact absurd ht (h.owns t i hme).attached
    rw [if_pos (h.line_left hT hme), (h.fresh t hme).2] at hs
    cases hs
    exact h.attach hme (h.line_left hT hme)
  case enterRead t =>
    split at hs <;> cases hs
    rename_i ht
    obtain ⟨i, hi⟩ := hline t (by rw [ht]; nofun)
    have howns := h.owns t i hi
    rw [hi, if_neg nofun, ← hsame i]
    refine h.turn hi rfl ⟨nofun, fun e he => ?_, nofun, fun _ => howns.parked (by rw [ht]; nofun),
      fun x hx => ?_⟩
    · cases he
      exact ⟨h.seq, le_rfl⟩
    · exact absurd (ht.symm.trans (howns.held x hx).1) nofun
  case enterStore t =>
    split at hs <;> cases hs
    rename_i e ht
    obtain ⟨i, hi⟩ := hline t (by rw [ht]; nofun)
    have howns := h.owns t i hi
    rw [hi]
    exact h.turn hi rfl ⟨nofun, nofun, fun _ => howns.entering e ht, fun h => absurd rfl h,
      fun x hx => absurd (ht.symm.trans (howns.held x hx).1) nofun⟩
  case take t x =>
    split at hs <;> cases hs
    rename_i hin
    obtain ⟨i, hi⟩ := hline t (by rw [hin.1]; nofun)
    have howns := h.owns t i hi
    rw [← hsame i]
    refine h.turn hi hi { howns with held := fun y hy => ?_ }
    rcases mem_cons.mp hy with rfl | hy
    · exact ⟨hin.1, by rw [hin.2]; trivial⟩
    · exact howns.held y hy
  case exit t =>
    split at hs <;> cases hs
    rename_i ht
    obtain ⟨i, hi⟩ := hline t (by rw [ht]; nofun)
    rw [hi]
    exact h.turn hi rfl ⟨nofun, nofun, nofun, fun _ => rfl, nofun⟩
  case use t x =>
    split at hs <;> cases hs
    rename_i hin
    obtain ⟨i, hi⟩ := hline t (by rw [hin.1]; nofun)
    have hsafe := ((h.owns t i hi).held x hin.2).2
    have hne : s.table x ≠ .freed := by
      intro hfreed
      rwa [hfreed] at hsafe
    exact { h with owns := fun t i hi => { h.owns t i hi with }, fault := by simp [h.fault, hne] }
  case publish x =>
    split at hs <;> cases hs
    exact h.setTable le_rfl trivial fun _ _ _ _ _ _ => trivial
  case unpublish x =>
    split at hs <;> cases hs
    exact h.setTable le_rfl trivial fun _ _ _ _ _ _ => trivial
  case stamp x =>
    split at hs <;> cases hs
    -- who holds the table now has entered before the stamp
    exact h.setTable (le_succ _) le_rfl fun t i hi _ hle _ => lt_succ_of_le hle
  case begin x =>
    split at hs <;> cases hs
    rename_i stamp hx
    have hstamp := h.stamps x
    rw [hx] at hstamp
    refine h.setTable le_rfl hstamp fun t i hi _ _ hsafe => ?_
    rw [hx] at hsafe
    exact ⟨hsafe, zero_le i, (h.owner i).mpr ⟨t, hi⟩⟩
  case look x => exact h.look hs
  case free x =>
    split at hs <;> cases hs
    rename_i hx
    exact h.setTable le_rfl trivial fun _ _ _ _ _ hsafe => by rwa [hx] at hsafe

theorem inv_init (T : Nat) : Inv (init T) where
  apart := nofun
  owner i := by simp [init]
  lines := zero_le _
  owns := nofun
  fresh _ _ := ⟨rfl, rfl⟩
  idle _ _ := rfl
  seq := one_pos
  stamps _ := trivial
  fault := rfl

/-! ### The answer -/

/-- No thread is inside, or on its way in, since before the stamp. -/
structure Left (stamp : Nat) (s : State T) : Prop where
  seq : stamp ≤ s.seq
  epoch : ∀ i, s.epoch i = 0 ∨ stamp ≤ s.epoch i
  entering : ∀ t e, (s.thread t).turn = .entering e → stamp ≤ e

theorem Left.setThread (h : Left stamp s) (t : Fin T)
    (hth : ∀ e, th.turn = .entering e → stamp ≤ e) :
    Left stamp (s.setThread t th) := by
  refine ⟨h.seq, h.epoch, fun t' e ht' => ?_⟩
  simp only [State.setThread, update_apply] at ht'
  split at ht'
  · exact hth e ht'
  · exact h.entering t' e ht'

theorem Left.store (h : Left stamp s) (me : Option Nat) (he : e = 0 ∨ stamp ≤ e) :
    Left stamp (s.store me e) := by
  cases me with
  | none => exact h
  | some i =>
    refine ⟨h.seq, fun j => ?_, h.entering⟩
    simp only [State.store, update_apply]
    split
    · exact he
    · exact h.epoch j

/-- Threads that enter again read a sequence that is no lower. -/
theorem Left.step (h : Left stamp s) (hs : Quiesce.step s a = some s') : Left stamp s' := by
  cases a <;> simp only [Quiesce.step] at hs
  case attach t =>
    have hset : ∀ me, Left stamp (s.setThread t { s.thread t with me, turn := .outside }) :=
      fun me => h.setThread t nofun
    split at hs
    · split at hs <;> cases hs
      · exact { hset (some s.nlines) with }
      · exact hset _
    · cases hs
  case enterRead t =>
    split at hs <;> cases hs
    refine h.setThread t fun e he => ?_
    split at he <;> cases he
    exact h.seq
  case enterStore t =>
    split at hs <;> cases hs
    rename_i e ht
    exact (h.store _ (.inr (h.entering t e ht))).setThread t nofun
  case take t x =>
    split at hs <;> cases hs
    exact h.setThread t (h.entering t)
  case exit t =>
    split at hs <;> cases hs
    exact (h.store _ (.inl rfl)).setThread t nofun
  case stamp x =>
    split at hs <;> cases hs
    exact ⟨le_succ_of_le h.seq, h.epoch, h.entering⟩
  case look x =>
    split at hs
    · split at hs
      · split at hs <;> cases hs <;> exact ⟨h.seq, h.epoch, h.entering⟩
      · cases hs
        exact ⟨h.seq, h.epoch, h.entering⟩
    · cases hs
  all_goals
    split at hs <;> cases hs
    exact ⟨h.seq, h.epoch, h.entering⟩

@[simp]
theorem table_store (s : State T) (me : Option Nat) (e : Nat) : (s.store me e).table = s.table := by
  cases me <;> rfl

/-- Only the steps of a table move it on, each from where it belongs. -/
theorem step_table (hs : Quiesce.step s a = some s') (x : Nat) :
    s'.table x = s.table x ∨ s.table x = .unborn ∨ s.table x = .published ∨
      s.table x = .unpublished ∨ (∃ stamp, s.table x = .stamped stamp) ∨ a = .look x ∨
      s.table x = .clear ∧ s'.table x = .freed := by
  cases a <;> simp only [Quiesce.step] at hs
  case look y => grind [table_setTable]
  case begin y => grind [table_setTable]
  case attach t => grind [setThread]
  all_goals
    split at hs <;> cases hs
    simp only [setThread, table_store, table_setTable]
    grind

/-- The answer of `pc_qs_clear` for the table is 1, or `k` of the lines were looked at. -/
def Answering (x stamp n k : Nat) (s : State T) : Prop :=
  (∃ i, s.table x = .looking stamp n i ∧ k ≤ i ∧ i ≤ n) ∨ s.table x = .clear ∨ s.table x = .freed

theorem Answering.step (hleft : Left stamp s) (h : Answering x stamp n k s)
    (hs : Quiesce.step s a = some s') :
    Answering x stamp n (k + if a = .look x then 1 else 0) s' := by
  have hmoved := step_table hs x
  by_cases ha : a = .look x
  · subst a
    rcases h with ⟨i, hx, hk, hn⟩ | hx | hx <;> simp only [Quiesce.step, hx] at hs
    · split at hs
      · have := hleft.epoch i
        rw [if_neg (by omega)] at hs
        cases hs
        exact .inl ⟨i + 1, by simp [table_setTable], by simp; omega, by omega⟩
      · cases hs
        exact .inr (.inl (by simp [table_setTable]))
    · cases hs
    · cases hs
  · rw [if_neg ha, add_zero]
    unfold Answering at h ⊢
    grind

theorem answering_run (hleft : Left stamp s) (h : Answering x stamp n k s) {acts : List (Act T)}
    (hrun : run step s acts = some s') :
    Answering x stamp n (k + acts.count (.look x)) s' := by
  induction acts generalizing s k with
  | nil =>
    cases hrun
    exact h
  | cons a acts ih =>
    obtain ⟨s₁, hs, hrun⟩ := bind_eq_some_iff.mp hrun
    have := ih (hleft.step hs) (h.step hleft hs) hrun
    simpa [count_cons, add_assoc, add_comm] using this

/-- The sequence that `pc_qs_enter` read for the turn a thread is in. -/
def State.entered (s : State T) (t : Fin T) : Option Nat :=
  match (s.thread t).turn with
  | .entering e => some e
  | .inside => (s.thread t).me.map s.epoch
  | .fresh | .outside => none

theorem Inv.left (h : Inv s) (hx : s.table x = .looking stamp n i)
    (hleft : ∀ t, ∀ e ∈ s.entered t, stamp ≤ e) : Left stamp s where
  seq := by
    have := h.stamps x
    rwa [hx] at this
  epoch i := by
    by_cases hi : i < s.nlines
    · obtain ⟨t, ht⟩ := (h.owner i).mp hi
      by_cases hin : (s.thread t).turn = .inside
      · exact .inr (hleft t _ (by simp [entered, hin, ht]))
      · exact .inl ((h.owns t i ht).parked hin)
    · exact .inl (h.idle i (by omega))
  entering t e ht := hleft t e (by simp [entered, ht])

/-- **No table is used after it was given back.** In every interleaving of at most `PC_QS_LINES`
threads and of any number of retirements no use finds its table freed; and where `pc_qs_clear`
begins after every thread that was inside since before the stamp has left, it never answers 0,
however often the threads enter again, and answers 1 when it has looked at all lines. -/
theorem no_table_used_after_freed (hT : T ≤ pcQsLines) {acts : List (Act T)} {s : State T}
    (hrun : run step (.init T) acts = some s) :
    s.fault = false ∧
    ∀ x stamp n, s.table x = .looking stamp n 0 → (∀ t, ∀ e ∈ s.entered t, stamp ≤ e) →
      ∀ acts' s', run step s acts' = some s' →
        ((∃ i, s'.table x = .looking stamp n i) ∨ s'.table x = .clear ∨ s'.table x = .freed) ∧
        (n < acts'.count (.look x) → s'.table x = .clear ∨ s'.table x = .freed) := by
  have h : Inv s := run_invariant (fun _ _ _ h _ hs => h.step hT hs) (inv_init T)
    (along_true step _ acts) hrun
  refine ⟨h.fault, fun x stamp n hx hleft acts' s' hrun' => ?_⟩
  have hans := answering_run (h.left hx hleft) (.inl ⟨0, hx, le_rfl, zero_le n⟩) hrun'
  rcases hans with ⟨i, hi, hcount, hle⟩ | hend
  · exact ⟨.inl ⟨i, hi⟩, fun hn => by omega⟩
  · exact ⟨.inr hend, fun _ => hend⟩

/-- A thread holds a table over its retirement: the first look answers 0, that after its exit 1. -/
def heldOver (t : Fin T) : List (Act T) :=
  [.publish 7, .attach t, .enterRead t, .enterStore t, .take t 7, .unpublish 7, .stamp 7, .begin 7,
    .look 7, .use t 7, .exit t, .begin 7, .look 7, .enterRead t, .look 7, .free 7]

theorem no_table_used_after_freed_heldOver :
    ∃ s, run step (.init 1) (heldOver 0) = some s ∧ s.table 7 = .freed ∧ s.fault = false := by
  obtain ⟨s, hrun⟩ : ∃ s, run step (.init 1) (heldOver 0) = some s := ⟨_, rfl⟩
  refine ⟨s, hrun, ?_, (no_table_used_after_freed (by decide) hrun).1⟩
  cases hrun
  rfl

end Perfcached.Quiesce
