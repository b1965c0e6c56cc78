import Mathlib
import Perfcached.Lib.Machine

/-!
# Perfcached.Upstream.Fetch

Read-through copies (`src/upstream.c`): the fetch of a key beside the pushes that invalidate it.

A fetch is an entry in flight. Its server reads the value, the reply is stored in that server's
shadow, the entry is checked for an invalidation under the collection's lock, and it is finished. A
push is handled in two parts: its key goes from every shadow (`sh_remove`), or every key goes from
the shadow of its server (`flush_shadow`), and then the entries in flight are marked
(`inflight_inv`). Each part is a step of its own, a removal one for each place of a shadow.

Time counts the changes at the servers. Of a value only the time it was read is kept, and whether
its lifetime is cut to `upstream_negative_ms`. A server sends a push for a change where a tracked
connection read the key since the last one, and it may send more.

A copy that is stale is *covered* as long as something will still reach it: a push that has its
place to remove, or the check of an entry that is marked or will be (`Covered`). The check loses
what a handler between its removal and its mark covers; `Settled` says there is no such handler.
-/

namespace Perfcached.Upstream

open Machine List Option Function Nat

variable {σ κ : Type}

/-! ### Shadows, entries and pushes -/

/-- What a shadow holds of a key: a value, a mark, or that the server has the key. -/
structure Copy where
  /-- when the server read it -/
  time : Nat
  /-- it lives for `upstream_negative_ms` at most -/
  capped : Bool
  deriving DecidableEq

/-- Where the fetch of an entry stands. -/
inductive Pc
  | queued
  /-- the server read the value, on a tracked connection or not (`fill_capped`) -/
  | read (time : Nat) (tracked : Bool)
  /-- `fetch` has returned 0; `present` is `UPF_PRESENT` -/
  | stored (present tracked : Bool)
  /-- `finish` comes -/
  | checked
  deriving DecidableEq

/-- `struct up_key`: an entry in flight, at a server. -/
structure Entry (σ : Type) where
  srv : σ
  inv : Bool
  rounds : Nat
  tried : Bool
  full : Bool
  rw : Bool
  pc : Pc
  deriving DecidableEq

/-- An invalidation a server sent, of a key or (`none`) of everything. -/
structure Push (σ κ : Type) where
  srv : σ
  target : Option κ
  /-- when the change was made -/
  time : Nat
  /-- the places of the shadows it has still to remove; `none` before `on_push` -/
  todo : Option (List (σ × κ))
  deriving DecidableEq

/-- The push is for a change of the key at the server. -/
def Push.Hits (p : Push σ κ) (srv : σ) (k : κ) : Prop := p.srv = srv ∧ ∀ k' ∈ p.target, k' = k

/-- The removal of that place is still to come. -/
def Push.Ahead (p : Push σ κ) (place : σ × κ) : Prop := ∀ ps ∈ p.todo, place ∈ ps

structure State (σ κ : Type) where
  now : Nat
  /-- the last change of a key at a server -/
  changed : σ × κ → Nat
  /-- a tracked connection read the key since the server last sent a push for it -/
  tracked : σ × κ → Bool
  shadow : AList fun _ : σ × κ => Copy
  inflight : κ → Option (Entry σ)
  pushes : List (Push σ κ)

/-- What `fetch` makes of the replies. -/
inductive Outcome
  /-- `store_fill` -/
  | value
  /-- `put_present` -/
  | present
  /-- `put_mark` -/
  | mark
  /-- no room for the value, or an absence that is not remembered -/
  | nothing
  deriving DecidableEq

inductive Act (σ κ : Type)
  /-- a key changes at a server, which sends a push or not -/
  | change (srv : σ) (k : κ) (notify : Bool)
  /-- every key of a server goes -/
  | changeAll (srv : σ)
  /-- `join_key` -/
  | join (k : κ) (srv : σ) (full rw : Bool)
  /-- an entry in the queue of a server that does not serve goes to another's -/
  | move (k : κ) (srv : σ)
  | read (k : κ) (tracked : Bool)
  | store (k : κ) (o : Outcome)
  /-- `fetch` fails; `fail_or_retry` picks another server or none -/
  | fail (k : κ) (other : Option σ)
  /-- `conn_main` after a fetch; `moved` is that the server's tracking moved meanwhile -/
  | check (k : κ) (moved : Bool)
  | finish (k : κ)
  /-- a copy expires, or goes because of a write -/
  | drop (place : σ × κ)
  /-- `on_push` takes up a push. The walk of `flush_shadow` meets what is in the shadow, and what
  is stored during it or not -/
  | take (i : Nat) (met : List (σ × κ))
  | remove (i : Nat)
  /-- `inflight_inv` -/
  | mark (i : Nat)
  deriving DecidableEq

variable [DecidableEq σ] [DecidableEq κ]

instance (p : Push σ κ) (srv : σ) (k : κ) : Decidable (p.Hits srv k) :=
  inferInstanceAs (Decidable (_ ∧ _))

instance (p : Push σ κ) (place : σ × κ) : Decidable (p.Ahead place) :=
  inferInstanceAs (Decidable (∀ ps ∈ p.todo, place ∈ ps))

namespace State

def setEntry (s : State σ κ) (k : κ) (e : Option (Entry σ)) : State σ κ :=
  { s with inflight := update s.inflight k e }

/-- The copy at a place lives for `upstream_negative_ms` from now on at most. -/
def cap (s : State σ κ) (place : σ × κ) : AList fun _ : σ × κ => Copy :=
  match s.shadow.lookup place with
  | some c => s.shadow.insert place { c with capped := true }
  | none => s.shadow

end State

/-- The shadow after `fetch` has stored what it read. -/
def Outcome.fill (o : Outcome) (s : State σ κ) (place : σ × κ) (time : Nat) (tracked : Bool) :
    AList fun _ : σ × κ => Copy :=
  match o with
  | .value | .present => s.shadow.insert place ⟨time, !tracked⟩
  | .mark => s.shadow.insert place ⟨time, true⟩
  | .nothing => s.shadow

/-- `conn_main` after a fetch that returned 0, under the lock. -/
def checkEntry (s : State σ κ) (k : κ) (e : Entry σ) (present tracked moved : Bool) : State σ κ :=
  let place := (e.srv, k)
  if e.inv = true ∧ e.rounds < 3 then
    { s with shadow := s.shadow.erase place }.setEntry k
      (some { e with inv := false, rounds := e.rounds + 1, pc := .queued })
  else
    let s := if e.inv = true then { s with shadow := s.cap place } else s
    if present = true ∧ e.full = true then s.setEntry k (some { e with pc := .queued })
    else if e.rw = true ∧ (tracked = false ∨ moved = true) then
      { s with shadow := s.shadow.erase place }.setEntry k (some { e with pc := .checked })
    else s.setEntry k (some { e with pc := .checked })

/-- The places a push removes: a key from the shadow of every server, or what the shadow of its
own server holds. -/
def Push.places (servers : List σ) (p : Push σ κ) (s : State σ κ) (met : List (σ × κ)) :
    List (σ × κ) :=
  match p.target with
  | some k => servers.map fun srv => (srv, k)
  | none => s.shadow.keys.filter (fun place => place.1 = p.srv) ++ met

def step (servers : List σ) (s : State σ κ) : Act σ κ → Option (State σ κ)
  | .change srv k notify =>
    if srv ∈ servers ∧ (s.tracked (srv, k) = true → notify = true) then
      some
        { s with
          now := s.now + 1
          changed := update s.changed (srv, k) (s.now + 1)
          tracked := update s.tracked (srv, k) false
          pushes := s.pushes ++ if notify then [⟨srv, some k, s.now + 1, none⟩] else [] }
    else none
  | .changeAll srv =>
    if srv ∈ servers then
      some
        { s with
          now := s.now + 1
          changed := fun place => if place.1 = srv then s.now + 1 else s.changed place
          tracked := fun place => if place.1 = srv then false else s.tracked place
          pushes := s.pushes ++ [⟨srv, none, s.now + 1, none⟩] }
    else none
  | .join k srv full rw =>
    match s.inflight k with
    | some e => some (s.setEntry k (some { e with full := e.full || full }))
    | none => some (s.setEntry k (some ⟨srv, false, 0, false, full, rw, .queued⟩))
  | .move k srv =>
    (s.inflight k).bind fun e =>
      if e.pc = .queued then some (s.setEntry k (some { e with srv })) else none
  | .read k tracked =>
    (s.inflight k).bind fun e =>
      if e.pc = .queued then
        some ({ s with
              tracked := update s.tracked (e.srv, k)
                (s.tracked (e.srv, k) || tracked) }.setEntry k
            (some { e with pc := .read s.now tracked }))
      else none
  | .store k o =>
    (s.inflight k).bind fun e =>
      match e.pc with
      | .read time tracked =>
        some ({ s with shadow := o.fill s (e.srv, k) time tracked }.setEntry k
            (some { e with pc := .stored (decide (o = Outcome.present)) tracked }))
      | _ => none
  | .fail k other =>
    (s.inflight k).bind fun e =>
      match e.pc, other with
      | .queued, none | .read _ _, none => some (s.setEntry k (some { e with pc := .checked }))
      | .queued, some srv | .read _ _, some srv =>
        if e.tried = true then none
        else some (s.setEntry k (some { e with srv, tried := true, pc := .queued }))
      | _, _ => none
  | .check k moved =>
    (s.inflight k).bind fun e =>
      match e.pc with
      | .stored present tracked => some (checkEntry s k e present tracked moved)
      | _ => none
  | .finish k =>
    (s.inflight k).bind fun e => if e.pc = .checked then some (s.setEntry k none) else none
  | .drop place => some { s with shadow := s.shadow.erase place }
  | .take i met =>
    s.pushes[i]?.bind fun p =>
      if p.todo = none then
        some { s with pushes := s.pushes.set i { p with todo := some (p.places servers s met) } }
      else none
  | .remove i =>
    s.pushes[i]?.bind fun p =>
      match p.todo with
      | some (place :: ps) =>
        some
          { s with
            shadow := s.shadow.erase place
            pushes := s.pushes.set i { p with todo := some ps } }
      | _ => none
  | .mark i =>
    s.pushes[i]?.bind fun p =>
      if p.todo = some [] then
        some
          { s with
            inflight := fun k => (s.inflight k).map fun e =>
              if ∀ k' ∈ p.target, k' = k then { e with inv := true } else e
            pushes := s.pushes.eraseIdx i }
      else none

def init : State σ κ := ⟨0, fun _ => 0, fun _ => false, ∅, fun _ => none, []⟩

/-- Where an entry is checked that is not marked, no handler stands between its removal of the
copy's place and its mark, with a copy there that is older than its change. -/
def Settled (s : State σ κ) : Act σ κ → Prop
  | .check k _ =>
    ∀ e ∈ s.inflight k, e.inv = false → ∀ p ∈ s.pushes, p.Hits e.srv k →
      ¬ p.Ahead (e.srv, k) → ∀ c ∈ s.shadow.lookup (e.srv, k), c.capped = true ∨ p.time ≤ c.time
  | _ => True

instance decidableSettled (s : State σ κ) : DecidablePred (Settled s) := fun a => by
  unfold Settled
  split <;> infer_instance

/-! ### What still reaches a copy -/

section Covered

variable {servers : List σ} {s s' : State σ κ} {srv : σ} {k : κ} {t : Nat}

/-- The value read at `t` is the server's, which will say when it changes. -/
def Fresh (s : State σ κ) (place : σ × κ) (t : Nat) : Prop :=
  s.changed place ≤ t ∧ s.tracked place = true

/-- A push for a change after `t` has not marked the entries yet. -/
def Coming (s : State σ κ) (srv : σ) (k : κ) (t : Nat) : Prop :=
  ∃ p ∈ s.pushes, p.Hits srv k ∧ t < p.time

/-- A push will remove the copy. -/
def Removing (s : State σ κ) (srv : σ) (k : κ) : Prop :=
  ∃ p ∈ s.pushes, p.Hits srv k ∧ p.Ahead (srv, k)

/-- The entry that stored the copy will be checked, and is marked or will be. -/
def Checking (s : State σ κ) (srv : σ) (k : κ) (t : Nat) : Prop :=
  ∃ e, s.inflight k = some e ∧ e.srv = srv ∧ (∃ present tracked, e.pc = .stored present tracked) ∧
    (e.inv = true ∨ Coming s srv k t)

/-- A copy read at `t` is the server's value, or something will reach it. -/
def Covered (s : State σ κ) (srv : σ) (k : κ) (t : Nat) : Prop :=
  Fresh s (srv, k) t ∨ Removing s srv k ∨ Checking s srv k t

structure Inv (servers : List σ) (s : State σ κ) : Prop where
  srvs : ∀ p ∈ s.pushes, p.srv ∈ servers
  clock : ∀ place, s.changed place ≤ s.now
  past : ∀ k e t tracked, s.inflight k = some e → e.pc = .read t tracked → t ≤ s.now
  /-- what a tracked connection read and did not store yet -/
  reads : ∀ k e t, s.inflight k = some e → e.pc = .read t true →
    Fresh s (e.srv, k) t ∨ e.inv = true ∨ Coming s e.srv k t
  copies : ∀ srv k c, s.shadow.lookup (srv, k) = some c → c.capped = false → Covered s srv k c.time

/-! ### A step on an entry -/

omit [DecidableEq σ] [DecidableEq κ] in
/-- The pushes stay, and what the servers know of the place. -/
theorem Covered.of_same (h : Covered s srv k t) (hpushes : s'.pushes = s.pushes)
    (hfresh : Fresh s (srv, k) t → Fresh s' (srv, k) t)
    (hcheck : Checking s srv k t → Covered s' srv k t) : Covered s' srv k t := by
  rcases h with hf | hr | hc
  · exact .inl (hfresh hf)
  · refine .inr (.inl ?_)
    rw [Removing, hpushes]
    exact hr
  · exact hcheck hc

section

variable (h : Inv servers s)
include h

/-- An entry changes that stays as it is where it was stored: the others' copies are covered as
they were. -/
theorem Inv.entry {e' : Option (Entry σ)} {shadow : AList fun _ : σ × κ => Copy}
    (hread : ∀ e t tracked, e' = some e → e.pc = .read t tracked → t ≤ s.now ∧ (tracked = true →
      Fresh s (e.srv, k) t ∨ e.inv = true ∨ Coming s e.srv k t))
    (hother : ∀ place, place.2 ≠ k → shadow.lookup place = s.shadow.lookup place)
    (hcopies : ∀ srv c, shadow.lookup (srv, k) = some c → c.capped = false →
      Covered ({ s with shadow }.setEntry k e') srv k c.time) :
    Inv servers ({ s with shadow }.setEntry k e') := by
  refine ⟨h.srvs, h.clock, ?_, ?_, ?_⟩
  · intro k' e t tracked he hpc
    by_cases hk : k' = k
    · subst hk
      exact (hread e t tracked (by simpa [State.setEntry] using he) hpc).1
    · exact h.past k' e t tracked (by simpa [State.setEntry, hk] using he) hpc
  · intro k' e t he hpc
    by_cases hk : k' = k
    · subst hk
      exact (hread e t true (by simpa [State.setEntry] using he) hpc).2 rfl
    · exact h.reads k' e t (by simpa [State.setEntry, hk] using he) hpc
  · intro srv k' c hc hcap
    by_cases hk : k' = k
    · subst hk
      exact hcopies srv c hc hcap
    · rw [State.setEntry, hother _ hk] at hc
      refine (h.copies srv k' c hc hcap).of_same rfl id ?_
      rintro ⟨e, he, hrest⟩
      exact .inr (.inr ⟨e, by simpa [State.setEntry, hk] using he, hrest⟩)

/-- The entry was not at its check, and the shadow stays. -/
theorem Inv.unstored {e' : Option (Entry σ)}
    (hpc : ∀ e present tracked, s.inflight k = some e → e.pc ≠ .stored present tracked)
    (hread : ∀ e t tracked, e' = some e → e.pc = .read t tracked → t ≤ s.now ∧ (tracked = true →
      Fresh s (e.srv, k) t ∨ e.inv = true ∨ Coming s e.srv k t)) :
    Inv servers (s.setEntry k e') := by
  refine @Inv.entry σ κ _ _ servers s k h e' s.shadow hread (fun _ _ => rfl) ?_
  intro srv c hc hcap
  refine (h.copies srv k c hc hcap).of_same rfl id ?_
  rintro ⟨e, he, -, ⟨present, tracked, hst⟩, -⟩
  exact absurd hst (hpc e present tracked he)

theorem Inv.join {srv : σ} {full rw : Bool}
    (hstep : step servers s (.join k srv full rw) = some s') :
    Inv servers s' := by
  simp only [step] at hstep
  cases he : s.inflight k with
  | none =>
    rw [he] at hstep
    cases hstep
    refine h.unstored (fun e _ _ he' => absurd (he.symm.trans he') (by simp)) ?_
    intro e t tracked heq hpc
    cases heq
    cases hpc
  | some e =>
    rw [he] at hstep
    cases hstep
    refine @Inv.entry σ κ _ _ servers s k h _ s.shadow ?_ (fun _ _ => rfl) ?_
    · intro e' t tracked heq hpc
      cases heq
      refine ⟨h.past k e t tracked he hpc, ?_⟩
      rintro rfl
      exact h.reads k e t he hpc
    · intro srv c hc hcap
      refine (h.copies srv k c hc hcap).of_same rfl id ?_
      rintro ⟨e', he', hrest⟩
      obtain rfl := some.inj (he.symm.trans he')
      exact .inr (.inr ⟨_, update_self _ _ _, hrest⟩)

/-- An entry that is neither read nor stored afterwards. -/
theorem Inv.shelved {e e' : Entry σ} (he : s.inflight k = some e)
    (hpc : ∀ present tracked, e.pc ≠ .stored present tracked)
    (hpc' : ∀ t tracked, e'.pc ≠ .read t tracked) : Inv servers (s.setEntry k (some e')) := by
  refine h.unstored ?_ ?_
  · intro e'' present tracked he'
    obtain rfl := some.inj (he.symm.trans he')
    exact hpc present tracked
  · intro e'' t tracked heq hread
    cases heq
    exact absurd hread (hpc' t tracked)

theorem Inv.move {srv : σ} (hstep : step servers s (.move k srv) = some s') : Inv servers s' := by
  obtain ⟨e, he, hstep⟩ := bind_eq_some_iff.mp hstep
  obtain ⟨hpc, hstep⟩ := ite_none_right_eq_some.mp hstep
  cases hstep
  exact h.shelved he (by simp [hpc]) (by simp [hpc])

theorem Inv.track (place : σ × κ) (b : Bool) :
    Inv servers { s with tracked := update s.tracked place (s.tracked place || b) } := by
  have hmono : ∀ place' t, Fresh s place' t →
      Fresh { s with tracked := update s.tracked place (s.tracked place || b) }
        place' t := by
    intro place' t ⟨hle, htr⟩
    refine ⟨hle, ?_⟩
    by_cases hp : place' = place
    · subst hp
      simp [htr]
    · simp [hp, htr]
  refine ⟨h.srvs, h.clock, h.past, ?_, ?_⟩
  · intro k e t he hpc
    exact (h.reads k e t he hpc).imp (hmono _ _) id
  · intro srv k c hc hcap
    exact (h.copies srv k c hc hcap).of_same rfl (hmono _ _) fun hcheck => .inr (.inr hcheck)

theorem Inv.read {tracked : Bool} (hstep : step servers s (.read k tracked) = some s') :
    Inv servers s' := by
  obtain ⟨e, he, hstep⟩ := bind_eq_some_iff.mp hstep
  obtain ⟨hpc, hstep⟩ := ite_none_right_eq_some.mp hstep
  cases hstep
  refine (h.track (e.srv, k) tracked).unstored ?_ ?_
  · intro e' _ _ he' hst
    obtain rfl := some.inj (he.symm.trans he')
    cases hpc.symm.trans hst
  · intro e' t tracked' heq hpc'
    cases heq
    obtain ⟨rfl, rfl⟩ := Pc.read.inj hpc'
    refine ⟨le_rfl, ?_⟩
    rintro rfl
    exact .inl ⟨h.clock _, by simp⟩

theorem Inv.fail {other : Option σ} (hstep : step servers s (.fail k other) = some s') :
    Inv servers s' := by
  obtain ⟨e, he, hstep⟩ := bind_eq_some_iff.mp hstep
  cases hpc : e.pc with
  | stored | checked => simp [hpc] at hstep
  | queued | read =>
    cases other with
    | none =>
      simp only [hpc, some.injEq] at hstep
      obtain rfl := hstep
      exact h.shelved he (by simp [hpc]) (by simp)
    | some srv =>
      simp only [hpc, ite_none_left_eq_some, some.injEq] at hstep
      obtain ⟨-, rfl⟩ := hstep
      exact h.shelved he (by simp [hpc]) (by simp)

theorem Inv.finish (hstep : step servers s (.finish k) = some s') : Inv servers s' := by
  obtain ⟨e, he, hstep⟩ := bind_eq_some_iff.mp hstep
  obtain ⟨hpc, hstep⟩ := ite_none_right_eq_some.mp hstep
  cases hstep
  refine h.unstored ?_ nofun
  intro e' _ _ he' hst
  obtain rfl := some.inj (he.symm.trans he')
  cases hpc.symm.trans hst

end

/-! ### The store and the check -/

section

variable {o : Outcome} {place place' : σ × κ} {tracked : Bool}

/-- A copy without a cap that is there after a store: the one of a tracked read, or one from
before. -/
theorem Outcome.lookup_fill {c : Copy} (hc : (o.fill s place t tracked).lookup place' = some c) :
    c.capped = true ∨ (place' = place ∧ tracked = true ∧ c.time = t) ∨
      s.shadow.lookup place' = some c := by
  by_cases hp : place' = place
  · subst hp
    cases o with
    | nothing => exact .inr (.inr hc)
    | mark =>
      rw [fill, AList.lookup_insert] at hc
      cases hc
      exact .inl rfl
    | value | present =>
      rw [fill, AList.lookup_insert] at hc
      cases hc
      cases tracked with
      | false => exact .inl rfl
      | true => exact .inr (.inl ⟨rfl, rfl, rfl⟩)
  · cases o with
    | nothing => exact .inr (.inr hc)
    | mark | value | present =>
      rw [fill, AList.lookup_insert_ne hp] at hc
      exact .inr (.inr hc)

theorem Outcome.lookup_fill_ne (hp : place' ≠ place) :
    (o.fill s place t tracked).lookup place' = s.shadow.lookup place' := by
  cases o with
  | nothing => rfl
  | mark | value | present => rw [fill, AList.lookup_insert_ne hp]

end

theorem Inv.store {o : Outcome} (h : Inv servers s)
    (hstep : step servers s (.store k o) = some s') : Inv servers s' := by
  obtain ⟨e, he, hstep⟩ := bind_eq_some_iff.mp hstep
  cases hpc : e.pc with
  | queued | stored | checked => simp [hpc] at hstep
  | read t tracked =>
    simp only [hpc, some.injEq] at hstep
    obtain rfl := hstep
    refine h.entry ?_ ?_ ?_
    · intro e' _ _ heq hread
      cases heq
      cases hread
    · exact fun place hne => Outcome.lookup_fill_ne fun heq => hne (by rw [heq])
    · intro srv c hc hcap
      rcases Outcome.lookup_fill hc with hcap' | ⟨hplace, rfl, rfl⟩ | hold
      · exact absurd (hcap.symm.trans hcap') (by decide)
      · obtain ⟨rfl, -⟩ := Prod.mk.inj hplace
        rcases h.reads k e c.time he hpc with hfresh | hmark
        · exact .inl hfresh
        · exact .inr (.inr ⟨_, update_self _ _ _, rfl, ⟨_, _, rfl⟩, hmark⟩)
      · refine (h.copies srv k c hold hcap).of_same rfl id ?_
        rintro ⟨e', he', -, ⟨_, _, hst⟩, -⟩
        obtain rfl := some.inj (he.symm.trans he')
        cases hpc.symm.trans hst

omit [DecidableEq σ] [DecidableEq κ] in
theorem lookup_of_erase [DecidableEq (σ × κ)] {m : AList fun _ : σ × κ => Copy}
    {place place' : σ × κ} {c : Copy} (hc : (m.erase place).lookup place' = some c) :
    place' ≠ place ∧ m.lookup place' = some c := by
  by_cases hp : place' = place
  · rw [hp, AList.lookup_erase] at hc
    cases hc
  · exact ⟨hp, by rwa [AList.lookup_erase_ne hp] at hc⟩

theorem State.lookup_cap {place place' : σ × κ} {c : Copy}
    (hc : (s.cap place).lookup place' = some c) :
    c.capped = true ∨ place' ≠ place ∧ s.shadow.lookup place' = some c := by
  rw [cap] at hc
  by_cases hp : place' = place
  · subst hp
    cases hold : s.shadow.lookup place' with
    | none =>
      rw [hold] at hc
      simp only [hold] at hc
      cases hc
    | some c' =>
      simp only [hold, AList.lookup_insert] at hc
      cases hc
      exact .inl rfl
  · refine .inr ⟨hp, ?_⟩
    split at hc
    · rwa [AList.lookup_insert_ne hp] at hc
    · exact hc

theorem State.lookup_cap_ne {place place' : σ × κ} (hp : place' ≠ place) :
    (s.cap place).lookup place' = s.shadow.lookup place' := by
  rw [cap]
  split
  · rw [AList.lookup_insert_ne hp]
  · rfl

/-- What a check leaves without a cap was there before, and if it is at the entry's own place the
entry was not marked. -/
theorem checkEntry_spec (s : State σ κ) (k : κ) (e : Entry σ) (present tracked moved : Bool) :
    ∃ e' shadow, checkEntry s k e present tracked moved = { s with shadow }.setEntry k (some e') ∧
      (∀ t tracked, e'.pc ≠ .read t tracked) ∧
      (∀ place, place.2 ≠ k → shadow.lookup place = s.shadow.lookup place) ∧
      ∀ srv c, shadow.lookup (srv, k) = some c → c.capped = false →
        s.shadow.lookup (srv, k) = some c ∧ (srv = e.srv → e.inv = false) := by
  have hne : ∀ place : σ × κ, place.2 ≠ k → place ≠ (e.srv, k) := by
    rintro place hk rfl
    exact hk rfl
  unfold checkEntry
  by_cases hagain : e.inv = true ∧ e.rounds < 3
  · refine ⟨_, _, if_pos hagain, by simp, fun place hk => AList.lookup_erase_ne (hne place hk), ?_⟩
    intro srv c hc _
    obtain ⟨hplace, hold⟩ := lookup_of_erase hc
    exact ⟨hold, fun hsrv => absurd (by rw [hsrv]) hplace⟩
  · rw [if_neg hagain]
    -- what the cap leaves, whatever comes after it
    obtain ⟨shadow, heq, hother, hleft⟩ : ∃ shadow,
        (if e.inv = true then { s with shadow := s.cap (e.srv, k) } else s) = { s with shadow } ∧
        (∀ place, place.2 ≠ k → shadow.lookup place = s.shadow.lookup place) ∧
        ∀ srv c, shadow.lookup (srv, k) = some c → c.capped = false →
          s.shadow.lookup (srv, k) = some c ∧ (srv = e.srv → e.inv = false) := by
      by_cases hinv : e.inv = true
      · refine ⟨_, if_pos hinv, fun place hk => State.lookup_cap_ne (hne place hk), ?_⟩
        intro srv c hc hcap
        rcases State.lookup_cap hc with hcap' | ⟨hplace, hold⟩
        · exact absurd (hcap.symm.trans hcap') (by decide)
        · exact ⟨hold, fun hsrv => absurd (by rw [hsrv]) hplace⟩
      · exact ⟨_, if_neg hinv, fun _ _ => rfl, fun _ _ hc _ =>
          ⟨hc, fun _ => Bool.eq_false_iff.mpr hinv⟩⟩
    simp only [heq]
    split
    · exact ⟨_, _, rfl, by simp, hother, hleft⟩
    · split
      · refine ⟨_, _, rfl, by simp, fun place hk => ?_, fun srv c hc => ?_⟩
        · exact (AList.lookup_erase_ne (hne place hk)).trans (hother place hk)
        · exact hleft srv c (lookup_of_erase hc).2
      · exact ⟨_, _, rfl, by simp, hother, hleft⟩

theorem Inv.check {moved : Bool} (h : Inv servers s) (hok : Settled s (.check k moved))
    (hstep : step servers s (.check k moved) = some s') : Inv servers s' := by
  obtain ⟨e, he, hstep⟩ := bind_eq_some_iff.mp hstep
  cases hpc : e.pc with
  | queued | read | checked => simp [hpc] at hstep
  | stored present tracked =>
    simp only [hpc, some.injEq] at hstep
    obtain ⟨e', shadow, heq, hread, hother, hleft⟩ := checkEntry_spec s k e present tracked moved
    rw [heq] at hstep
    obtain rfl := hstep
    refine h.entry ?_ hother ?_
    · intro e'' t tracked heq hr
      cases heq
      exact absurd hr (hread t tracked)
    · intro srv c hc hcap
      obtain ⟨hold, hmarked⟩ := hleft srv c hc hcap
      refine (h.copies srv k c hold hcap).of_same rfl id ?_
      rintro ⟨e'', he'', rfl, -, hinv | ⟨p, hp, hhits, hlt⟩⟩ <;>
        obtain rfl := some.inj (he.symm.trans he'')
      · exact absurd (hinv.symm.trans (hmarked rfl)) (by decide)
      · -- the push has the copy still to remove, or the check would have met it in between
        by_cases hahead : p.Ahead (e.srv, k)
        · exact .inr (.inl ⟨p, hp, hhits, hahead⟩)
        · rcases hok e he (hmarked rfl) p hp hhits hahead c hold with hcap' | hle
          · exact absurd (hcap.symm.trans hcap') (by decide)
          · exact absurd hlt (not_lt.mpr hle)

/-! ### The pushes -/

omit [DecidableEq σ] [DecidableEq κ] in
theorem Coming.mono {pushes : List (Push σ κ)} (h : Coming s srv k t) (hp : s'.pushes = pushes)
    (hsub : ∀ p ∈ s.pushes, p.Hits srv k → ∃ p' ∈ pushes, p'.Hits srv k ∧ p'.time = p.time) :
    Coming s' srv k t := by
  obtain ⟨p, hmem, hhits, hlt⟩ := h
  obtain ⟨p', hmem', hhits', htime⟩ := hsub p hmem hhits
  exact ⟨p', hp ▸ hmem', hhits', htime ▸ hlt⟩

section

variable (h : Inv servers s)
include h

/-- Changes at the servers: where a value was fresh it still is, or a push was sent. -/
theorem Inv.grown {changed : σ × κ → Nat} {tracked : σ × κ → Bool} {ps : List (Push σ κ)}
    (hsrvs : ∀ p ∈ ps, p.srv ∈ servers) (hclock : ∀ place, changed place ≤ s.now + 1)
    (hplace : ∀ srv k, s.tracked (srv, k) = true → (changed (srv, k) = s.changed (srv, k) ∧
      tracked (srv, k) = true) ∨ ∃ p ∈ ps, p.Hits srv k ∧ p.todo = none ∧ s.now < p.time) :
    Inv servers { s with now := s.now + 1, changed, tracked, pushes := s.pushes ++ ps } := by
  have hcoming : ∀ srv k t, Coming s srv k t →
      Coming { s with now := s.now + 1, changed, tracked, pushes := s.pushes ++ ps } srv k t :=
    fun srv k t hc => hc.mono rfl fun p hp hhits => ⟨p, mem_append_left _ hp, hhits, rfl⟩
  refine ⟨?_, hclock, ?_, ?_, ?_⟩
  · intro p hp
    exact (mem_append.mp hp).elim (h.srvs p) (hsrvs p)
  · exact fun k e t tracked he hpc => le_succ_of_le (h.past k e t tracked he hpc)
  · intro k e t he hpc
    rcases h.reads k e t he hpc with ⟨hle, htr⟩ | hinv | hc
    · rcases hplace e.srv k htr with ⟨hsame, htr'⟩ | ⟨p, hp, hhits, -, hlt⟩
      · exact .inl ⟨le_trans (le_of_eq hsame) hle, htr'⟩
      · have hpast := h.past k e t true he hpc
        exact .inr (.inr ⟨p, mem_append_right _ hp, hhits, lt_of_le_of_lt hpast hlt⟩)
    · exact .inr (.inl hinv)
    · exact .inr (.inr (hcoming _ _ _ hc))
  · intro srv k c hc hcap
    rcases h.copies srv k c hc hcap with ⟨hle, htr⟩ | ⟨p, hp, hrest⟩ | ⟨e, he, hsrv, hpc, hmark⟩
    · rcases hplace srv k htr with ⟨hsame, htr'⟩ | ⟨p, hp, hhits, htodo, -⟩
      · exact .inl ⟨le_trans (le_of_eq hsame) hle, htr'⟩
      · refine .inr (.inl ⟨p, mem_append_right _ hp, hhits, ?_⟩)
        intro ps hps
        rw [htodo] at hps
        cases hps
    · exact .inr (.inl ⟨p, mem_append_left _ hp, hrest⟩)
    · exact .inr (.inr ⟨e, he, hsrv, hpc, hmark.imp id (hcoming _ _ _)⟩)

theorem Inv.change {srv : σ} {notify : Bool}
    (hstep : step servers s (.change srv k notify) = some s') : Inv servers s' := by
  simp only [step, ite_none_right_eq_some, some.injEq] at hstep
  obtain ⟨⟨hsrv, hnotify⟩, rfl⟩ := hstep
  refine h.grown ?_ ?_ ?_
  · intro p hp
    split at hp
    · obtain rfl := mem_singleton.mp hp
      exact hsrv
    · cases hp
  · intro place
    by_cases hp : place = (srv, k)
    · subst hp
      simp
    · simpa [hp] using le_succ_of_le (h.clock place)
  · intro srv' k' htr
    by_cases hp : (srv', k') = (srv, k)
    · obtain ⟨rfl, rfl⟩ := Prod.mk.inj hp
      refine .inr ⟨⟨srv', some k', s.now + 1, none⟩, ?_, ⟨rfl, ?_⟩, rfl, lt_succ_self _⟩
      · simp [hnotify htr]
      · rintro _ ⟨⟩
        rfl
    · exact .inl ⟨update_of_ne hp _ _, (update_of_ne hp _ _).trans htr⟩

theorem Inv.changeAll {srv : σ} (hstep : step servers s (.changeAll srv) = some s') :
    Inv servers s' := by
  simp only [step, ite_none_right_eq_some, some.injEq] at hstep
  obtain ⟨hsrv, rfl⟩ := hstep
  refine h.grown ?_ ?_ ?_
  · intro p hp
    obtain rfl := mem_singleton.mp hp
    exact hsrv
  · intro place
    split
    · exact le_rfl
    · exact le_succ_of_le (h.clock place)
  · intro srv' k' htr
    by_cases hp : srv' = srv
    · subst hp
      exact .inr ⟨_, mem_singleton_self _, ⟨rfl, nofun⟩, rfl, lt_succ_self _⟩
    · exact .inl ⟨if_neg hp, (if_neg hp).trans htr⟩

/-- Copies go, and a push that had to remove one that is left still has to. -/
theorem Inv.fewer {shadow : AList fun _ : σ × κ => Copy} {pushes : List (Push σ κ)}
    (hsrvs : ∀ p ∈ pushes, p.srv ∈ servers)
    (hshadow : ∀ place c, shadow.lookup place = some c → s.shadow.lookup place = some c)
    (hpushes : ∀ p ∈ s.pushes, ∃ p' ∈ pushes, p'.srv = p.srv ∧ p'.target = p.target ∧
      p'.time = p.time ∧ ∀ srv k c, shadow.lookup (srv, k) = some c → p.Hits srv k →
      p.Ahead (srv, k) → p'.Ahead (srv, k)) :
    Inv servers { s with shadow, pushes } := by
  have hcoming : ∀ srv k t, Coming s srv k t → Coming { s with shadow, pushes } srv k t := by
    intro srv k t hc
    refine hc.mono rfl fun p hp hhits => ?_
    obtain ⟨p', hp', hsrv, htarget, htime, -⟩ := hpushes p hp
    exact ⟨p', hp', by rwa [Push.Hits, hsrv, htarget], htime⟩
  refine ⟨hsrvs, h.clock, h.past, ?_, ?_⟩
  · intro k e t he hpc
    exact (h.reads k e t he hpc).imp id (Or.imp id (hcoming _ _ _))
  · intro srv k c hc hcap
    rcases h.copies srv k c (hshadow _ c hc) hcap with hf | ⟨p, hp, hhits, ha⟩ | ⟨e, he, hrest⟩
    · exact .inl hf
    · obtain ⟨p', hp', hsrv, htarget, -, hahead⟩ := hpushes p hp
      refine .inr (.inl ⟨p', hp', ?_, hahead srv k c hc hhits ha⟩)
      rwa [Push.Hits, hsrv, htarget]
    · exact .inr (.inr ⟨e, he, hrest.1, hrest.2.1, hrest.2.2.imp id (hcoming _ _ _)⟩)

theorem Inv.drop {place : σ × κ} : Inv servers { s with shadow := s.shadow.erase place } :=
  h.fewer h.srvs (fun _ _ hc => (lookup_of_erase hc).2)
    fun p hp => ⟨p, hp, rfl, rfl, rfl, fun _ _ _ _ _ ha => ha⟩

end

omit [DecidableEq σ] [DecidableEq κ] in
theorem mem_set_or {i : Nat} {p p' q : Push σ κ} {pushes : List (Push σ κ)}
    (hp : pushes[i]? = some p) (hq : q ∈ pushes) :
    q ∈ pushes.set i p' ∨ q = p ∧ p' ∈ pushes.set i p' := by
  obtain ⟨j, hj, rfl⟩ := getElem_of_mem hq
  by_cases hij : i = j
  · subst hij
    exact .inr ⟨(List.getElem?_eq_some_iff.mp hp).2, List.mem_set hj _⟩
  · refine .inl (mem_iff_getElem?.mpr ⟨j, ?_⟩)
    rw [getElem?_set_ne hij, getElem?_eq_getElem hj]

omit [DecidableEq σ] [DecidableEq κ] in
theorem mem_eraseIdx_or {i : Nat} {p q : Push σ κ} {pushes : List (Push σ κ)}
    (hp : pushes[i]? = some p) (hq : q ∈ pushes) : q ∈ pushes.eraseIdx i ∨ q = p := by
  obtain ⟨hlt, rfl⟩ := List.getElem?_eq_some_iff.mp hp
  exact (mem_cons.mp ((getElem_cons_eraseIdx_perm hlt).mem_iff.mpr hq)).symm

theorem Inv.stage {i : Nat} {p : Push σ κ} {todo : Option (List (σ × κ))}
    {shadow : AList fun _ : σ × κ => Copy} (h : Inv servers s) (hp : s.pushes[i]? = some p)
    (hshadow : ∀ place c, shadow.lookup place = some c → s.shadow.lookup place = some c)
    (hahead : ∀ srv k c, shadow.lookup (srv, k) = some c → p.Hits srv k → p.Ahead (srv, k) →
      ∀ ps ∈ todo, (srv, k) ∈ ps) :
    Inv servers { s with shadow, pushes := s.pushes.set i { p with todo } } := by
  refine h.fewer ?_ hshadow ?_
  · intro q hq
    rcases mem_or_eq_of_mem_set hq with hq | rfl
    · exact h.srvs q hq
    · exact h.srvs p (mem_of_getElem? hp)
  · intro q hq
    rcases mem_set_or hp hq with hq | ⟨rfl, hp'⟩
    · exact ⟨q, hq, rfl, rfl, rfl, fun _ _ _ _ _ ha => ha⟩
    · exact ⟨_, hp', rfl, rfl, rfl, hahead⟩

/-- What a push takes up is every place where a copy it is for may be. -/
theorem Push.mem_places {p : Push σ κ} {met : List (σ × κ)} {c : Copy} (hsrv : p.srv ∈ servers)
    (hhits : p.Hits srv k) (hc : s.shadow.lookup (srv, k) = some c) :
    (srv, k) ∈ p.places servers s met := by
  obtain ⟨rfl, htarget⟩ := hhits
  unfold places
  cases ht : p.target with
  | some k' =>
    obtain rfl := htarget k' ht
    exact mem_map.mpr ⟨p.srv, hsrv, rfl⟩
  | none =>
    refine mem_append_left _ (mem_filter.mpr ⟨?_, decide_eq_true rfl⟩)
    exact AList.lookup_isSome.mp (by rw [hc]; rfl)

section

variable (h : Inv servers s)
include h

theorem Inv.take {i : Nat} {met : List (σ × κ)} (hstep : step servers s (.take i met) = some s') :
    Inv servers s' := by
  obtain ⟨p, hp, hstep⟩ := bind_eq_some_iff.mp hstep
  obtain ⟨-, hstep⟩ := ite_none_right_eq_some.mp hstep
  cases hstep
  refine h.stage hp (fun _ _ hc => hc) ?_
  rintro srv k c hc hhits - ps ⟨⟩
  exact Push.mem_places (h.srvs p (mem_of_getElem? hp)) hhits hc

theorem Inv.remove {i : Nat} (hstep : step servers s (.remove i) = some s') : Inv servers s' := by
  obtain ⟨p, hp, hstep⟩ := bind_eq_some_iff.mp hstep
  split at hstep
  · rename_i place ps htodo
    cases hstep
    refine h.stage hp (fun _ _ hc => (lookup_of_erase hc).2) ?_
    rintro srv k c hc - hahead _ ⟨⟩
    exact (mem_cons.mp (hahead _ htodo)).resolve_left (lookup_of_erase hc).1
  · cases hstep

theorem Inv.mark {i : Nat} (hstep : step servers s (.mark i) = some s') : Inv servers s' := by
  obtain ⟨p, hp, hstep⟩ := bind_eq_some_iff.mp hstep
  obtain ⟨htodo, hstep⟩ := ite_none_right_eq_some.mp hstep
  cases hstep
  -- what the push was to mark is marked
  have hcoming : ∀ srv k t e, s.inflight k = some e → e.inv = true ∨ Coming s srv k t →
      (if ∀ k' ∈ p.target, k' = k then { e with inv := true } else e).inv = true ∨
        ∃ q ∈ s.pushes.eraseIdx i, q.Hits srv k ∧ t < q.time := by
    intro srv k t e he hmark
    rcases hmark with hinv | ⟨q, hq, hhits, hlt⟩
    · left
      split
      · rfl
      · exact hinv
    · rcases mem_eraseIdx_or hp hq with hq | rfl
      · exact .inr ⟨q, hq, hhits, hlt⟩
      · rw [if_pos hhits.2]
        exact .inl rfl
  have hentry : ∀ (k : κ) (e : Entry σ),
      (if ∀ k' ∈ p.target, k' = k then { e with inv := true } else e).srv = e.srv ∧
        (if ∀ k' ∈ p.target, k' = k then { e with inv := true } else e).pc = e.pc := by
    intro k e
    split <;> exact ⟨rfl, rfl⟩
  refine ⟨fun q hq => h.srvs q (mem_of_mem_eraseIdx hq), h.clock, ?_, ?_, ?_⟩
  · intro k e' t tracked he' hpc
    obtain ⟨e, he, rfl⟩ := map_eq_some_iff.mp he'
    exact h.past k e t tracked he ((hentry k e).2 ▸ hpc)
  · intro k e' t he' hpc
    obtain ⟨e, he, rfl⟩ := map_eq_some_iff.mp he'
    rw [(hentry k e).1]
    exact (h.reads k e t he ((hentry k e).2 ▸ hpc)).imp id (hcoming _ _ _ _ he)
  · intro srv k c hc hcap
    rcases h.copies srv k c hc hcap with hf | ⟨q, hq, hhits, ha⟩ | ⟨e, he, hsrv, hpc, hmark⟩
    · exact .inl hf
    · rcases mem_eraseIdx_or hp hq with hq | rfl
      · exact .inr (.inl ⟨q, hq, hhits, ha⟩)
      · exact absurd (ha [] htodo) not_mem_nil
    · refine .inr (.inr ⟨_, map_eq_some_iff.mpr ⟨e, he, rfl⟩, ?_, ?_, ?_⟩)
      · rw [(hentry k e).1, hsrv]
      · rw [(hentry k e).2]
        exact hpc
      · exact hcoming _ _ _ _ he hmark

theorem Inv.step {a : Act σ κ} (hok : Settled s a) (hstep : Upstream.step servers s a = some s') :
    Inv servers s' := by
  cases a with
  | change => exact h.change hstep
  | changeAll => exact h.changeAll hstep
  | join => exact h.join hstep
  | move => exact h.move hstep
  | read => exact h.read hstep
  | store => exact h.store hstep
  | fail => exact h.fail hstep
  | check => exact h.check hok hstep
  | finish => exact h.finish hstep
  | drop =>
    cases hstep
    exact h.drop
  | take => exact h.take hstep
  | remove => exact h.remove hstep
  | mark => exact h.mark hstep

end

end Covered

/-! ### No copy is left stale -/

/-- Once the fetch of a key is finished and the pushes for it are handled, a copy whose lifetime is
not cut was read after the key's last change, if no check of an unmarked entry fell between the
removal and the mark of a push with the older copy stored. -/
theorem copy_not_left_stale (servers : List σ) (acts : List (Act σ κ)) (s : State σ κ)
    (hrun : run (step servers) init acts = some s)
    (hok : Along (step servers) Settled (init : State σ κ) acts) (srv : σ) (k : κ)
    (hfinished : s.inflight k = none) (hhandled : ∀ p ∈ s.pushes, ¬ p.Hits srv k) (c : Copy)
    (hc : s.shadow.lookup (srv, k) = some c) :
    c.capped = true ∨ s.changed (srv, k) ≤ c.time := by
  have hinit : Inv servers (init : State σ κ) :=
    ⟨nofun, fun _ => le_rfl, nofun,
      nofun, nofun⟩
  have hinv := run_invariant (fun _ _ _ h hok hstep => Inv.step h hok hstep) hinit hok hrun
  by_cases hcap : c.capped = true
  · exact .inl hcap
  · rcases hinv.copies srv k c hc (Bool.eq_false_iff.mpr hcap) with hf | ⟨p, hp, hhits, -⟩ |
      ⟨e, he, -⟩
    · exact .inr hf.1
    · exact absurd hhits (hhandled p hp)
    · cases hfinished.symm.trans he

/-- A push is handled while the fetch is out: the entry is marked before its check, the copy goes
and the key is fetched again. -/
def overtaken : List (Act Nat Nat) :=
  [.join 1 0 true false, .read 1 true, .change 0 1 true, .take 0 [], .remove 0, .store 1 .value,
    .mark 0, .check 1 false, .read 1 true, .store 1 .value, .check 1 false, .finish 1]

theorem copy_not_left_stale_overtaken :
    ∃ s c, run (step [0]) init overtaken = some s ∧ s.changed (0, 1) = 1 ∧
      s.shadow.lookup (0, 1) = some c ∧ (c.capped = true ∨ s.changed (0, 1) ≤ c.time) :=
  ⟨_, ⟨1, false⟩, rfl, by decide, by decide,
    copy_not_left_stale [0] overtaken _ rfl (by decide) 0 1 (by decide) (by decide) _ (by decide)⟩

/-- The same push, with the check and the finish between its removal and its mark. -/
def unmarked : List (Act Nat Nat) :=
  [.join 1 0 true false, .read 1 true, .change 0 1 true, .take 0 [], .remove 0, .store 1 .value,
    .check 1 false, .finish 1, .mark 0]

/-- Both are over, and the value from before the change is held for its whole lifetime. -/
theorem stale_copy_left :
    ∃ s, run (step [0]) init unmarked = some s ∧ s.inflight 1 = none ∧ s.pushes = [] ∧
      s.changed (0, 1) = 1 ∧ s.shadow.lookup (0, 1) = some ⟨0, false⟩ :=
  ⟨_, rfl, by decide, by decide, by decide, by decide⟩

end Perfcached.Upstream
