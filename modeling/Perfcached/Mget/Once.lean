import Perfcached.Mget.Fan

/-!
# Perfcached.Mget.Once

Every key of a multi-key read settles once.

The invariant (`Inv`) ties three things together over any run of a worker: the counts of a read and
the states of its keys, the chains of the map and the keys that wait, and the history of what the
completions did. A completion either settles the key that waits on its request, or uses up the one
retry of that key (`settle_cases`), and the other acts leave the keys of every read as they are.
-/

namespace Perfcached.Fan

open Bytes Decimal Json Machine List Function

/-! ### What a completion does to a key -/

/-- The key of a settled lookup: what is left of it, and what its state says about the answer. -/
structure Settled (k k' : MKey) (d : PullDone) : Prop where
  not_wait : k'.st ≠ .wait
  key : k'.key = k.key
  retried : k'.retried = k.retried
  absent : k'.st = .absent → d.found = true ∨ d.timedout = false
  hit : k'.st = .hit → d.found = true

/-- A completion settles the key, or asks for it once more if that was not done before. -/
theorem settle_cases (m : Mget) (i : Nat) (k : MKey) (d : PullDone) (e : Around) :
    (∃ k', Settled k k' d ∧ m.settle i k d e = { m with
        keys := m.keys.set i k'
        unanswered := m.unanswered + if k'.st = .unanswered then 1 else 0 }) ∨
    (k.retried = false ∧ ∃ k', k'.st = .wait ∧ k'.key = k.key ∧ k'.retried = true ∧
      m.settle i k d e = { m with keys := m.keys.set i k', waiting := m.waiting + 1 }) := by
  have hun : ∃ k', Settled k k' d ∧ m.setUnanswered i k = { m with
        keys := m.keys.set i k'
        unanswered := m.unanswered + if k'.st = .unanswered then 1 else 0 } :=
    ⟨{ k with st := .unanswered }, ⟨nofun, rfl, rfl, nofun, nofun⟩, rfl⟩
  have hab : (d.found = true ∨ d.timedout = false) → ∃ k', Settled k k' d ∧
      { m with keys := m.keys.set i { k with st := .absent } } = { m with
        keys := m.keys.set i k'
        unanswered := m.unanswered + if k'.st = .unanswered then 1 else 0 } :=
    fun h => ⟨{ k with st := .absent }, ⟨nofun, rfl, rfl, fun _ => h, nofun⟩, rfl⟩
  have hask : k.retried = false → (∃ k', Settled k k' d ∧
        (m.askAll i k e).getD (m.setUnanswered i k) = { m with
          keys := m.keys.set i k'
          unanswered := m.unanswered + if k'.st = .unanswered then 1 else 0 }) ∨
      (k.retried = false ∧ ∃ k', k'.st = .wait ∧ k'.key = k.key ∧ k'.retried = true ∧
        (m.askAll i k e).getD (m.setUnanswered i k) =
          { m with keys := m.keys.set i k', waiting := m.waiting + 1 }) := by
    intro hr
    unfold Mget.askAll
    split
    · exact .inl hun
    split
    · exact .inl hun
    · exact .inr ⟨hr, { k with req := e.begun, retried := true, target := false, st := .wait },
        rfl, rfl, rfl, rfl⟩
  unfold Mget.settle
  split
  · next hfound =>
      split
      · exact .inl (hab (.inl hfound))
      split
      · exact .inl hun
      · exact .inl ⟨{ k with
            st := .hit
            val := d.val
            exp := if d.ttlLeft = 0 then 0 else e.ticks + d.ttlLeft },
          ⟨nofun, rfl, rfl, nofun, fun _ => hfound⟩, rfl⟩
  split
  · exact .inl hun
  next htimed =>
  have hanswered : d.found = true ∨ d.timedout = false := .inr (by simpa using htimed)
  split
  · split
    · next h => exact hask h.1
    · exact .inl (hab hanswered)
  split
  · next h => exact hask h.2.2.2
  · exact .inl (hab hanswered)

/-! ### The map -/

variable {heads : Nat → List Ref} {h : Nat} {r : Ref}

theorem mem_linkRef {h' : Nat} {x : Ref} :
    x ∈ linkRef heads h r h' ↔ x ∈ heads h' ∨ h' = h ∧ x = r := by
  unfold linkRef
  by_cases hh : h' = h
  · subst hh
    simp [or_comm]
  · simp [hh]

section

variable (hnodup : ∀ h, (heads h).Nodup)
include hnodup

theorem mem_unlinkRef {h' : Nat} {x : Ref} :
    x ∈ unlinkRef heads h r h' ↔ x ∈ heads h' ∧ ¬(h' = h ∧ x = r) := by
  unfold unlinkRef
  by_cases hh : h' = h
  · subst hh
    simp [(hnodup h').mem_erase_iff, and_comm]
  · simp [hh]

theorem nodup_linkRef (hr : r ∉ heads h) (h' : Nat) : (linkRef heads h r h').Nodup := by
  unfold linkRef
  by_cases hh : h' = h
  · subst hh
    simpa using ⟨hr, hnodup h'⟩
  · simpa [hh] using hnodup h'

theorem nodup_unlinkRef (h' : Nat) : (unlinkRef heads h r h').Nodup := by
  unfold unlinkRef
  by_cases hh : h' = h
  · subst hh
    simpa using (hnodup h').erase r
  · simpa [hh] using hnodup h'

end

/-- Key `i` of read `id` waits on a request of slot `h`. -/
def Worker.WaitsAt (w : Worker) (h id i : Nat) : Prop :=
  ∃ k, w.key (id, i) = some k ∧ k.st = .wait ∧ w.headOf k.req = h

variable {m : Mget} {i : Nat} {k : MKey}

theorem waitingKey_eq_some : m.waitingKey i = some k ↔ m.keys[i]? = some k ∧ k.st = .wait := by
  unfold Mget.waitingKey
  simp [Option.filter_eq_some_iff]

open Worker

/-- The loop of `pc_mget_attach` over some of the keys. -/
theorem foldl_linkKey (m : Mget) (id : Nat) (is : List Nat) (his : is.Nodup) (w : Worker)
    (hnodup : ∀ h, (w.heads h).Nodup) (hout : ∀ h i, i ∈ is → (id, i) ∉ w.heads h) :
    let w' := is.foldl (fun w i => (m.waitingKey i).elim w fun k => w.linkKey id i k.req) w
    (∃ heads, w' = { w with heads := heads }) ∧ (∀ h, (w'.heads h).Nodup) ∧
    ∀ h x, x ∈ w'.heads h ↔ x ∈ w.heads h ∨
      ∃ i ∈ is, x = (id, i) ∧ ∃ k, m.waitingKey i = some k ∧ w.headOf k.req = h := by
  induction is generalizing w with
  | nil => exact ⟨⟨_, rfl⟩, hnodup, by simp⟩
  | cons i is ih =>
    obtain ⟨hi, his⟩ := nodup_cons.mp his
    rw [foldl_cons]
    cases hk : m.waitingKey i with
    | none =>
      obtain ⟨hw, hn, hmem⟩ := ih his w hnodup fun h j hj => hout h j (mem_cons_of_mem _ hj)
      refine ⟨hw, hn, fun h x => (hmem h x).trans ?_⟩
      simp [hk]
    | some k =>
      have hfresh : (id, i) ∉ w.heads (w.headOf k.req) := hout _ i mem_cons_self
      have hout' : ∀ h j, j ∈ is → (id, j) ∉ (w.linkKey id i k.req).heads h := by
        intro h j hj hmem
        rcases mem_linkRef.mp hmem with hmem | ⟨-, heq⟩
        · exact hout h j (mem_cons_of_mem _ hj) hmem
        · obtain rfl : j = i := (Prod.mk.inj heq).2
          exact hi hj
      obtain ⟨⟨heads, hw⟩, hn, hmem⟩ := ih his (w.linkKey id i k.req)
        (nodup_linkRef hnodup hfresh) hout'
      refine ⟨⟨heads, hw⟩, hn, fun h x => (hmem h x).trans ?_⟩
      rw [linkKey, mem_linkRef]
      simp only [mem_cons, exists_eq_or_imp, hk, Option.some.injEq, exists_eq_left', or_assoc]
      exact or_congr_right (or_congr_left (and_comm.trans (and_congr_right fun _ => eq_comm)))

/-- The loop of `pc_mget_free` over some of the keys. -/
theorem foldl_unlinkKey (m : Mget) (id : Nat) (is : List Nat) (w : Worker)
    (hnodup : ∀ h, (w.heads h).Nodup) :
    let w' := is.foldl (fun w i => (m.waitingKey i).elim w fun k => w.unlinkKey id i k.req) w
    (∃ heads, w' = { w with heads := heads }) ∧ (∀ h, (w'.heads h).Nodup) ∧
    ∀ h x, x ∈ w'.heads h ↔ x ∈ w.heads h ∧
      ¬ ∃ i ∈ is, x = (id, i) ∧ ∃ k, m.waitingKey i = some k ∧ w.headOf k.req = h := by
  induction is generalizing w with
  | nil => exact ⟨⟨_, rfl⟩, hnodup, by simp⟩
  | cons i is ih =>
    rw [foldl_cons]
    cases hk : m.waitingKey i with
    | none =>
      obtain ⟨hw, hn, hmem⟩ := ih w hnodup
      refine ⟨hw, hn, fun h x => (hmem h x).trans ?_⟩
      simp [hk]
    | some k =>
      obtain ⟨⟨heads, hw⟩, hn, hmem⟩ := ih (w.unlinkKey id i k.req) (nodup_unlinkRef hnodup)
      refine ⟨⟨heads, hw⟩, hn, fun h x => (hmem h x).trans ?_⟩
      rw [unlinkKey, mem_unlinkRef hnodup]
      simp only [mem_cons, exists_eq_or_imp, hk, Option.some.injEq, exists_eq_left',
        not_or, and_assoc]
      refine and_congr_right fun _ => and_congr_left fun _ => not_congr ?_
      exact and_comm.trans (and_congr_right fun _ => eq_comm)

/-! ### The history -/

def Obs.ref : Obs → Ref
  | .asked id i => (id, i)
  | .settled id i _ _ _ _ => (id, i)

/-- A note that key `i` of read `id` settled. -/
def Obs.settles (id i : Nat) : Obs → Bool
  | .asked _ _ => false
  | .settled id' i' _ _ _ _ => decide (id' = id ∧ i' = i)

/-- A note that key `i` of read `id` was asked for once more. -/
def Obs.asks (id i : Nat) : Obs → Bool
  | .asked id' i' => decide (id' = id ∧ i' = i)
  | .settled _ _ _ _ _ _ => false

/-- A note that read `id` was handed back as done. -/
def Obs.dones (id : Nat) : Obs → Bool
  | .asked _ _ => false
  | .settled id' _ _ _ _ done => decide (id' = id) && done

/-- What was noted of a key, by its state. -/
structure KeyOk (log : List Obs) (id i : Nat) (k : MKey) : Prop where
  waits : k.st = .wait → k.key.isSome = true
  settles : log.countP (Obs.settles id i) = if k.key.isSome = true ∧ k.st ≠ .wait then 1 else 0
  asks : log.countP (Obs.asks id i) = if k.retried = true then 1 else 0
  absent : k.key.isSome = true → k.st = .absent →
    ∃ req d done, Obs.settled id i req d .absent done ∈ log

/-- The counts of a read and what was noted of it. -/
structure ReadOk (log : List Obs) (id : Nat) (m : Mget) : Prop where
  waiting : m.waiting = m.keys.countP fun k => decide (k.st = .wait)
  unanswered : m.unanswered = m.keys.countP fun k => decide (k.st = .unanswered)
  keys : ∀ i k, m.keys[i]? = some k → KeyOk log id i k
  dones : log.countP (Obs.dones id) = if m.waiting = 0 then 1 else 0

/-- A note about an answer says what came. -/
def Obs.Answered : Obs → Prop
  | .asked _ _ => True
  | .settled _ _ req d st _ =>
    st ≠ .wait ∧ d.req = req ∧ (st = .absent → d.found = true ∨ d.timedout = false) ∧
      (st = .hit → d.found = true)

structure Inv (w : Worker) : Prop where
  fresh : ∀ id, w.nextId ≤ id → w.mgets id = none ∧ ∀ o ∈ w.log, o.ref.1 ≠ id
  reads : ∀ id m, w.mgets id = some m → ReadOk w.log id m
  chain : ∀ h r, r ∈ w.heads h ↔ w.WaitsAt h r.1 r.2
  nodup : ∀ h, (w.heads h).Nodup
  once : ∀ id i, w.log.countP (Obs.settles id i) ≤ 1 ∧ w.log.countP (Obs.asks id i) ≤ 1 ∧
    w.log.countP (Obs.dones id) ≤ 1
  answered : ∀ o ∈ w.log, o.Answered

variable {o : Obs} {id : Nat}

open Obs

theorem settles_of_ne (h : o.ref ≠ (id, i)) : o.settles id i = false := by
  cases o with
  | asked => rfl
  | settled => simpa [settles, ref, Prod.ext_iff] using h

theorem asks_of_ne (h : o.ref ≠ (id, i)) : o.asks id i = false := by
  cases o with
  | asked => simpa [asks, ref, Prod.ext_iff] using h
  | settled => rfl

theorem dones_of_ne (h : o.ref.1 ≠ id) : o.dones id = false := by
  cases o with
  | asked => rfl
  | settled =>
    simp only [ref] at h
    simp [dones, h]

variable {log : List Obs}

/-- A note about another key changes nothing. -/
theorem KeyOk.cons (h : KeyOk log id i k) (ho : o.ref ≠ (id, i)) : KeyOk (o :: log) id i k where
  waits := h.waits
  settles := by rw [countP_cons_of_neg (by simp [settles_of_ne ho]), h.settles]
  asks := by rw [countP_cons_of_neg (by simp [asks_of_ne ho]), h.asks]
  absent := by
    intro hk hst
    obtain ⟨req, d, done, hmem⟩ := h.absent hk hst
    exact ⟨req, d, done, mem_cons_of_mem _ hmem⟩

/-- A note about another read changes nothing. -/
theorem ReadOk.cons (h : ReadOk log id m) (ho : o.ref.1 ≠ id) : ReadOk (o :: log) id m where
  waiting := h.waiting
  unanswered := h.unanswered
  keys := fun i k hk => (h.keys i k hk).cons fun heq => ho (by rw [heq])
  dones := by rw [countP_cons_of_neg (by simp [dones_of_ne ho]), h.dones]

theorem ReadOk.waiting_pos (h : ReadOk log id m) (hk : m.keys[i]? = some k) (hst : k.st = .wait) :
    0 < m.waiting := by
  rw [h.waiting, countP_pos_iff]
  exact ⟨k, mem_of_getElem? hk, by simpa using hst⟩

/-! ### The acts -/

theorem Inv.start (n : Nat) : Inv (.start n) where
  fresh := fun _ _ => ⟨rfl, by simp [Worker.start]⟩
  reads := by simp [Worker.start]
  chain := by simp [Worker.start, Worker.WaitsAt, Worker.key]
  nodup := fun _ => nodup_nil
  once := by simp [Worker.start]
  answered := by simp [Worker.start]

/-- A read as the verb builds it. -/
structure Built (m : Mget) : Prop where
  waiting : m.waiting = m.keys.countP fun k => decide (k.st = .wait)
  unanswered : m.unanswered = 0 ∧ ∀ k ∈ m.keys, k.st ≠ .unanswered
  keys : ∀ k ∈ m.keys, k.retried = false ∧ (k.key.isSome = true ↔ k.st = .wait)

variable {m' : Mget}

theorem Built.add (h : Built m) {l : Local} (ha : m.add l = some m') : Built m' := by
  have hkeys : ∀ k₀ : MKey, k₀.retried = false → (k₀.key.isSome = true ↔ k₀.st = .wait) →
      ∀ k ∈ m.keys ++ [k₀], k.retried = false ∧ (k.key.isSome = true ↔ k.st = .wait) := by
    intro k₀ hr hk k hmem
    rcases mem_append.mp hmem with hmem | hmem
    · exact h.keys k hmem
    · rw [mem_singleton.mp hmem]
      exact ⟨hr, hk⟩
  have hun : ∀ k₀ : MKey, k₀.st ≠ .unanswered → ∀ k ∈ m.keys ++ [k₀], k.st ≠ .unanswered := by
    intro k₀ hk k hmem
    rcases mem_append.mp hmem with hmem | hmem
    · exact h.unanswered.2 k hmem
    · rwa [mem_singleton.mp hmem]
  cases l with
  | hit | absent =>
    cases ha
    exact ⟨by simp [h.waiting], ⟨h.unanswered.1, hun _ nofun⟩, hkeys _ rfl (by simp)⟩
  | wait req key target busy nomem =>
    obtain ⟨-, ⟨⟩⟩ := Option.ite_none_left_eq_some.mp ha
    exact ⟨by simp [h.waiting], ⟨h.unanswered.1, hun _ nofun⟩, hkeys _ rfl (by simp)⟩

theorem Built.addAll (h : Built m) {ls : List Local} (ha : m.addAll ls = some m') : Built m' := by
  induction ls generalizing m with
  | nil =>
    cases ha
    exact h
  | cons l ls ih =>
    obtain ⟨m₁, hm₁, hrest⟩ := Option.bind_eq_some_iff.mp ha
    exact ih (h.add hm₁) hrest

theorem built_new (conn : Nat) (deadline : Int) : Built (mgetNew conn deadline) :=
  ⟨rfl, ⟨rfl, by simp [mgetNew]⟩, by simp [mgetNew]⟩

theorem Built.readOk (h : Built m) (hw : m.waiting ≠ 0) (hlog : ∀ o ∈ log, o.ref.1 ≠ id) :
    ReadOk log id m where
  waiting := h.waiting
  unanswered := by
    rw [h.unanswered.1, eq_comm, countP_eq_zero]
    intro k hk
    simpa using h.unanswered.2 k hk
  keys := by
    intro i k hk
    obtain ⟨hr, hkey⟩ := h.keys k (mem_of_getElem? hk)
    refine ⟨hkey.mpr, ?_, ?_, ?_⟩
    · rw [if_neg (by rw [hkey]; simp), countP_eq_zero]
      intro o ho
      simp [settles_of_ne (i := i) fun heq => hlog o ho (by rw [heq])]
    · rw [hr, if_neg (by simp), countP_eq_zero]
      intro o ho
      simp [asks_of_ne (i := i) fun heq => hlog o ho (by rw [heq])]
    · intro hsome hst
      rw [hkey.mp hsome] at hst
      cases hst
  dones := by
    rw [if_neg hw, countP_eq_zero]
    intro o ho
    simp [dones_of_ne (hlog o ho)]

variable {w : Worker}

theorem key_update (x : Option Mget) (r : Ref) :
    (update w.mgets id x r.1).bind (fun m => m.keys[r.2]?) =
      if r.1 = id then x.bind fun m => m.keys[r.2]? else w.key r := by
  split_ifs with hr
  · rw [hr, update_self]
  · rw [update_of_ne hr]
    rfl

/-- The waiting keys of a read, one by one. -/
theorem exists_waitingKey {hd : Nat} : (∃ i ∈ range m.keys.length, r = (id, i) ∧
      ∃ k, m.waitingKey i = some k ∧ w.headOf k.req = hd) ↔
    r.1 = id ∧ ∃ k, m.keys[r.2]? = some k ∧ k.st = .wait ∧ w.headOf k.req = hd := by
  simp only [waitingKey_eq_some, and_assoc]
  constructor
  · rintro ⟨i, -, rfl, hk⟩
    exact ⟨rfl, hk⟩
  · rintro ⟨hr, k, hk, hrest⟩
    exact ⟨r.2, mem_range.mpr (List.getElem?_eq_some_iff.mp hk).1, Prod.ext hr rfl, k, hk, hrest⟩

theorem Inv.attach (h : Inv w) (hm : Built m) (hw : m.waiting ≠ 0) : Inv (w.attach m) := by
  obtain ⟨hnone, hlog⟩ := h.fresh w.nextId le_rfl
  have hout : ∀ hd i, i ∈ range m.keys.length → (w.nextId, i) ∉ w.heads hd := by
    intro hd i _ hmem
    obtain ⟨k, hk, -⟩ := (h.chain hd _).mp hmem
    simp [Worker.key, hnone] at hk
  obtain ⟨⟨heads, hw'⟩, hnodup, hmem⟩ := foldl_linkKey m w.nextId _ nodup_range w h.nodup hout
  unfold Worker.attach
  dsimp only
  rw [hw'] at hnodup hmem ⊢
  refine ⟨?_, ?_, ?_, hnodup, h.once, h.answered⟩
  · intro id hid
    dsimp only at hid ⊢
    obtain ⟨hn, hl⟩ := h.fresh id (by omega)
    exact ⟨by rw [update_of_ne (by omega), hn], hl⟩
  · intro id m' hm'
    dsimp only at hm' ⊢
    by_cases hid : id = w.nextId
    · subst hid
      rw [update_self] at hm'
      cases hm'
      exact hm.readOk hw hlog
    · rw [update_of_ne hid] at hm'
      exact h.reads id m' hm'
  · intro hd r
    rw [hmem hd r, h.chain, exists_waitingKey]
    simp only [WaitsAt, Worker.key, key_update]
    by_cases hr : r.1 = w.nextId
    · simp [hr, hnone, headOf]
    · simp [hr, headOf]

theorem Inv.free (h : Inv w) (id : Nat) : Inv (w.free id) := by
  unfold Worker.free
  cases hm : w.mgets id with
  | none => exact h
  | some m =>
    obtain ⟨⟨heads, hw'⟩, hnodup, hmem⟩ := foldl_unlinkKey m id (range m.keys.length) w h.nodup
    dsimp only
    rw [hw'] at hnodup hmem ⊢
    refine ⟨?_, ?_, ?_, hnodup, h.once, h.answered⟩
    · intro id' hid'
      obtain ⟨hn, hl⟩ := h.fresh id' hid'
      refine ⟨?_, hl⟩
      by_cases heq : id' = id
      · subst heq
        exact update_self ..
      · exact (update_of_ne heq _ _).trans hn
    · intro id' m' hm'
      dsimp only at hm' ⊢
      by_cases heq : id' = id
      · subst heq
        rw [update_self] at hm'
        cases hm'
      · rw [update_of_ne heq] at hm'
        exact h.reads id' m' hm'
    · intro hd r
      rw [hmem hd r, h.chain, exists_waitingKey]
      simp only [WaitsAt, Worker.key, key_update]
      by_cases hr : r.1 = id
      · simp [hr, hm, headOf]
      · simp [hr, headOf]

theorem Inv.dropConn (h : Inv w) (conn : Nat) : Inv (w.dropConn conn) := by
  unfold Worker.dropConn
  generalize w.live.filter _ = ids
  induction ids generalizing w with
  | nil => exact h
  | cons id ids ih => exact ih (h.free id)

/-! ### A completion -/

/-- What `find_key` finds waits on the request. -/
theorem findKey_eq_some {req : Nat} (h : w.findKey req = some r) :
    ∃ m k, w.mgets r.1 = some m ∧ m.keys[r.2]? = some k ∧ k.req = req ∧ k.st = .wait := by
  obtain ⟨-, h⟩ := Option.ite_none_left_eq_some.mp h
  have hp := find?_some h
  cases hk : w.key r with
  | none => simp [hk] at hp
  | some k =>
    rw [hk, Option.any_some, decide_eq_true_eq] at hp
    obtain ⟨m, hm, hk⟩ := Option.bind_eq_some_iff.mp hk
    exact ⟨m, k, hm, hk, hp.1, hp.2⟩

/-- A key that waits is found by its request, or another that waits on the same one is. -/
theorem Inv.findKey_isSome (h : Inv w) (hm : w.mgets id = some m) (hk : m.keys[i]? = some k)
    (hst : k.st = .wait) (hreq : k.req ≠ 0) : (w.findKey k.req).isSome = true := by
  unfold findKey
  have hkey : w.key (id, i) = some k := by simp [key, hm, hk]
  rw [if_neg hreq, find?_isSome]
  exact ⟨(id, i), (h.chain _ _).mpr ⟨k, hkey, hst, rfl⟩, by simp [hkey, hst]⟩

variable {k' : MKey}

/-- The keys of a read when key `i` is written and a note about it is added. -/
theorem ReadOk.keys_set (h : ReadOk log id m) (hi : i < m.keys.length) (ho : o.ref = (id, i))
    (hk' : KeyOk (o :: log) id i k') (j : Nat) (kj : MKey)
    (hj : (m.keys.set i k')[j]? = some kj) : KeyOk (o :: log) id j kj := by
  by_cases hij : j = i
  · subst hij
    rw [getElem?_set_self hi] at hj
    exact Option.some.inj hj ▸ hk'
  · rw [getElem?_set_ne (Ne.symm hij)] at hj
    exact (h.keys j kj hj).cons fun heq => hij (Prod.mk.inj (ho.symm.trans heq)).2.symm

/-- The keys of a read when key `i`, which waited, settles. -/
theorem ReadOk.settled {d : PullDone} (h : ReadOk log id m) (hk : m.keys[i]? = some k)
    (hst : k.st = .wait) (hs : Settled k k' d) (req : Nat) : let m' := { m with
      keys := m.keys.set i k'
      waiting := m.waiting - 1
      unanswered := m.unanswered + if k'.st = .unanswered then 1 else 0 }
    ReadOk (.settled id i req d k'.st (decide (m'.waiting = 0)) :: log) id m' := by
  obtain ⟨hlt, hget⟩ := List.getElem?_eq_some_iff.mp hk
  have hpos := h.waiting_pos hk hst
  have hkey := h.keys i k hk
  have hsome := hkey.waits hst
  intro m'
  refine ⟨?_, ?_, ?_, ?_⟩
  · simp only [m', countP_set hlt, hget, hst, hs.not_wait, h.waiting]
    simp
  · simp only [m', countP_set hlt, hget, hst, h.unanswered]
    simp
  · refine h.keys_set hlt rfl ⟨fun hw => absurd hw hs.not_wait, ?_, ?_, ?_⟩
    · rw [countP_cons_of_pos (by simp [Obs.settles]), hkey.settles,
        if_neg (by simp [hst]), if_pos ⟨by rw [hs.key, hsome], hs.not_wait⟩]
    · rw [countP_cons_of_neg (by simp [Obs.asks]), hkey.asks, hs.retried]
    · intro _ habs
      exact ⟨req, d, _, by rw [habs]; exact mem_cons_self⟩
  · by_cases hz : m'.waiting = 0
    · rw [countP_cons_of_pos (by simp [Obs.dones, hz]), h.dones, if_neg (by omega), if_pos hz]
    · rw [countP_cons_of_neg (by simp [Obs.dones, hz]), h.dones, if_neg (by omega), if_neg hz]

/-- The keys of a read when key `i`, which waited, is asked for once more. -/
theorem ReadOk.asked (h : ReadOk log id m) (hk : m.keys[i]? = some k) (hst : k.st = .wait)
    (hr : k.retried = false) (hst' : k'.st = .wait) (hkey' : k'.key = k.key)
    (hr' : k'.retried = true) :
    ReadOk (.asked id i :: log) id { m with
      keys := m.keys.set i k'
      waiting := m.waiting - 1 + 1 } := by
  obtain ⟨hlt, hget⟩ := List.getElem?_eq_some_iff.mp hk
  have hpos := h.waiting_pos hk hst
  have hkey := h.keys i k hk
  have hwaiting : m.waiting - 1 + 1 = m.waiting := by omega
  refine ⟨?_, ?_, ?_, ?_⟩
  · simp only [countP_set hlt, hget, hst, hst', ← h.waiting]
    simp
  · simp only [countP_set hlt, hget, hst, hst', h.unanswered]
    simp
  · refine h.keys_set hlt rfl ⟨fun _ => by rw [hkey', hkey.waits hst], ?_, ?_, ?_⟩
    · rw [countP_cons_of_neg (by simp [Obs.settles]), hkey.settles, if_neg (by simp [hst]),
        if_neg (by simp [hst'])]
    · rw [countP_cons_of_pos (by simp [Obs.asks]), hkey.asks, hr, hr']
      rfl
    · intro _ habs
      rw [hst'] at habs
      cases habs
  · rw [countP_cons_of_neg (by simp [Obs.dones]), h.dones, hwaiting]

/-- One key of one read changes, with a note of it. -/
theorem Inv.replace (h : Inv w) (hm : w.mgets id = some m) (hk : m.keys[i]? = some k)
    (hkeys : m'.keys = m.keys.set i k') (hread : ReadOk (o :: w.log) id m') (ho : o.ref = (id, i))
    (hans : o.Answered) (hnodup : ∀ hd, (heads hd).Nodup)
    (hheads : ∀ hd r, r ∈ heads hd ↔
      r ≠ (id, i) ∧ r ∈ w.heads hd ∨ r = (id, i) ∧ k'.st = .wait ∧ w.headOf k'.req = hd) :
    Inv { w with
      heads := heads
      mgets := update w.mgets id (some m')
      log := o :: w.log } := by
  have hlt := (List.getElem?_eq_some_iff.mp hk).1
  have hget : m'.keys[i]? = some k' := by rw [hkeys, getElem?_set_self hlt]
  have hid : id < w.nextId := by
    by_contra hle
    rw [(h.fresh id (by omega)).1] at hm
    cases hm
  refine ⟨?_, ?_, ?_, hnodup, ?_, ?_⟩
  · intro id' hid'
    dsimp only at hid' ⊢
    obtain ⟨hn, hl⟩ := h.fresh id' hid'
    refine ⟨by rw [Function.update_of_ne (by omega), hn], List.forall_mem_cons.mpr ⟨?_, hl⟩⟩
    rw [ho]
    omega
  · intro id' m₁ hm₁
    dsimp only at hm₁ ⊢
    by_cases heq : id' = id
    · subst heq
      rw [Function.update_self] at hm₁
      cases hm₁
      exact hread
    · rw [Function.update_of_ne heq] at hm₁
      refine (h.reads id' m₁ hm₁).cons ?_
      rw [ho]
      exact Ne.symm heq
  · intro hd r
    have hkey : (update w.mgets id (some m') r.1).bind (fun m => m.keys[r.2]?) =
        if r = (id, i) then some k' else w.key r := by
      rw [key_update]
      split_ifs with hid hr hr
      · rw [hr, Option.bind_some, hget]
      · have hi : i ≠ r.2 := fun hi => hr (Prod.ext hid hi.symm)
        simp [key, hid, hm, hkeys, getElem?_set_ne hi]
      · exact absurd (congrArg Prod.fst hr) hid
      · rfl
    rw [hheads, h.chain]
    show _ ↔ ∃ k, (update w.mgets id (some m') r.1).bind _ = some k ∧ _
    rw [hkey]
    by_cases hr : r = (id, i)
    · simp [hr, headOf]
    · simp [hr, headOf, WaitsAt]
  · intro id' i'
    have hkey := hread.keys i k' hget
    obtain ⟨h₁, h₂, h₃⟩ := h.once id' i'
    refine ⟨?_, ?_, ?_⟩
    · by_cases heq : o.ref = (id', i')
      · obtain ⟨rfl, rfl⟩ := Prod.mk.inj (ho.symm.trans heq)
        rw [hkey.settles]
        split <;> omega
      · rwa [countP_cons_of_neg (by simp [settles_of_ne heq])]
    · by_cases heq : o.ref = (id', i')
      · obtain ⟨rfl, rfl⟩ := Prod.mk.inj (ho.symm.trans heq)
        rw [hkey.asks]
        split <;> omega
      · rwa [countP_cons_of_neg (by simp [asks_of_ne heq])]
    · by_cases heq : id' = id
      · subst heq
        rw [hread.dones]
        split <;> omega
      · have hne : o.ref.1 ≠ id' := by
          rw [ho]
          exact Ne.symm heq
        rwa [countP_cons_of_neg (by simp [dones_of_ne hne])]
  · exact List.forall_mem_cons.mpr ⟨hans, h.answered⟩

theorem Inv.pullDoneAt (h : Inv w) {d : PullDone} (e : Around) (hm : w.mgets id = some m)
    (hk : m.keys[i]? = some k) (hst : k.st = .wait) (hreq : k.req = d.req) :
    Inv (w.pullDoneAt id i m k d e) := by
  have hlt := (List.getElem?_eq_some_iff.mp hk).1
  have hread := h.reads id m hm
  have hmem : ∀ hd r, r ∈ unlinkRef w.heads (w.headOf k.req) (id, i) hd ↔
      r ≠ (id, i) ∧ r ∈ w.heads hd := by
    intro hd r
    rw [mem_unlinkRef h.nodup]
    constructor
    · rintro ⟨hr, hnot⟩
      refine ⟨fun heq => hnot ⟨?_, heq⟩, hr⟩
      -- the key is in the chain of its own request only
      subst heq
      obtain ⟨k₁, hk₁, -, hhead⟩ := (h.chain hd _).mp hr
      simp only [Worker.key, hm, Option.bind_some, hk, Option.some.injEq] at hk₁
      subst hk₁
      exact hhead.symm
    · rintro ⟨hne, hr⟩
      exact ⟨hr, fun heq => hne heq.2⟩
  unfold Worker.pullDoneAt
  dsimp only
  rcases settle_cases { m with keys := m.keys.set i { k with req := 0 }, waiting := m.waiting - 1 }
      i { k with req := 0 } d e with ⟨k', hs, heq⟩ | ⟨hr, k', hst', hkey', hr', heq⟩
  · rw [heq]
    simp only [set_set, getElem?_set_self hlt, if_neg hs.not_wait]
    have hs' : Settled k k' d := ⟨hs.not_wait, hs.key, hs.retried, hs.absent, hs.hit⟩
    refine h.replace hm hk rfl (hread.settled hk hst hs' k.req) rfl
      ⟨hs.not_wait, hreq.symm, hs.absent, hs.hit⟩ (nodup_unlinkRef h.nodup) ?_
    intro hd r
    change r ∈ unlinkRef w.heads (w.headOf k.req) (id, i) hd ↔ _
    rw [hmem]
    simp [hs.not_wait]
  · rw [heq]
    simp only [set_set, getElem?_set_self hlt, if_pos hst']
    have hout : (id, i) ∉ unlinkRef w.heads (w.headOf k.req) (id, i) (w.headOf k'.req) := by
      intro hin
      exact ((hmem _ _).mp hin).1 rfl
    refine h.replace hm hk rfl (hread.asked hk hst hr hst' hkey' hr') rfl trivial
      (nodup_linkRef (nodup_unlinkRef h.nodup) hout) ?_
    intro hd r
    change r ∈ linkRef (unlinkRef w.heads (w.headOf k.req) (id, i)) (w.headOf k'.req) (id, i) hd ↔ _
    rw [mem_linkRef, hmem]
    simp only [hst', true_and]
    constructor
    all_goals
      rintro (hold | ⟨rfl, rfl⟩)
      · exact .inl hold
      · exact .inr ⟨rfl, rfl⟩

/-- Of a key that waits on the request, the completion `d` makes one that has settled, or one that
is asked for the one time more; and it notes which. -/
def Worker.Completes (w w' : Worker) (r : Ref) (d : PullDone) : Prop :=
  ∃ k k', w.key r = some k ∧ k.st = .wait ∧ k.req = d.req ∧ w'.key r = some k' ∧
    ((k'.st ≠ .wait ∧ ∃ done, w'.log = .settled r.1 r.2 d.req d k'.st done :: w.log) ∨
      k'.st = .wait ∧ k.retried = false ∧ k'.retried = true ∧ w'.log = .asked r.1 r.2 :: w.log)

variable {d : PullDone}

theorem pullDoneAt_completes (e : Around) (hm : w.mgets id = some m) (hk : m.keys[i]? = some k)
    (hst : k.st = .wait) (hreq : k.req = d.req) :
    w.Completes (w.pullDoneAt id i m k d e) (id, i) d := by
  have hlt := (List.getElem?_eq_some_iff.mp hk).1
  have hkey : w.key (id, i) = some k := by simp [key, hm, hk]
  unfold Worker.pullDoneAt
  dsimp only
  rcases settle_cases { m with keys := m.keys.set i { k with req := 0 }, waiting := m.waiting - 1 }
      i { k with req := 0 } d e with ⟨k', hs, heq⟩ | ⟨hr, k', hst', -, hr', heq⟩
  · rw [heq]
    simp only [set_set, getElem?_set_self hlt, if_neg hs.not_wait]
    refine ⟨k, k', hkey, hst, hreq, ?_, .inl ⟨hs.not_wait, _, by rw [hreq]; rfl⟩⟩
    simp [key, hlt]
  · rw [heq]
    simp only [set_set, getElem?_set_self hlt, if_pos hst']
    refine ⟨k, k', hkey, hst, hreq, ?_, .inr ⟨hst', hr, hr', rfl⟩⟩
    simp [key, linkKey, hlt]

/-- A completion of a request that a key waits on reaches such a key. -/
theorem Inv.pullDone_completes (h : Inv w) (e : Around) (hm : w.mgets id = some m)
    (hk : m.keys[i]? = some k) (hst : k.st = .wait) (hreq : k.req ≠ 0) (hpull : d.isPull = true)
    (hd : d.req = k.req) : ∃ r, w.Completes (w.pullDone d e) r d := by
  obtain ⟨r, hfind⟩ := Option.isSome_iff_exists.mp (h.findKey_isSome hm hk hst hreq)
  obtain ⟨m', k', hm', hk', hreq', hst'⟩ := findKey_eq_some hfind
  refine ⟨r, ?_⟩
  rw [Worker.pullDone, if_neg (by simp [hpull]), hd, hfind]
  simp only [hm', hk']
  exact pullDoneAt_completes e hm' hk' hst' (hreq'.trans hd.symm)

theorem Inv.pullDone (h : Inv w) (d : PullDone) (e : Around) : Inv (w.pullDone d e) := by
  unfold Worker.pullDone
  split
  · exact h
  split
  · exact h
  next id i hfind =>
  obtain ⟨m, k, hm, hk, hreq, hst⟩ := findKey_eq_some hfind
  rw [hm]
  dsimp only
  rw [hk]
  exact h.pullDoneAt e hm hk hst hreq

theorem Inv.step {w' : Worker} (h : Inv w) {a : Act} (hs : w.step a = some w') : Inv w' := by
  cases a with
  | read conn deadline found mem =>
    simp only [Worker.step] at hs
    split at hs
    · cases hs
      exact h
    next m hm =>
    split at hs
    · cases hs
      exact h
    next hw =>
    cases hs
    exact h.attach ((built_new conn deadline).addAll hm) fun hz => hw (.inl hz)
  | complete d e =>
    cases hs
    exact h.pullDone d e
  | dropConn conn =>
    cases hs
    exact h.dropConn conn
  | free id =>
    cases hs
    exact h.free id

/-! ### The reply -/

def MKey.reply (k : MKey) : List Byte :=
  if k.st = .hit then chars "$" ++ natText k.val.length ++ chars "\r\n" ++ k.val ++ chars "\r\n"
  else chars "$-1\r\n"

def Mget.list (m : Mget) : List Byte :=
  chars "*" ++ natText m.keys.length ++ chars "\r\n" ++ m.keys.flatMap MKey.reply

/-- The one error for keys that were not answered. -/
def Mget.tryAgain (m : Mget) : List Byte :=
  chars "-TRYAGAIN mget: " ++ natText m.unanswered ++ chars " key(s) not answered\r\n"

/-- The reply to a read none of whose keys waits. -/
def Mget.reply (m : Mget) : List Byte :=
  if m.keys.any (fun k => decide (k.st = .unanswered)) = true then m.tryAgain else m.list

/-- The texts that a key's part of the list is written in. -/
def MKey.pieces (k : MKey) : List (List Byte) :=
  if k.st = .hit then [chars "$", natText k.val.length, chars "\r\n", k.val, chars "\r\n"]
  else [chars "$-1\r\n"]

/-- The texts that `pc_mget_resp` writes one after the other. -/
def Mget.pieces (m : Mget) : List (List Byte) :=
  if m.unanswered ≠ 0 then
    [chars "-TRYAGAIN mget: ", natText m.unanswered, chars " key(s) not answered\r\n"]
  else [chars "*", natText m.keys.length, chars "\r\n"] ++ m.keys.flatMap MKey.pieces

theorem resp_eq (mem : Nat → Bool) (m : Mget) (w : Jw) :
    m.resp mem w = m.pieces.foldl (Jw.raw mem) w := by
  have hkey : ∀ (w : Jw) k, (if k.st = .hit then respBulk mem w k.val else respNil mem w) =
      (MKey.pieces k).foldl (Jw.raw mem) w := by
    intro w k
    unfold MKey.pieces
    split <;> rfl
  unfold Mget.resp Mget.pieces
  split
  · rfl
  · simp only [hkey, foldl_append, foldl_flatMap]
    rfl

theorem flatten_pieces (m : Mget) :
    m.pieces.flatten = if m.unanswered ≠ 0 then m.tryAgain else m.list := by
  have hkey : flatten ∘ MKey.pieces = MKey.reply := by
    funext k
    unfold comp MKey.pieces MKey.reply
    split <;> simp
  unfold Mget.pieces
  split
  · simp [Mget.tryAgain]
  · have hkeys : (m.keys.flatMap MKey.pieces).flatten = m.keys.flatMap MKey.reply := by
      rw [flatMap_def, flatMap_def, flatten_flatten, map_map, hkey]
    simp [Mget.list, hkeys]

theorem overflow_raws (mem : Nat → Bool) (w : Jw) (ss : List (List Byte)) (h : w.overflow = true) :
    (ss.foldl (Jw.raw mem) w).overflow = true := by
  induction ss generalizing w with
  | nil => exact h
  | cons s ss ih =>
    refine ih _ ?_
    unfold Jw.raw
    dsimp only
    split_ifs
    all_goals first | exact h | rfl

/-- A fixed buffer takes what fits as a whole, and else overflows. -/
theorem raws_fixed (mem : Nat → Bool) (w : Jw) (ss : List (List Byte)) (hw : w.owned = false)
    (hlen : w.out.length ≤ w.cap) :
    if w.cap < w.out.length + ss.flatten.length then (ss.foldl (Jw.raw mem) w).overflow = true
    else ss.foldl (Jw.raw mem) w = { w with out := w.out ++ ss.flatten } := by
  induction ss generalizing w with
  | nil =>
    rw [flatten_nil, length_nil, if_neg (by omega), append_nil]
    rfl
  | cons s ss ih =>
    rw [foldl_cons, flatten_cons, length_append, ← Nat.add_assoc, ← append_assoc]
    by_cases hs : w.out.length + s.length ≤ w.cap
    · have hraw : w.raw mem s = { w with out := w.out ++ s } := if_pos hs
      have hrest := ih { w with out := w.out ++ s } hw (by simpa using hs)
      rw [length_append] at hrest
      rwa [hraw]
    · have hraw : w.raw mem s = { w with overflow := true } := by
        rw [Jw.raw, if_neg hs, if_pos hw]
      rw [if_pos (by omega), hraw]
      exact overflow_raws mem _ ss rfl

theorem reply_eq (hun : m.unanswered = m.keys.countP fun k => decide (k.st = .unanswered)) :
    m.reply = m.pieces.flatten := by
  rw [flatten_pieces, Mget.reply, hun]
  refine if_congr ?_ rfl rfl
  rw [any_eq_true, ← Nat.pos_iff_ne_zero, countP_pos_iff]

/-- What goes out is the reply, unless there is no buffer or no room in it. -/
theorem mgetAnswer_eq (mem : Nat → Bool) (buf : Bool)
    (hun : m.unanswered = m.keys.countP fun k => decide (k.st = .unanswered)) :
    mgetAnswer mem buf m =
      if buf = false then chars "-ERR out of memory\r\n"
      else if jwReplyCap < m.reply.length then chars "-ERR reply too large\r\n"
      else m.reply := by
  unfold mgetAnswer
  refine if_congr Iff.rfl rfl ?_
  have hroom := raws_fixed mem ⟨[], jwReplyCap, false, false⟩ m.pieces rfl (Nat.zero_le _)
  rw [← resp_eq, ← reply_eq hun, length_nil, Nat.zero_add] at hroom
  dsimp only
  split at hroom
  · next hlt => rw [if_pos hroom, if_pos hlt]
  · next hle =>
      rw [hroom, if_neg Bool.false_ne_true, if_neg hle]
      rfl

/-! ### Every run -/

/-- **Every key of a multi-key read settles once.** After any run of a worker, whatever completions
came, in whatever order and however often: a read waits on as many keys as its count says; no key
has settled twice or was asked for twice more, and no read was handed back twice; a key that was
looked up has settled exactly when it no longer waits, and the read was handed back exactly when
none waits; a completion of a request that a key waits on settles such a key or asks for it its one
time more; an absent key has an answer to its lookup that came in time; and over RESP a read none of
whose keys waits is answered by the list of all its keys, or by one error where a key was not
answered, where the worker has no buffer or where the reply does not fit it. -/
theorem mget_settles (n : Nat) (acts : List Act) (w : Worker)
    (hrun : run step (.start n) acts = some w) :
    (∀ id i, w.log.countP (settles id i) ≤ 1 ∧ w.log.countP (asks id i) ≤ 1 ∧
      w.log.countP (dones id) ≤ 1) ∧
    ∀ id m, w.mgets id = some m →
      m.waiting = m.keys.countP (fun k => decide (k.st = .wait)) ∧
      (w.log.countP (dones id) = 1 ↔ m.waiting = 0) ∧
      (∀ i k, m.keys[i]? = some k → k.key.isSome = true →
        (w.log.countP (settles id i) = 1 ↔ k.st ≠ .wait) ∧
        (k.st = .wait → k.req ≠ 0 → ∀ d e, d.isPull = true → d.req = k.req →
          ∃ r, w.Completes (w.pullDone d e) r d) ∧
        (k.st = .absent → ∃ req d done, settled id i req d .absent done ∈ w.log ∧
          d.req = req ∧ (d.found = true ∨ d.timedout = false))) ∧
      (m.waiting = 0 → (∀ k ∈ m.keys, k.st ≠ .wait) ∧ ∀ mem buf, mgetAnswer mem buf m =
        if buf = false then chars "-ERR out of memory\r\n"
        else if jwReplyCap < m.reply.length then chars "-ERR reply too large\r\n"
        else m.reply) := by
  have h : Inv w := run_invariant (fun _ _ _ h _ hs => Inv.step h hs) (Inv.start n)
    (along_true _ _ acts) hrun
  refine ⟨h.once, fun id m hm => ?_⟩
  have hread := h.reads id m hm
  refine ⟨hread.waiting, ?_, ?_, ?_⟩
  · rw [hread.dones]
    split <;> simp_all
  · intro i k hk hkey
    have hok := hread.keys i k hk
    refine ⟨?_, fun hst hreq d e => h.pullDone_completes e hm hk hst hreq, fun habs => ?_⟩
    · rw [hok.settles]
      by_cases hst : k.st = .wait
      · simp [hst]
      · simp [hst, hkey]
    · obtain ⟨req, d, done, hmem⟩ := hok.absent hkey habs
      obtain ⟨-, hreq, hans, -⟩ := h.answered _ hmem
      exact ⟨req, d, done, hmem, hreq, hans rfl⟩
  · intro hzero
    refine ⟨fun k hk hst => ?_, fun mem buf => mgetAnswer_eq mem buf hread.unanswered⟩
    have := hread.waiting
    rw [hzero, eq_comm, countP_eq_zero] at this
    exact this k hk (by simpa using hst)

/-- A collection with a proxy, and a retry that begins request 196611. -/
def proxied : Around := ⟨true, false, true, false, false, true, 0, 196611, 0⟩

/-- A read of three keys, two of them at other nodes. The lookup of one runs into its timeout; the
other's finds nothing at the node it was aimed at, is asked for once more, and comes twice. -/
def threeKeys : List Act :=
  [.read 1 100 [.hit [0x61#8] 0, .wait 65537 [0x62#8] true false false,
      .wait 131074 [0x63#8] false false false] true,
    .complete ⟨true, 131074, false, false, true, [], 0⟩ proxied,
    .complete ⟨true, 65537, false, false, false, [], 0⟩ proxied,
    .complete ⟨true, 196611, true, false, false, [0x64#8], 0⟩ proxied,
    .complete ⟨true, 196611, true, false, false, [0x65#8], 0⟩ proxied]

theorem mget_settles_threeKeys : ∃ w m, run step (.start 1024) threeKeys = some w ∧
      w.mgets 0 = some m ∧ m.keys.map MKey.val = [[0x61#8], [0x64#8], []] ∧
      w.log.countP (asks 0 1) = 1 ∧ w.log.countP (settles 0 1) = 1 ∧
      w.log.countP (dones 0) = 1 ∧
      mgetAnswer (fun _ => false) true m =
        chars "-TRYAGAIN mget: 1 key(s) not answered\r\n" := by
  refine ⟨_, _, rfl, rfl, by decide, by decide, by decide, by decide, ?_⟩
  rw [((mget_settles 1024 threeKeys _ rfl).2 0 _ rfl).2.2.2 (by decide) |>.2]
  decide

end Perfcached.Fan
