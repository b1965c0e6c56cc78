import Perfcached.Lib.Machine
import Perfcached.Lib.Slots
import Perfcached.Store.Table

/-!
# Perfcached.Store.Walk

The walk of one bucket (`walk_bucket` and `walk_chain` of `src/core/pcache_htable.c`) beside the
writers of its keys.

A bucket is the list of its records in chain order: `chain_append` adds at the end and
`chain_remove_at` moves the last record into the hole, and there is an overflow bucket exactly
while there are more records than the home bucket has slots. Every writer holds the home lock and
makes the version odd while it is in, so a version that is odd says both. A load the walk makes
while a writer is in may see anything (`Outside`); a snapshot and a look under the lock wait for
the writer to leave. The version does not wrap.

A walk remembers what it handed over by the address of the record. That is enough as long as each
address it remembers is the address of the record it handed over (`Marked`), and no key still to
be handed over moves to a remembered address.
-/

namespace Perfcached.Walk

open Machine List Option Nat

variable {κ : Type}

/-! ### The bucket -/

/-- A record: the address of its cell and its key. -/
structure Cell (κ : Type) where
  addr : Nat
  key : κ
  deriving DecidableEq

/-- A home bucket with its chain. -/
structure Bucket (κ : Type) where
  recs : List (Cell κ)
  version : Nat
  deriving DecidableEq

namespace Bucket

/-- No two records share a key or a cell. -/
structure Wf (b : Bucket κ) : Prop where
  keys : (b.recs.map Cell.key).Nodup
  addrs : (b.recs.map Cell.addr).Nodup

/-- A writer is in, and holds the lock. -/
def Writing (b : Bucket κ) : Prop := b.version % 2 = 1
  deriving Decidable

/-- `PCACHE_BKT_LINK`: the last slot of the home bucket is the link to an overflow bucket. -/
def link (b : Bucket κ) : Bool := decide (pcacheSlots < b.recs.length)

/-- `bkt_used` of the home bucket. -/
def used (b : Bucket κ) : Nat := if b.link then pcacheSlots - 1 else b.recs.length

def slot (b : Bucket κ) (i : Nat) : Option (Cell κ) := if i < b.used then b.recs[i]? else none

/-- `bkt_tag_word`, a tag as whether it is set. -/
def tagWord (b : Bucket κ) : List Bool := (List.range pcacheSlots).map fun i => decide (i < b.used)

/-- A load of the tag word. A removal writes the tag of the last record over the one that goes
before it clears the last, so the first tag stands while there is a record. -/
def loadTags (b : Bucket κ) (torn : List Bool) : List Bool :=
  if b.Writing then (torn.headD false || !b.recs.isEmpty) :: torn.tail else b.tagWord

/-- A load of the link bit. -/
def loadLink (b : Bucket κ) (torn : Bool) : Bool := if b.Writing then torn else b.link

/-- A load of a slot's pointer; in the last slot of a chained bucket that is no record's. -/
def loadSlot (b : Bucket κ) (i : Nat) (torn : Option Nat) : Option Nat :=
  if b.Writing ∨ (b.link = true ∧ pcacheSlots ≤ i + 1) then torn else (b.slot i).map Cell.addr

end Bucket

/-! ### The walk -/

/-- Where the walk stands. -/
inductive Pc
  /-- before the load of the version -/
  | version
  | tags
  | link
  /-- at the top of the loop, for a slot -/
  | slot (i : Nat)
  /-- the slot's pointer is loaded, `snapshot_slot` comes -/
  | snapshot (i : Nat) (cell : Option Nat)
  /-- the record is in the callback -/
  | callback (i : Nat) (cell : Option Nat)
  /-- the pointer is recorded, the second load of the slot comes -/
  | now (i : Nat) (cell : Option Nat)
  /-- another pointer was there: the tags are loaded anew -/
  | again (i : Nat)
  /-- `walk_chain` before it takes the lock, with the version and position of its last look -/
  | look (v j : Nat)
  /-- `walk_chain`: the record of a cell is in the callback -/
  | emit (v j : Nat) (cell : Nat)
  | done
  deriving DecidableEq

/-- What the walk does not decide: what a load sees while a writer is in, whether a snapshot is
the one under the lock, and whether there is memory for an address. -/
structure Outside where
  tags : List Bool := []
  link : Bool := false
  cell : Option Nat := none
  locked : Bool := false
  memory : Bool := true
  deriving DecidableEq

/-- The bucket, and the walk: `v0`, `tw`, the addresses recorded (`wk_tab`) and the keys handed to
the callback so far. -/
structure State (κ : Type) where
  bucket : Bucket κ
  pc : Pc
  v0 : Nat
  tw : List Bool
  wk : List Nat
  handed : List κ
  deriving DecidableEq

/-- `wk_add`; it loses the address when it has no memory, and a null pointer is an empty place. -/
def wkAdd (o : Outside) (wk : List Nat) (cell : Option Nat) : List Nat :=
  if o.memory then cell.toList ++ wk else wk

/-- The first record from position `j` on whose address is not recorded. -/
def nextRec (wk : List Nat) : List (Cell κ) → Nat → Option (Nat × Cell κ)
  | [], _ => none
  | c :: cs, j => if c.addr ∈ wk then nextRec wk cs (j + 1) else some (j, c)

/-- A step of the walk. `inside` are the addresses within the extents the table walk started
with: `snapshot_slot` takes a record outside them for none, unless it reads under the lock. -/
def walkStep (inside : Nat → Bool) (o : Outside) (s : State κ) : Option (State κ) :=
  let b := s.bucket
  match s.pc with
  | .version => some { s with v0 := b.version, pc := .tags }
  | .tags => some { s with tw := b.loadTags o.tags, pc := .link }
  | .link =>
    if b.loadLink o.link = true then some { s with pc := .look 1 0 }
    else if s.tw.any id = true then some { s with pc := .slot 0 }
    else some { s with pc := .done }
  | .slot i =>
    if i < pcacheSlots then
      if s.tw.getD i false = true then
        some { s with pc := .snapshot i (b.loadSlot i o.cell) }
      else some { s with pc := .slot (i + 1) }
    -- the version stands from here on or the chain is walked, so the link bit is read with it
    else if b.link = true ∨ s.v0 % 2 = 1 ∨ b.version ≠ s.v0 then
      some { s with pc := .look 1 0 }
    else some { s with pc := .done }
  | .snapshot i cell =>
    if b.Writing then none
    else
      match (b.slot i).filter fun c => o.locked || inside c.addr with
      | some c => some { s with handed := s.handed ++ [c.key], pc := .callback i cell }
      | none => some { s with pc := .slot (i + 1) }
  | .callback i cell => some { s with wk := wkAdd o s.wk cell, pc := .now i cell }
  | .now i cell =>
    let now := b.loadSlot i o.cell
    if now ≠ none ∧ now ≠ cell then some { s with pc := .again i }
    else some { s with pc := .slot (i + 1) }
  | .again i => some { s with tw := b.loadTags o.tags, pc := .slot i }
  | .look v j =>
    if b.Writing then none
    else
      -- a position is trusted only while the version stands
      let from' := if b.version = v then j + 1 else 0
      match nextRec s.wk (b.recs.drop from') from' with
      | some (j', c) =>
        some { s with handed := s.handed ++ [c.key], pc := .emit b.version j' c.addr }
      | none => some { s with pc := .done }
  | .emit v j cell => some { s with wk := wkAdd o s.wk (some cell), pc := .look v j }
  | .done => none

variable {wk : List Nat} {j : Nat}

theorem nextRec_none {cs : List (Cell κ)} (h : nextRec wk cs j = none) : ∀ c ∈ cs, c.addr ∈ wk := by
  induction cs generalizing j with
  | nil => simp
  | cons c cs ih =>
    rw [nextRec] at h
    split at h
    · rename_i hc
      intro d hd
      rcases mem_cons.mp hd with rfl | hd
      · exact hc
      · exact ih h d hd
    · cases h

variable {c : Cell κ}

/-- It is the record at that position, and what stands before it is recorded. -/
theorem nextRec_some {cs : List (Cell κ)} {j' : Nat} (h : nextRec wk cs j = some (j', c)) :
    j ≤ j' ∧ cs[j' - j]? = some c ∧ ∀ p d, p < j' - j → cs[p]? = some d → d.addr ∈ wk := by
  induction cs generalizing j with
  | nil => cases h
  | cons d cs ih =>
    rw [nextRec] at h
    split at h
    · rename_i hd
      obtain ⟨hle, hat, hbefore⟩ := ih h
      have hsub : j' - j = j' - (j + 1) + 1 := by omega
      refine ⟨by omega, by rw [hsub, getElem?_cons_succ, hat], fun p e hp he => ?_⟩
      cases p with
      | zero =>
        obtain rfl := some.inj he
        exact hd
      | succ p => exact hbefore p e (by omega) he
    · obtain ⟨rfl, rfl⟩ := Prod.mk.inj (some.inj h)
      refine ⟨le_rfl, by simp, fun p e hp => ?_⟩
      omega

/-! ### The writers -/

/-- A step of the walk, or of a writer: another thread, or the callback. -/
inductive Act (κ : Type)
  /-- a writer has the lock and makes the version odd -/
  | enter
  /-- `chain_append` of a record in a cell of its own -/
  | append (c : Cell κ)
  /-- the record of a key goes to a new cell -/
  | overwrite (k : κ) (addr : Nat)
  /-- `chain_remove_at`: by a delete, or one of a sweep's -/
  | remove (k : κ)
  /-- the version is even again; an overwrite in place is no more than an entry and this -/
  | leave
  | walk (o : Outside)
  deriving DecidableEq

/-- A cell that is given out is none of the bucket's. It may be one that was freed just now. -/
def writeStep [DecidableEq κ] (b : Bucket κ) : Act κ → Option (Bucket κ)
  | .enter => if b.Writing then none else some { b with version := b.version + 1 }
  | .leave => if b.Writing then some { b with version := b.version + 1 } else none
  | .append c =>
    if b.Writing ∧ c.key ∉ b.recs.map Cell.key ∧ c.addr ∉ b.recs.map Cell.addr then
      some { b with recs := b.recs ++ [c] }
    else none
  | .overwrite k addr =>
    if b.Writing ∧ addr ∉ b.recs.map Cell.addr then
      some { b with recs := Slots.update Cell.key k (fun c => { c with addr }) b.recs }
    else none
  | .remove k =>
    if b.Writing then some { b with recs := Slots.remove Cell.key k b.recs } else none
  | .walk _ => none

def step [DecidableEq κ] (inside : Nat → Bool) (s : State κ) : Act κ → Option (State κ)
  | .walk o => walkStep inside o s
  | a => (writeStep s.bucket a).map fun b => { s with bucket := b }

/-- The walk begins; `wk_reset` has emptied what it recorded in the bucket before. -/
def start (b : Bucket κ) : State κ := ⟨b, .version, 0, [], [], []⟩

/-- No step removes the key. -/
def Stays (k : κ) (_ : State κ) : Act κ → Prop
  | .remove k' => k' ≠ k
  | _ => True

/-- What a step of the walk needs for a key that it has not handed over yet: the key's record lies
inside the extents, and the address it records is not the one of that record. -/
def MarkedAt (inside : Nat → Bool) (k : κ) (o : Outside) (b : Bucket κ) (handed : List κ) :
    Pc → Prop
  | .snapshot i _ => ∀ c ∈ b.slot i, c.key = k → o.locked = true ∨ inside c.addr = true
  | .callback _ cell => ∀ c ∈ b.recs, c.key = k → cell = some c.addr → k ∈ handed
  | .emit _ _ cell => ∀ c ∈ b.recs, c.key = k → cell = c.addr → k ∈ handed
  | _ => True

/-- And what it needs of a writer: the key does not move to an address the walk recorded. -/
def Marked (inside : Nat → Bool) (k : κ) (s : State κ) : Act κ → Prop
  | .overwrite k' addr => k' = k → addr ∈ s.wk → k ∈ s.handed
  | .walk o => MarkedAt inside k o s.bucket s.handed s.pc
  | _ => True

instance decidableStays [DecidableEq κ] (k : κ) (s : State κ) : DecidablePred (Stays k s) :=
  fun a => by
    unfold Stays
    split <;> infer_instance

instance decidableMarkedAt [DecidableEq κ] (inside : Nat → Bool) (k : κ) (o : Outside)
    (b : Bucket κ) (handed : List κ) : DecidablePred (MarkedAt inside k o b handed) := fun pc => by
  unfold MarkedAt
  split <;> infer_instance

instance decidableMarked [DecidableEq κ] (inside : Nat → Bool) (k : κ) (s : State κ) :
    DecidablePred (Marked inside k s) := fun a => by
  unfold Marked
  split <;> infer_instance

/-! ### A key that stays is handed over -/

section Stays

variable {inside : Nat → Bool} {k : κ} {s s' : State κ} {b' : Bucket κ}

/-- Nothing was written since the walk loaded the version. -/
def Still (s : State κ) : Prop := s.bucket.version = s.v0 ∧ s.v0 % 2 = 0

/-- If the key's record stands among the first `n` the key was handed over. -/
def Passed (k : κ) (b : Bucket κ) (handed : List κ) (n : Nat) : Prop :=
  ∀ p c, p < n → b.recs[p]? = some c → c.key = k → k ∈ handed

/-- What the pass without the lock knows at slot `i`, if nothing was written. -/
structure Pass (k : κ) (b : Bucket κ) (tw : List Bool) (handed : List κ) (i : Nat) : Prop where
  passed : Passed k b handed i
  unlinked : b.link = false
  tags : tw = b.tagWord

/-- What `walk_chain` knows of its last look, if nothing was written since. -/
def Looked (k : κ) (b : Bucket κ) (handed : List κ) (v j : Nat) : Prop :=
  v % 2 = 0 → v ≤ b.version ∧ (b.version = v → Passed k b handed (j + 1))

/-- What is known of the key where the walk stands. -/
def Place (k : κ) (s : State κ) : Prop :=
  match s.pc with
  | .version | .tags => True
  | .link => s.tw.any id = true ∧ (Still s → s.tw = s.bucket.tagWord)
  | .slot i | .snapshot i _ | .again i => Still s → Pass k s.bucket s.tw s.handed i
  | .callback i _ | .now i _ => Still s → Pass k s.bucket s.tw s.handed (i + 1)
  | .look v j | .emit v j _ => Looked k s.bucket s.handed v j
  | .done => k ∈ s.handed

/-- The invariant of a walk for a key that stays. -/
structure Inv (k : κ) (s : State κ) : Prop where
  keys : (s.bucket.recs.map Cell.key).Nodup
  here : k ∈ s.bucket.recs.map Cell.key
  seen : s.v0 ≤ s.bucket.version
  /-- the record of a key not handed over is at an address not recorded -/
  marks : ∀ c ∈ s.bucket.recs, c.key = k → c.addr ∈ s.wk → k ∈ s.handed
  place : Place k s

/-- A bucket changed by a writer: of what a walk knows, what rests on the version is void. -/
theorem Place.written (hplace : Place k s) (hseen : s.v0 ≤ s.bucket.version)
    (hle : s.bucket.version ≤ b'.version)
    (hmoved : ∀ v, v % 2 = 0 → v ≤ s.bucket.version → b'.version ≠ v) :
    Place k { s with bucket := b' } := by
  have hstill : ¬ Still { s with bucket := b' } := fun ⟨heq, heven⟩ => hmoved s.v0 heven hseen heq
  have hlooked : ∀ v j, Looked k s.bucket s.handed v j → Looked k b' s.handed v j := by
    intro v j hlook heven
    obtain ⟨hv, -⟩ := hlook heven
    exact ⟨le_trans hv hle, fun heq => absurd heq (hmoved v heven hv)⟩
  unfold Place at hplace ⊢
  cases hpc : s.pc <;> simp only [hpc] at hplace ⊢
  case link => exact ⟨hplace.1, fun h => absurd h hstill⟩
  case look v j => exact hlooked v j hplace
  case emit v j _ => exact hlooked v j hplace
  case done => exact hplace
  all_goals exact fun h => absurd h hstill

variable {b : Bucket κ} {a : Act κ}

/-- What a writer's step does, for a key it does not remove. -/
theorem writeStep_spec [DecidableEq κ] (hkeys : (b.recs.map Cell.key).Nodup)
    (hk : k ∈ b.recs.map Cell.key) (hstays : Stays k s a) (h : writeStep b a = some b') :
    (b'.recs.map Cell.key).Nodup ∧ k ∈ b'.recs.map Cell.key ∧ b.version ≤ b'.version ∧
      (∀ v, v % 2 = 0 → v ≤ b.version → b'.version ≠ v) ∧
      ∀ c ∈ b'.recs, c.key = k → c ∈ b.recs ∨ a = .overwrite k c.addr := by
  have hodd : b.Writing → ∀ v, v % 2 = 0 → v ≤ b.version → b.version ≠ v := by
    rintro hin v heven - rfl
    exact absurd (hin.symm.trans heven) (by decide)
  cases a with
  | walk o => cases h
  | enter | leave =>
    simp only [writeStep] at h
    split at h <;> cases h
    exact ⟨hkeys, hk, le_succ _, fun v _ hv => by dsimp only; omega, fun c hc _ => .inl hc⟩
  | append d =>
    simp only [writeStep, ite_none_right_eq_some, some.injEq] at h
    obtain ⟨⟨hin, hnew, -⟩, rfl⟩ := h
    refine ⟨Slots.nodup_append hkeys hnew, ?_, le_rfl, hodd hin, ?_⟩
    · rw [map_append]
      exact mem_append_left _ hk
    · intro c hc hck
      rcases mem_append.mp hc with hc | hc
      · exact .inl hc
      · obtain rfl := mem_singleton.mp hc
        exact absurd (hck ▸ hk) hnew
  | overwrite k' addr =>
    simp only [writeStep, ite_none_right_eq_some, some.injEq] at h
    obtain ⟨⟨hin, -⟩, rfl⟩ := h
    have hsame : (Slots.update Cell.key k' (fun c => { c with addr }) b.recs).map Cell.key =
        b.recs.map Cell.key := Slots.keys_update fun _ h => h
    refine ⟨by rwa [hsame], by rwa [hsame], le_rfl, hodd hin, fun c hc hck => ?_⟩
    rcases Slots.mem_update hkeys hc with ⟨hc, -⟩ | ⟨d, hd, rfl⟩
    · exact .inl hc
    · obtain rfl : k' = k := (Slots.mem_of_find hd).2.symm.trans hck
      exact .inr rfl
  | remove k' =>
    simp only [writeStep, ite_none_right_eq_some, some.injEq] at h
    obtain ⟨hin, rfl⟩ := h
    refine ⟨Slots.nodup_remove hkeys, ?_, le_rfl, hodd hin,
      fun c hc _ => .inl ((Slots.mem_remove hkeys).mp hc).1⟩
    obtain ⟨c, hc, rfl⟩ := mem_map.mp hk
    exact mem_map_of_mem ((Slots.mem_remove hkeys).mpr ⟨hc, Ne.symm hstays⟩)

theorem Inv.write [DecidableEq κ] (h : Inv k s) (hstays : Stays k s a)
    (hmarked : Marked inside k s a) (hstep : writeStep s.bucket a = some b') :
    Inv k { s with bucket := b' } := by
  obtain ⟨hkeys, hhere, hle, hmoved, hrecs⟩ := writeStep_spec h.keys h.here hstays hstep
  refine ⟨hkeys, hhere, le_trans h.seen hle, ?_, h.place.written h.seen hle hmoved⟩
  intro c hc hck hwk
  rcases hrecs c hc hck with hc | rfl
  · exact h.marks c hc hck hwk
  · exact hmarked rfl hwk

/-- A step of the walk that records no address and hands nothing over. -/
theorem Inv.move {tw : List Bool} {pc : Pc} (h : Inv k s) (hplace : Place k { s with tw, pc }) :
    Inv k { s with tw, pc } :=
  ⟨h.keys, h.here, h.seen, h.marks, hplace⟩

theorem Inv.hand {k' : κ} {pc : Pc} (h : Inv k s)
    (hplace : Place k { s with handed := s.handed ++ [k'], pc }) :
    Inv k { s with handed := s.handed ++ [k'], pc } :=
  ⟨h.keys, h.here, h.seen, fun c hc hck hwk => mem_append_left _ (h.marks c hc hck hwk), hplace⟩

theorem Inv.record {o : Outside} {cell : Option Nat} {pc : Pc} (h : Inv k s)
    (hmarked : ∀ c ∈ s.bucket.recs, c.key = k → cell = some c.addr → k ∈ s.handed)
    (hplace : Place k { s with wk := wkAdd o s.wk cell, pc }) :
    Inv k { s with wk := wkAdd o s.wk cell, pc } := by
  refine ⟨h.keys, h.here, h.seen, ?_, hplace⟩
  intro c hc hck hmem
  have hor : cell = some c.addr ∨ c.addr ∈ s.wk := by
    simp only [wkAdd] at hmem
    split at hmem
    · exact (mem_append.mp hmem).imp (fun hin => by simpa using hin) id
    · exact .inr hmem
  rcases hor with hcell | hwk
  · exact hmarked c hc hck hcell
  · exact h.marks c hc hck hwk

theorem Bucket.getD_tagWord (b : Bucket κ) {i : Nat} (hi : i < pcacheSlots) :
    b.tagWord.getD i false = decide (i < b.used) := by
  simp [tagWord, hi]

theorem Bucket.loadTags_idle (torn : List Bool) (h : ¬ b.Writing) :
    b.loadTags torn = b.tagWord := if_neg h

/-- The tags of a bucket that holds a record are never all clear. -/
theorem Bucket.loadTags_any (torn : List Bool) (h : b.recs ≠ []) :
    (b.loadTags torn).any id = true := by
  have hlen : 0 < b.recs.length := length_pos_iff.mpr h
  unfold loadTags
  split
  · simp [h]
  · refine any_eq_true.mpr ⟨true, ?_, rfl⟩
    refine mem_map.mpr ⟨0, by simp [pcacheSlots], decide_eq_true ?_⟩
    rw [used]
    split
    · decide
    · exact hlen

theorem Bucket.slot_of_unlinked (h : b.link = false) (i : Nat) : b.slot i = b.recs[i]? := by
  simp only [slot, used, h, Bool.false_eq_true, if_false]
  split
  · rfl
  · exact (getElem?_eq_none (Nat.le_of_not_lt ‹_›)).symm

variable {handed : List κ}

theorem Passed.succ {n : Nat} (h : Passed k b handed n)
    (hn : ∀ c, b.recs[n]? = some c → c.key = k → k ∈ handed) : Passed k b handed (n + 1) := by
  intro p c hp hc hck
  rcases Nat.lt_succ_iff_lt_or_eq.mp hp with hp | rfl
  · exact h p c hp hc hck
  · exact hn c hc hck

theorem Passed.mono {handed' : List κ} {n m : Nat} (h : Passed k b handed n) (hm : m ≤ n)
    (hsub : handed ⊆ handed') : Passed k b handed' m :=
  fun p c hp hc hck => hsub (h p c (lt_of_lt_of_le hp hm) hc hck)

open Bucket

/-- Where a look begins, the key was handed over if its record stands before. -/
theorem Looked.start {v : Nat} (hlook : Looked k b handed v j) (hidle : ¬ b.Writing) :
    Passed k b handed (if b.version = v then j + 1 else 0) := by
  split
  · rename_i hv
    have heven : v % 2 = 0 := by
      rw [Writing, hv] at hidle
      omega
    exact (hlook heven).2 hv
  · intro p c hp
    omega

/-! ### The pass without the lock -/

variable {b : Bucket κ} {tw : List Bool} {handed : List κ} {i m : Nat}

section

variable (h : Pass k b tw handed i)
include h

/-- A clear tag is that of a slot past the last record. -/
theorem Pass.clear (hi : i < pcacheSlots) (htag : ¬ tw.getD i false = true) :
    Pass k b tw handed (i + 1) := by
  refine ⟨h.passed.succ fun c hc _ => ?_, h.unlinked, h.tags⟩
  rw [h.tags, getD_tagWord _ hi, decide_eq_true_eq, used, h.unlinked] at htag
  exact absurd (List.getElem?_eq_some_iff.mp hc).1 htag

theorem Pass.handOver (hslot : b.slot i = some c) : Pass k b tw (handed ++ [c.key]) (i + 1) := by
  refine ⟨?_, h.unlinked, h.tags⟩
  refine (h.passed.mono le_rfl (subset_append_left _ _)).succ ?_
  intro d hd hdk
  rw [slot_of_unlinked h.unlinked, hd] at hslot
  obtain rfl := some.inj hslot
  simp [hdk]

/-- The slot is taken for an empty one only where it does not hold the key. -/
theorem Pass.skip {p : Cell κ → Bool} (hnone : (b.slot i).filter p = none)
    (hk : ∀ c ∈ b.slot i, c.key = k → p c = true) : Pass k b tw handed (i + 1) := by
  refine ⟨h.passed.succ fun c hc hck => ?_, h.unlinked, h.tags⟩
  rw [← slot_of_unlinked h.unlinked] at hc
  exact absurd (hk c hc hck) (filter_eq_none_iff.mp hnone c hc)

theorem Pass.finish (hi : ¬ i < pcacheSlots) (hk : k ∈ b.recs.map Cell.key) : k ∈ handed := by
  obtain ⟨c, hc, hck⟩ := mem_map.mp hk
  obtain ⟨p, hp, hat⟩ := getElem_of_mem hc
  refine h.passed p c ?_ (hat ▸ getElem?_eq_getElem hp) hck
  have hlink := h.unlinked
  rw [link, decide_eq_false_iff_not] at hlink
  omega

end

/-! ### A look under the lock -/

theorem Inv.found {j' : Nat} (h : Inv k s) (hstart : Passed k s.bucket s.handed m)
    (hnext : nextRec s.wk (s.bucket.recs.drop m) m = some (j', c)) :
    Passed k s.bucket (s.handed ++ [c.key]) (j' + 1) := by
  obtain ⟨hle, hat, hbefore⟩ := nextRec_some hnext
  intro p d hp hd hdk
  rcases lt_or_ge p m with hpm | hmp
  · exact mem_append_left _ (hstart p d hpm hd hdk)
  · have hd' : (s.bucket.recs.drop m)[p - m]? = some d := by
      rw [getElem?_drop, Nat.add_sub_cancel' hmp, hd]
    rcases Nat.lt_succ_iff_lt_or_eq.mp hp with hp | rfl
    -- what was skipped was recorded
    · have hwk := hbefore (p - m) d (by omega) hd'
      exact mem_append_left _ (h.marks d (mem_of_getElem? hd) hdk hwk)
    · obtain rfl := some.inj (hat.symm.trans hd')
      simp [hdk]

theorem Inv.none_left (h : Inv k s) (hstart : Passed k s.bucket s.handed m)
    (hnext : nextRec s.wk (s.bucket.recs.drop m) m = none) : k ∈ s.handed := by
  obtain ⟨c, hc, hck⟩ := mem_map.mp h.here
  obtain ⟨p, hp, hat⟩ := getElem_of_mem hc
  rcases lt_or_ge p m with hpm | hmp
  · exact hstart p c hpm (hat ▸ getElem?_eq_getElem hp) hck
  · refine h.marks c hc hck (nextRec_none hnext c ?_)
    refine mem_iff_getElem?.mpr ⟨p - m, ?_⟩
    rw [getElem?_drop, Nat.add_sub_cancel' hmp, ← hat, getElem?_eq_getElem hp]

/-! ### Every step -/

theorem Still.idle (h : Still s) : ¬ s.bucket.Writing := by
  rw [Writing, h.1, h.2]
  decide

theorem Inv.walk {o : Outside} (h : Inv k s) (hmarked : Marked inside k s (.walk o))
    (hstep : walkStep inside o s = some s') : Inv k s' := by
  have hrecs : s.bucket.recs ≠ [] := by
    intro hnil
    have hhere := h.here
    rw [hnil] at hhere
    cases hhere
  have hplace := h.place
  unfold walkStep at hstep
  simp only [Place] at hplace
  simp only [Marked] at hmarked
  cases hpc : s.pc <;> simp only [hpc, MarkedAt] at hstep hplace hmarked
  case version =>
    cases hstep
    exact ⟨h.keys, h.here, le_rfl, h.marks, trivial⟩
  case tags =>
    cases hstep
    exact h.move ⟨loadTags_any _ hrecs, fun hstill => loadTags_idle _ (Still.idle hstill)⟩
  case link =>
    by_cases hlink : s.bucket.loadLink o.link = true
    · rw [if_pos hlink] at hstep
      cases hstep
      -- the walk goes to the chain, from no version a bucket at rest has
      exact h.move fun hodd => absurd hodd (by decide)
    · rw [if_neg hlink, if_pos hplace.1] at hstep
      cases hstep
      refine h.move fun hstill => ⟨?_, ?_, hplace.2 hstill⟩
      · intro p c hp
        omega
      · rw [loadLink, if_neg (Still.idle hstill)] at hlink
        exact Bool.eq_false_iff.mpr hlink
  case slot i =>
    by_cases hi : i < pcacheSlots
    · rw [if_pos hi] at hstep
      by_cases htag : s.tw.getD i false = true
      · rw [if_pos htag] at hstep
        cases hstep
        exact h.move hplace
      · rw [if_neg htag] at hstep
        cases hstep
        exact h.move fun hstill => (hplace hstill).clear hi htag
    · rw [if_neg hi] at hstep
      split at hstep
      · cases hstep
        exact h.move fun hodd => absurd hodd (by decide)
      · rename_i hsame
        cases hstep
        rw [not_or, not_or, not_not] at hsame
        have hpass := hplace ⟨hsame.2.2, by omega⟩
        exact h.move (hpass.finish hi h.here)
  case snapshot i cell =>
    obtain ⟨-, hstep⟩ := ite_none_left_eq_some.mp hstep
    split at hstep
    · rename_i c hc
      cases hstep
      exact h.hand fun hstill => (hplace hstill).handOver (filter_eq_some_iff.mp hc).1
    · rename_i hnone
      cases hstep
      refine h.move fun hstill => (hplace hstill).skip hnone fun c hc hck => ?_
      rw [Bool.or_eq_true]
      exact hmarked c hc hck
  case callback i cell =>
    cases hstep
    exact h.record hmarked hplace
  case now i cell =>
    split at hstep
    · cases hstep
      refine h.move fun hstill => ?_
      have hpass := hplace hstill
      exact ⟨hpass.passed.mono (le_succ i) (Subset.refl _), hpass.unlinked, hpass.tags⟩
    · cases hstep
      exact h.move hplace
  case again i =>
    cases hstep
    refine h.move fun hstill => ?_
    have hpass := hplace hstill
    exact ⟨hpass.passed, hpass.unlinked, loadTags_idle _ (Still.idle hstill)⟩
  case look v j =>
    obtain ⟨hidle, hstep⟩ := ite_none_left_eq_some.mp hstep
    have hstart := hplace.start hidle
    split at hstep
    · rename_i j' c hnext
      cases hstep
      exact h.hand fun _ => ⟨le_rfl, fun _ => h.found hstart hnext⟩
    · rename_i hnext
      cases hstep
      exact h.move (h.none_left hstart hnext)
  case emit v j cell =>
    cases hstep
    exact h.record (fun c hc hck hcell => hmarked c hc hck (some.inj hcell)) hplace
  case done => cases hstep

theorem Inv.step [DecidableEq κ] (h : Inv k s) (hok : Stays k s a ∧ Marked inside k s a)
    (hstep : Walk.step inside s a = some s') : Inv k s' := by
  cases a with
  | walk o => exact h.walk hok.2 hstep
  | enter | append | overwrite | remove | leave =>
    obtain ⟨b', hwrite, rfl⟩ := map_eq_some_iff.mp hstep
    exact h.write hok.1 hok.2 hwrite

end Stays

/-! ### A bucket nobody writes -/

section Unwritten

/-- The records come one after the other: where the walk stands says how many were handed over. -/
def InOrder (b : Bucket κ) (s : State κ) : Prop :=
  let keys := b.recs.map Cell.key
  let addrs := b.recs.map Cell.addr
  match s.pc with
  | .version => s.handed = [] ∧ s.wk = []
  | .tags => s.handed = [] ∧ s.wk = [] ∧ s.v0 = b.version
  | .link => s.handed = [] ∧ s.wk = [] ∧ s.v0 = b.version ∧ s.tw = b.tagWord
  | .slot i => s.handed = keys.take i ∧ b.link = false ∧ s.v0 = b.version ∧ s.tw = b.tagWord
  | .snapshot i cell =>
    s.handed = keys.take i ∧ b.link = false ∧ s.v0 = b.version ∧ s.tw = b.tagWord ∧
      i < b.recs.length ∧ cell = addrs[i]?
  | .callback i cell | .now i cell =>
    s.handed = keys.take (i + 1) ∧ b.link = false ∧ s.v0 = b.version ∧ s.tw = b.tagWord ∧
      cell = addrs[i]?
  | .again _ => False
  | .look v j =>
    v = 1 ∧ s.handed = [] ∧ s.wk = [] ∨
      v = b.version ∧ s.handed = keys.take (j + 1) ∧ s.wk ⊆ addrs.take (j + 1)
  | .emit v j cell =>
    v = b.version ∧ s.handed = keys.take (j + 1) ∧ s.wk ⊆ addrs.take (j + 1) ∧
      cell ∈ addrs.take (j + 1)
  | .done => s.handed = keys

variable {inside : Nat → Bool} {b : Bucket κ} {s s' : State κ} {o : Outside}

/-- While only what stands before a position is recorded, the next record is the one there. -/
theorem nextRec_of_subset {m : Nat} (haddrs : (b.recs.map Cell.addr).Nodup)
    (hwk : wk ⊆ (b.recs.map Cell.addr).take m) :
    nextRec wk (b.recs.drop m) m = b.recs[m]?.map fun c => (m, c) := by
  rcases lt_or_ge m b.recs.length with hm | hm
  · rw [drop_eq_getElem_cons hm, getElem?_eq_getElem hm, nextRec, if_neg]
    · rfl
    · intro hmem
      have hdisj := haddrs
      rw [← take_append_drop m (b.recs.map Cell.addr), nodup_append] at hdisj
      refine hdisj.2.2 _ (hwk hmem) _ ?_ rfl
      rw [← map_drop, drop_eq_getElem_cons hm]
      exact mem_cons_self
  · rw [drop_of_length_le hm, getElem?_eq_none hm]
    rfl

theorem take_succ_key {i : Nat} (hc : b.recs[i]? = some c) :
    (b.recs.map Cell.key).take i ++ [c.key] = (b.recs.map Cell.key).take (i + 1) := by
  rw [take_add_one, getElem?_map, hc]
  rfl

theorem wkAdd_subset {addrs : List Nat} {cell : Option Nat} (hwk : wk ⊆ addrs)
    (hcell : ∀ a ∈ cell, a ∈ addrs) : wkAdd o wk cell ⊆ addrs := by
  unfold wkAdd
  split
  · intro a ha
    rcases mem_append.mp ha with ha | ha
    · exact hcell a (mem_toList.mp ha)
    · exact hwk ha
  · exact hwk

/-- At rest and without a chain, a slot holds the record of its place. -/
theorem loadSlot_idle {i : Nat} (hidle : ¬ b.Writing) (hlink : b.link = false) :
    b.loadSlot i o.cell = (b.recs.map Cell.addr)[i]? := by
  rw [Bucket.loadSlot, if_neg (by simp [hidle, hlink]), Bucket.slot_of_unlinked hlink, getElem?_map]

section

variable (h : InOrder s.bucket s) (hidle : ¬ s.bucket.Writing)
  (hstep : walkStep inside o s = some s')
include h hidle hstep

theorem InOrder.slot {i : Nat} (hpc : s.pc = .slot i) :
    s'.bucket = s.bucket ∧ InOrder s.bucket s' := by
  simp only [walkStep, InOrder, hpc] at hstep h
  obtain ⟨hhanded, hlink, hv0, htw⟩ := h
  have hused : s.bucket.used = s.bucket.recs.length := by
    rw [Bucket.used, hlink]
    rfl
  by_cases hi : i < pcacheSlots
  -- the tags set are those of the records, which stand first
  · have htag : s.tw.getD i false = decide (i < s.bucket.recs.length) := by
      rw [htw, Bucket.getD_tagWord _ hi, hused]
    rw [if_pos hi, htag] at hstep
    split at hstep
    · rename_i hlt
      rw [decide_eq_true_eq] at hlt
      cases hstep
      refine ⟨rfl, hhanded, hlink, hv0, htw, hlt, ?_⟩
      exact loadSlot_idle hidle hlink
    · rename_i hge
      rw [decide_eq_true_eq] at hge
      cases hstep
      refine ⟨rfl, ?_, hlink, hv0, htw⟩
      have hlen : (s.bucket.recs.map Cell.key).length ≤ i := by
        rw [length_map]
        omega
      rw [hhanded, take_of_length_le hlen, take_of_length_le (by omega)]
  · have hsame : ¬ (s.bucket.link = true ∨ s.v0 % 2 = 1 ∨ s.bucket.version ≠ s.v0) := by
      rw [Bucket.Writing] at hidle
      simp [hlink, hv0, hidle]
    rw [if_neg hi, if_neg hsame] at hstep
    cases hstep
    refine ⟨rfl, hhanded.trans (take_of_length_le ?_)⟩
    rw [Bucket.link, decide_eq_false_iff_not] at hlink
    rw [length_map]
    omega

theorem InOrder.look {v : Nat} (haddrs : (s.bucket.recs.map Cell.addr).Nodup)
    (hpc : s.pc = .look v j) : s'.bucket = s.bucket ∧ InOrder s.bucket s' := by
  simp only [walkStep, InOrder, hpc] at hstep h
  -- the look goes on behind what was handed out, or from the start
  obtain ⟨m, hfrom, hhanded, hwk⟩ : ∃ m, (if s.bucket.version = v then j + 1 else 0) = m ∧
      s.handed = (s.bucket.recs.map Cell.key).take m ∧
      s.wk ⊆ (s.bucket.recs.map Cell.addr).take m := by
    rcases h with ⟨rfl, hhanded, hwk⟩ | ⟨rfl, hhanded, hwk⟩
    · rw [if_neg fun hodd => hidle (by rw [Bucket.Writing, hodd])]
      exact ⟨0, rfl, hhanded, by rw [hwk]; exact nil_subset _⟩
    · rw [if_pos rfl]
      exact ⟨j + 1, rfl, hhanded, hwk⟩
  rw [if_neg hidle, hfrom, nextRec_of_subset haddrs hwk] at hstep
  cases hat : s.bucket.recs[m]? with
  | none =>
    rw [hat] at hstep
    cases hstep
    refine ⟨rfl, hhanded.trans (take_of_length_le ?_)⟩
    rw [length_map]
    exact getElem?_eq_none_iff.mp hat
  | some c =>
    rw [hat] at hstep
    cases hstep
    have hsub : (s.bucket.recs.map Cell.addr).take m ⊆
        (s.bucket.recs.map Cell.addr).take (m + 1) :=
      (take_sublist_take_left (le_succ m)).subset
    refine ⟨rfl, rfl, ?_, Subset.trans hwk hsub, ?_⟩
    · rw [hhanded]
      exact take_succ_key hat
    · rw [take_add_one, getElem?_map, hat]
      simp

end

theorem InOrder.walk (haddrs : (b.recs.map Cell.addr).Nodup) (hidle : ¬ b.Writing)
    (hinside : ∀ c ∈ b.recs, inside c.addr = true) (hbucket : s.bucket = b) (h : InOrder b s)
    (hstep : walkStep inside o s = some s') : s'.bucket = b ∧ InOrder b s' := by
  subst hbucket
  cases hpc : s.pc
  case slot i => exact h.slot hidle hstep hpc
  case look v j => exact h.look hidle hstep haddrs hpc
  all_goals simp only [walkStep, InOrder, hpc] at hstep h
  case version =>
    cases hstep
    exact ⟨rfl, h.1, h.2, rfl⟩
  case tags =>
    cases hstep
    exact ⟨rfl, h.1, h.2.1, h.2.2, Bucket.loadTags_idle _ hidle⟩
  case link =>
    obtain ⟨hhanded, hwk, hv0, htw⟩ := h
    rw [Bucket.loadLink, if_neg hidle] at hstep
    split at hstep
    · cases hstep
      exact ⟨rfl, .inl ⟨rfl, hhanded, hwk⟩⟩
    · rename_i hlink
      split at hstep
      · cases hstep
        exact ⟨rfl, hhanded, Bool.eq_false_iff.mpr hlink, hv0, htw⟩
      · rename_i hclear
        cases hstep
        refine ⟨rfl, ?_⟩
        -- no tag is set, so there is no record
        have hnil : s.bucket.recs = [] := by
          by_contra hne
          refine hclear ?_
          rw [htw, ← Bucket.loadTags_idle [] hidle]
          exact Bucket.loadTags_any [] hne
        simp only [InOrder, hhanded, hnil, map_nil]
  case snapshot i cell =>
    obtain ⟨hhanded, hlink, hv0, htw, hi, hcell⟩ := h
    have hat := getElem?_eq_getElem hi
    have hin := hinside _ (getElem_mem hi)
    rw [if_neg hidle, Bucket.slot_of_unlinked hlink, hat, filter_some_pos] at hstep
    · cases hstep
      refine ⟨rfl, ?_, hlink, hv0, htw, hcell⟩
      rw [hhanded]
      exact take_succ_key hat
    · rw [hin, Bool.or_true]
  case callback i cell =>
    cases hstep
    exact ⟨rfl, h⟩
  case now i cell =>
    obtain ⟨hhanded, hlink, hv0, htw, hcell⟩ := h
    rw [loadSlot_idle hidle hlink, ← hcell, if_neg fun hne => hne.2 rfl] at hstep
    cases hstep
    exact ⟨rfl, hhanded, hlink, hv0, htw⟩
  case emit v j cell =>
    obtain ⟨hv, hhanded, hwk, hcell⟩ := h
    cases hstep
    refine ⟨rfl, .inr ⟨hv, hhanded, wkAdd_subset hwk fun a ha => ?_⟩⟩
    cases ha
    exact hcell
  case done => cases hstep

end Unwritten

/-! ### The walk of a bucket -/

/-- A key that stays is handed over at least once, if the walk records no address but that of the
record it handed over and none that a key still to come moves to, and its record lies inside the
extents. A bucket nobody writes is handed over in order, each key once. -/
theorem bucket_walk_hands_over [DecidableEq κ] (inside : Nat → Bool) (b : Bucket κ) (hb : b.Wf)
    (acts : List (Act κ)) (s : State κ) (hrun : run (step inside) (start b) acts = some s)
    (hdone : s.pc = .done) :
    (∀ k ∈ b.recs.map Cell.key, Along (step inside) (Stays k) (start b) acts →
        Along (step inside) (Marked inside k) (start b) acts → k ∈ s.handed) ∧
      (¬ b.Writing → (∀ a ∈ acts, ∃ o, a = .walk o) → (∀ c ∈ b.recs, inside c.addr = true) →
        s.handed = b.recs.map Cell.key) := by
  refine ⟨fun k hk hstays hmarked => ?_, fun hidle hwalk hinside => ?_⟩
  · have hinit : Inv k (start b) :=
      ⟨hb.keys, hk, zero_le _, fun _ _ _ hmem => absurd hmem (not_mem_nil), trivial⟩
    have hinv : Inv k s :=
      run_invariant (fun _ _ _ h hok hstep => h.step hok hstep) hinit (hstays.and hmarked) hrun
    have hplace := hinv.place
    rw [Place, hdone] at hplace
    exact hplace
  · have hkept : ∀ (s : State κ) (a : Act κ) s', (s.bucket = b ∧ InOrder b s) →
        (∃ o, a = .walk o) → step inside s a = some s' → s'.bucket = b ∧ InOrder b s' := by
      intro s a s' ⟨hbucket, horder⟩ ⟨o, ho⟩ hstep
      rw [ho] at hstep
      exact horder.walk hb.addrs hidle hinside hbucket hstep
    have hinit : (start b).bucket = b ∧ InOrder b (start b) := ⟨rfl, rfl, rfl⟩
    have horder := (run_invariant hkept hinit (along_of_forall _ (start b) hwalk) hrun).2
    rw [InOrder, hdone] at horder
    exact horder

/-- A bucket of two records, in the cells 1 and 2. -/
def twoRecs : Bucket Nat := ⟨[⟨1, 0⟩, ⟨2, 1⟩], 0⟩

def walks (n : Nat) : List (Act Nat) := List.replicate n (.walk {})

/-- The callback removes the record it is handed, and the second record moves into its slot. -/
def removed : List (Act Nat) := walks 5 ++ [.enter, .remove 0, .leave] ++ walks 14

theorem bucket_walk_hands_over_removed :
    ∃ s, run (step fun _ => true) (start twoRecs) removed = some s ∧ s.pc = .done ∧ 1 ∈ s.handed :=
  ⟨_, rfl, by decide, (bucket_walk_hands_over (fun _ => true) twoRecs ⟨by decide, by decide⟩
    removed _ rfl (by decide)).1 1 (by decide) (by decide) (by decide)⟩

/-- It also has the second record overwritten, and the cell just freed is given out again. -/
def reused : List (Act Nat) :=
  walks 5 ++ [.enter, .remove 0, .leave, .enter, .overwrite 1 1, .leave] ++ walks 10

/-- The walk records the cell's address for the record it handed over, and skips the other that
lives there now. -/
theorem reused_cell_skipped : twoRecs.Wf ∧ 1 ∈ twoRecs.recs.map Cell.key ∧
      Along (step fun _ => true) (Stays 1) (start twoRecs) reused ∧
      ∃ s, run (step fun _ => true) (start twoRecs) reused = some s ∧ s.pc = .done ∧
        1 ∈ s.bucket.recs.map Cell.key ∧ s.handed = [0] :=
  ⟨⟨by decide, by decide⟩, by decide, by decide, _, rfl, by decide, by decide, by decide⟩

end Perfcached.Walk
