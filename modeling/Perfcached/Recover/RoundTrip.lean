import Perfcached.Recover.Load

/-!
# Perfcached.Recover.RoundTrip

A snapshot that was completed, loaded back.

`Collection.current` says what a collection holds, a resize in progress included;
`restored` is the record a load should make of one. `rdbLoad_snapshotFile` computes
what the loader makes of a snapshot's file, and `snapshot_round_trip` says exactly
when that is every record of every collection, with its time left.
-/

namespace Perfcached.Recover

open Bytes Rdb List Option Nat

/-! ### What a collection holds -/

/-- The record a reader of the table finds. -/
def visible (ticks : Nat) (t : Table) (k : Key) : Option Rec :=
  (t.lookup k).filter fun r => !r.expired ticks

/-- The record a collection holds under a key: of two copies, during a resize, the
newer. -/
def current (ticks : Nat) (c : Collection) (k : Key) : Option Rec :=
  match visible ticks c.table k, c.draining.bind fun old => visible ticks old k with
  | some r, some o => if r.ver < o.ver then some o else some r
  | some r, none => some r
  | none, o => o

variable {k : Key} {r : Rec}

theorem visible_eq_some {ticks : Nat} {t : Table} :
    visible ticks t k = some r ↔ t.lookup k = some r ∧ r.expired ticks = false := by
  simp [visible, filter_eq_some_iff]

theorem htGetver_eq (ticks : Nat) (t : Table) (k : Key) :
    htGetver ticks t k = (visible ticks t k).map Rec.ver := by
  unfold htGetver visible
  cases t.lookup k with
  | none => rfl
  | some r => cases h : r.expired ticks <;> simp [h]

theorem mem_filter_writes {c : WalkCtx} {t : Table} :
    (⟨k, r⟩ : Sigma fun _ : Key => Rec) ∈ t.entries.filter c.writes ↔
      visible c.nowTicks t k = some r ∧ c.superseded k r.ver = false := by
  rw [mem_filter, ← AList.mem_lookup_iff, mem_def, visible_eq_some, WalkCtx.writes]
  simp [and_assoc]

/-- The records a save writes for a collection, in order. -/
def savedEntries (env : SaveEnv) (c : Collection) : List (Sigma fun _ : Key => Rec) :=
  (match c.draining with
    | some old =>
      old.entries.filter (WalkCtx.writes ⟨env.nowTicks, env.nowWall, some c.table, false⟩)
    | none => []) ++
  c.table.entries.filter (WalkCtx.writes ⟨env.nowTicks, env.nowWall, c.draining, true⟩)

/-- The clocks of the walks of a save. -/
def walkClock (env : SaveEnv) : WalkCtx := ⟨env.nowTicks, env.nowWall, none, false⟩

theorem tablesBytes_eq (env : SaveEnv) (c : Collection) : tablesBytes env c =
      (savedEntries env c).flatMap fun e => entryBytes (walkClock env) e.1 e.2 := by
  unfold tablesBytes savedEntries walkBytes
  cases c.draining with
  | none => rfl
  | some old => rw [flatMap_append]; rfl

variable {env : SaveEnv} {c : Collection}

/-- A save writes, of each key, the record the collection holds. -/
theorem mem_savedEntries : ⟨k, r⟩ ∈ savedEntries env c ↔ current env.nowTicks c k = some r := by
  unfold savedEntries current
  cases hd : c.draining with
  | none =>
    rw [nil_append, mem_filter_writes]
    cases visible env.nowTicks c.table k <;> simp [WalkCtx.superseded]
  | some old =>
    rw [mem_append, mem_filter_writes, mem_filter_writes]
    simp only [WalkCtx.superseded, htGetver_eq, bind_some]
    cases visible env.nowTicks c.table k with
    | none => simp
    | some r' =>
      cases visible env.nowTicks old k with
      | none => simp
      | some o =>
        by_cases hv : r'.ver < o.ver
        · simp only [some.injEq, map_some, if_pos hv]
          constructor
          · rintro (⟨rfl, -⟩ | ⟨rfl, hs⟩)
            · rfl
            · simp [hv] at hs
          · rintro rfl
            exact .inl ⟨rfl, by simpa using hv⟩
        · simp only [some.injEq, map_some, if_neg hv]
          constructor
          · rintro (⟨rfl, hs⟩ | ⟨rfl, -⟩)
            · simp at hs
              omega
            · rfl
          · rintro rfl
            exact .inr ⟨rfl, by simpa using hv⟩

theorem nodupKeys_filter (t : Table) (p : (Sigma fun _ : Key => Rec) → Bool) :
    ((t.entries.filter p).map Sigma.fst).Nodup :=
  t.nodupKeys.sublist filter_sublist

/-- A save writes no key of a collection twice. -/
theorem nodup_savedEntries (env : SaveEnv) (c : Collection) :
    ((savedEntries env c).map Sigma.fst).Nodup := by
  unfold savedEntries
  cases hd : c.draining with
  | none => exact nodupKeys_filter _ _
  | some old =>
    rw [map_append]
    refine (nodupKeys_filter _ _).append (nodupKeys_filter _ _) ?_
    intro k hk hk'
    obtain ⟨⟨_, o⟩, ho, rfl⟩ := mem_map.mp hk
    obtain ⟨⟨_, r⟩, hr, rfl⟩ := mem_map.mp hk'
    -- each copy would have to be newer than the other
    obtain ⟨hvo, hso⟩ := mem_filter_writes.mp ho
    obtain ⟨hvr, hsr⟩ := mem_filter_writes.mp hr
    simp only [WalkCtx.superseded, htGetver_eq] at hso hsr hvo hvr
    simp only [hvr, map_some] at hso
    simp only [hvo, map_some] at hsr
    simp at hso hsr
    omega

/-! ### What a load makes of the records -/

/-- The record a load makes of one in the file, at a tick count. -/
def loaded (ticks nowWall : Nat) (f : FileRec) : Option Rec :=
  let exp := wallToTicks ticks nowWall f.wall
  if exp = 1 then none else some ⟨f.val, exp, f.fl, f.ver⟩

/-- The arena has a cell for every record. -/
def Roomy (A : Arena) : Prop := ∀ n ≤ cellMax, A.alloc n = true

variable {st : LoadSt}

section Effect

variable {A : Arena} (clk : LoadClock)

section

variable (ht : Option Nat) (cache : Bool)
include ht

theorem loadRecord_seen (st : LoadSt) (f : FileRec) :
    (loadRecord A clk ht cache st f).seen = st.seen + 1 := by
  unfold loadRecord
  simp only
  split
  · split <;> rfl
  · split
    · rfl
    · split <;> rfl

theorem loadRecord_marker (st : LoadSt) (f : FileRec) :
    (loadRecord A clk ht cache st f).marker = st.marker := by
  unfold loadRecord
  simp only
  split
  · split <;> rfl
  · split
    · rfl
    · split <;> rfl

theorem foldl_loadRecord_marker (fs : List FileRec) (st : LoadSt) :
    (fs.foldl (loadRecord A clk ht cache) st).marker = st.marker := by
  induction fs generalizing st with
  | nil => rfl
  | cons f fs ih => rw [foldl_cons, ih, loadRecord_marker]

end

/-- One record goes into the table of its slot, and nowhere else. -/
theorem loadRecord_reg (hA : Roomy A) {i : Nat} {f : FileRec} (hslot : st.reg[i]? = some c)
    (hf : Storable f.key f.val) (habs : c.table.lookup f.key = none) (cache : Bool) :
    ∃ t : Table, (loadRecord A clk (some i) cache st f).reg = st.reg.set i { c with table := t } ∧
      ∀ k, t.lookup k = if k = f.key then loaded (clk.tick st.seen) clk.nowWall f
        else c.table.lookup k := by
  unfold loadRecord loaded
  simp only [bind_some, hslot, map_some]
  by_cases hexp : wallToTicks (clk.tick st.seen) clk.nowWall f.wall = 1
  · refine ⟨c.table, ?_, fun k => ?_⟩
    · rw [if_pos hexp]
      obtain ⟨hi, rfl⟩ := List.getElem?_eq_some_iff.mp hslot
      exact (set_getElem_self hi).symm
    · rw [if_pos hexp]
      split
      · next hk => rw [hk, habs]
      · rfl
  · rw [if_neg hexp, if_neg hexp, htStoreEx_absent hf (hA _ hf.size) habs]
    refine ⟨_, rfl, fun k => ?_⟩
    rw [lookup_htSetver, lookup_insert, lookup_insert, if_pos rfl]
    split
    · rfl
    · rfl

/-- The records of a collection go into the table of its slot: each key gets what
its record is at the tick count of its turn. -/
theorem foldl_loadRecord_reg (hA : Roomy A) (cache : Bool) (fs : List FileRec)
    (hfs : ∀ f ∈ fs, Storable f.key f.val) (hnodup : (fs.map FileRec.key).Nodup) (st : LoadSt)
    {i : Nat} (hslot : st.reg[i]? = some c) (habs : ∀ f ∈ fs, c.table.lookup f.key = none) :
    ∃ t : Table,
      (fs.foldl (loadRecord A clk (some i) cache) st).reg = st.reg.set i { c with table := t } ∧
      (fs.foldl (loadRecord A clk (some i) cache) st).seen = st.seen + fs.length ∧
      (∀ j f, fs[j]? = some f → t.lookup f.key = loaded (clk.tick (st.seen + j)) clk.nowWall f) ∧
      (∀ k, (∀ f ∈ fs, k ≠ f.key) → t.lookup k = c.table.lookup k) := by
  induction fs generalizing st c with
  | nil =>
    obtain ⟨hi, rfl⟩ := List.getElem?_eq_some_iff.mp hslot
    exact ⟨_, (set_getElem_self hi).symm, rfl, by simp, fun k _ => rfl⟩
  | cons f fs ih =>
    rw [map_cons, nodup_cons] at hnodup
    have hne : ∀ g ∈ fs, g.key ≠ f.key := fun g hg he => hnodup.1 (he ▸ mem_map_of_mem hg)
    obtain ⟨t₁, hreg₁, hlook₁⟩ := loadRecord_reg clk hA hslot
      (hfs f mem_cons_self) (habs f mem_cons_self) cache
    have hlt : i < st.reg.length := (List.getElem?_eq_some_iff.mp hslot).1
    obtain ⟨t, hreg, hseen, hmem, hother⟩ := ih (fun g hg => hfs g (mem_cons_of_mem _ hg))
      hnodup.2 (loadRecord A clk (some i) cache st f) (c := { c with table := t₁ })
      (by rw [hreg₁, getElem?_set_self hlt])
      (fun g hg => by
        rw [hlook₁, if_neg (hne g hg)]
        exact habs g (mem_cons_of_mem _ hg))
    refine ⟨t, ?_, ?_, ?_, ?_⟩
    · rw [foldl_cons, hreg, hreg₁, set_set]
    · rw [foldl_cons, hseen, loadRecord_seen, length_cons]
      omega
    · intro j g hg
      cases j with
      | zero =>
        obtain rfl : f = g := some.inj hg
        rw [hother f.key (fun g hg => (hne g hg).symm), hlook₁, if_pos rfl]
        rfl
      | succ j =>
        rw [hmem j g hg, loadRecord_seen, add_assoc, add_comm 1 j]
    · intro k hk
      rw [hother k (fun g hg => hk g (mem_cons_of_mem _ hg)), hlook₁, if_neg (hk f mem_cons_self)]

end Effect

/-! ### Collections -/

/-- The collections a save writes. -/
def savedCollections (cs : List Collection) : List Collection :=
  cs.filter fun c => c.isLive && c.durable

/-- What the store guarantees of its contents, and of the clocks of a save. -/
structure WellFormed (env : SaveEnv) (cs : List Collection) : Prop where
  names : (savedCollections cs).Pairwise fun c c' => c.name ≠ c'.name
  nameLen : ∀ c ∈ cs, c.name.length < 64
  stored : ∀ c ∈ cs, ∀ t : Table, t = c.table ∨ c.draining = some t → ∀ k r,
    t.lookup k = some r → Storable k r.val ∧ r.ver < 2 ^ 64 ∧ r.expires < 2 ^ 32
  clock : env.nowWall + 2 ^ 32 < 2 ^ 63

variable {cs : List Collection}

section

variable (h : WellFormed env cs) (hc : c ∈ cs)
include h hc

theorem current_stored (hr : current env.nowTicks c k = some r) :
    Storable k r.val ∧ r.ver < 2 ^ 64 ∧ r.expires < 2 ^ 32 := by
  rw [← mem_savedEntries, savedEntries, mem_append] at hr
  rcases hr with hr | hr
  · cases hd : c.draining with
    | none => simp [hd] at hr
    | some old =>
      simp only [hd] at hr
      exact h.stored c hc old (.inr hd) k r (visible_eq_some.mp (mem_filter_writes.mp hr).1).1
  · exact h.stored c hc _ (.inl rfl) k r (visible_eq_some.mp (mem_filter_writes.mp hr).1).1

theorem wall_lt_of_saved : ∀ e ∈ savedEntries env c, (walkClock env).wall e.2 < 2 ^ 63 := by
  rintro ⟨k, r⟩ he
  obtain ⟨-, -, hexp⟩ := current_stored h hc (mem_savedEntries.mp he)
  have hclock := h.clock
  change (if r.expires ≠ 0 then env.nowWall + (r.expires - env.nowTicks) else 0) < 2 ^ 63
  split <;> omega

theorem savedEntries_fit : ∀ e ∈ savedEntries env c, FitsFile (walkClock env) e.1 e.2 := by
  rintro ⟨k, r⟩ he
  obtain ⟨hst, hver, hexp⟩ := current_stored h hc (mem_savedEntries.mp he)
  have hsize := hst.emitVal.size
  refine ⟨?_, lt_trans (wall_lt_of_saved h hc _ he) (by norm_num), hver⟩
  change k.length + r.emitVal.length < 2 ^ 32
  unfold recSize cellMax at hsize
  omega

end

variable {l : List Collection}

section Collections

variable {A : Arena} (clk : LoadClock) {env : SaveEnv}

/-- The records of one collection, loaded into the slot its name finds. -/
def loadCollection (A : Arena) (clk : LoadClock) (env : SaveEnv) (st : LoadSt) (c : Collection) :
    LoadSt :=
  ((savedEntries env c).map fun e => savedRec (walkClock env) e.1 e.2).foldl
    (loadRecord A clk (storeFind st.reg c.name) false) st

/-- What the loading of one collection leaves. -/
structure CollectionLoaded (clk : LoadClock) (env : SaveEnv) (c : Collection) (st st' : LoadSt) :
    Prop where
  shape : st'.reg.map shape = st.reg.map shape
  seen : st'.seen = st.seen + (savedEntries env c).length
  saved : ∀ j e, (savedEntries env c)[j]? = some e → lookupIn st'.reg c.name e.1 =
    loaded (clk.tick (st.seen + j)) clk.nowWall (savedRec (walkClock env) e.1 e.2)
  absent : ∀ k, current env.nowTicks c k = none → lookupIn st'.reg c.name k = none
  others : ∀ name k, name ≠ c.name → lookupIn st'.reg name k = lookupIn st.reg name k

theorem loadCollection_loaded (hA : Roomy A) (hwf : WellFormed env cs) (hc : c ∈ cs)
    (hs : HasSlot st.reg c.name) (hempty : ∀ k, lookupIn st.reg c.name k = none) :
    CollectionLoaded clk env c st (loadCollection A clk env st c) := by
  obtain ⟨i, col, hfind, hslot, -⟩ := hs
  have hnone : ∀ k, col.table.lookup k = none := by
    intro k
    have := hempty k
    rwa [lookupIn, hfind, bind_some, hslot, bind_some] at this
  obtain ⟨t, hreg, hseen, hmem, hother⟩ := foldl_loadRecord_reg clk hA false
    ((savedEntries env c).map fun e => savedRec (walkClock env) e.1 e.2)
    (fun f hf => by
      obtain ⟨e, he, rfl⟩ := mem_map.mp hf
      exact (current_stored hwf hc (mem_savedEntries.mp he)).1.emitVal)
    (by rw [List.map_map]; exact nodup_savedEntries env c) st hslot (fun f _ => hnone f.key)
  obtain ⟨hin, hout⟩ := lookupIn_set hfind hslot t
  unfold loadCollection
  rw [hfind]
  refine ⟨?_, ?_, ?_, ?_, ?_⟩
  · rw [hreg]
    exact shape_set hslot t
  · rw [hseen, length_map]
  · intro j e he
    rw [hreg, hin]
    exact hmem j (savedRec (walkClock env) e.1 e.2) (by rw [getElem?_map, he]; rfl)
  · intro k hk
    rw [hreg, hin, hother, hnone]
    rintro f hf rfl
    obtain ⟨e, he, rfl⟩ := mem_map.mp hf
    cases (mem_savedEntries.mp he).symm.trans hk
  · intro name k hne
    rw [hreg]
    exact hout name k hne

/-- The collections `l` of a snapshot are to be loaded, each into a slot of its own. -/
structure Loadable (A : Arena) (env : SaveEnv) (cs l : List Collection) (st : LoadSt) : Prop where
  roomy : Roomy A
  wf : WellFormed env cs
  mem : ∀ c ∈ l, c ∈ cs
  names : l.Pairwise fun c c' => c.name ≠ c'.name
  slots : ∀ c ∈ l, HasSlot st.reg c.name
  empty : ∀ c ∈ l, ∀ k, lookupIn st.reg c.name k = none

theorem Loadable.head (h : Loadable A env cs (c :: l) st) :
    CollectionLoaded clk env c st (loadCollection A clk env st c) :=
  loadCollection_loaded clk h.roomy h.wf (h.mem c mem_cons_self) (h.slots c mem_cons_self)
    (h.empty c mem_cons_self)

theorem Loadable.tail (h : Loadable A env cs (c :: l) st) :
    Loadable A env cs l (loadCollection A clk env st c) := by
  have hld := h.head clk
  have hnames := pairwise_cons.mp h.names
  refine ⟨h.roomy, h.wf, fun d hd => h.mem d (mem_cons_of_mem _ hd), hnames.2, fun d hd => ?_,
    fun d hd k => ?_⟩
  · exact (h.slots d (mem_cons_of_mem _ hd)).congr hld.shape.symm
  · rw [hld.others d.name k (hnames.1 d hd).symm]
    exact h.empty d (mem_cons_of_mem _ hd) k

section

variable (h : Loadable A env cs l st)
include h

/-- The loop reads collections back one after the other. -/
theorem loadLoop_collections (q : List Byte) (hq : 4 ≤ q.length) (ht : Option Nat) (cache : Bool) :
    ∃ ht' cache', loadLoop A clk 3 ht cache st (l.flatMap (collectionBytes env) ++ q) =
      loadLoop A clk 3 ht' cache' (l.foldl (loadCollection A clk env) st) q := by
  induction l generalizing st ht cache with
  | nil => exact ⟨ht, cache, rfl⟩
  | cons c l ih =>
    have hc := h.mem c mem_cons_self
    obtain ⟨i, col, hfind, hslot, hd⟩ := h.slots c mem_cons_self
    have hlen := h.wf.nameLen c hc
    have hq' : 4 ≤ (l.flatMap (collectionBytes env) ++ q).length := by
      rw [length_append]
      omega
    have hstep : loadLoop A clk 3 ht cache st ((c :: l).flatMap (collectionBytes env) ++ q) =
        loadLoop A clk 3 (some i) false (loadCollection A clk env st c)
          (l.flatMap (collectionBytes env) ++ q) := by
      rw [flatMap_cons, append_assoc, collectionBytes, tablesBytes_eq, append_assoc,
        loadLoop_collection A clk ht cache (by omega) hfind hslot hd _
          (by rw [length_append]; omega),
        loadLoop_entries A clk _ _ st (savedEntries_fit h.wf hc) _ hq', loadCollection, hfind]
    rw [hstep]
    exact ih (h.tail clk) _ _

theorem foldl_loadCollection_others (name : List Byte) (hname : ∀ c ∈ l, name ≠ c.name) (k : Key) :
    lookupIn (l.foldl (loadCollection A clk env) st).reg name k = lookupIn st.reg name k := by
  induction l generalizing st with
  | nil => rfl
  | cons c l ih =>
    rw [foldl_cons, ih (h.tail clk) fun c' hc' => hname c' (mem_cons_of_mem _ hc'),
      (h.head clk).others name k (hname c mem_cons_self)]

/-- What the loading of the collections leaves of one of them. -/
theorem foldl_loadCollection_lookup (hc : c ∈ l) (k : Key) :
    ∃ j, lookupIn (l.foldl (loadCollection A clk env) st).reg c.name k =
      (current env.nowTicks c k).bind fun r =>
        loaded (clk.tick j) clk.nowWall (savedRec (walkClock env) k r) := by
  induction l generalizing st with
  | nil => cases hc
  | cons c' l ih =>
    have hld := h.head clk
    rw [foldl_cons]
    rcases mem_cons.mp hc with rfl | hc
    · rw [foldl_loadCollection_others clk (h.tail clk) c.name (pairwise_cons.mp h.names).1 k]
      cases hk : current env.nowTicks c k with
      | none => exact ⟨0, hld.absent k hk⟩
      | some r =>
        obtain ⟨j, he⟩ := mem_iff_getElem?.mp (mem_savedEntries.mpr hk)
        exact ⟨st.seen + j, hld.saved j _ he⟩
    · exact ih (h.tail clk) hc

/-- The loading of the collections changes no slot's name and no marker. -/
theorem foldl_loadCollection_shape :
    (l.foldl (loadCollection A clk env) st).reg.map shape = st.reg.map shape ∧
      (l.foldl (loadCollection A clk env) st).marker = st.marker := by
  induction l generalizing st with
  | nil => exact ⟨rfl, rfl⟩
  | cons c l ih =>
    obtain ⟨hshape, hmarker⟩ := ih (h.tail clk)
    exact ⟨hshape.trans (h.head clk).shape,
      hmarker.trans (foldl_loadRecord_marker clk _ false _ st)⟩

end

end Collections

/-! ### The round trip -/

/-- The seconds a record of the snapshot has left at the start of a load. -/
def timeLeft (env : SaveEnv) (clk : LoadClock) (r : Rec) : Nat :=
  (walkClock env).wall r - clk.nowWall

/-- The record as a load should leave it: the value, the carried flags and the
version, and the deadline at the same wall-clock second. -/
def restored (env : SaveEnv) (clk : LoadClock) (r : Rec) : Rec where
  val := r.emitVal
  expires := if r.expires = 0 then 0 else clk.tick 0 + timeLeft env clk r
  rflags := r.rflags &&& fCarry
  ver := r.ver

/-- The deadline of a record, handled at tick `clk.tick j`, comes out right: the tick
counter is where it was at the start of the load, and the deadline is neither the
"already expired" mark nor past the end of the counter. -/
def DeadlineKept (env : SaveEnv) (clk : LoadClock) (j : Nat) (r : Rec) : Prop :=
  r.expires ≠ 0 → clk.tick j = clk.tick 0 ∧ 1 < clk.tick 0 + timeLeft env clk r ∧
    clk.tick 0 + timeLeft env clk r < 2 ^ 32

/-- The record is still alive when the load begins. -/
def StillAlive (env : SaveEnv) (clk : LoadClock) (r : Rec) : Prop :=
  r.expires ≠ 0 → clk.nowWall < (walkClock env).wall r

theorem loaded_eq_restored_iff {clk : LoadClock} {j : Nat} (hlt : (walkClock env).wall r < 2 ^ 63)
    (halive : StillAlive env clk r) :
    loaded (clk.tick j) clk.nowWall (savedRec (walkClock env) k r) = some (restored env clk r) ↔
      DeadlineKept env clk j r := by
  unfold loaded DeadlineKept
  simp only
  by_cases hexp : r.expires = 0
  · have hticks : wallToTicks (clk.tick j) clk.nowWall ((walkClock env).wall r) = 0 := by
      simp [wallToTicks, WalkCtx.wall, hexp]
    rw [show (savedRec (walkClock env) k r).wall = (walkClock env).wall r from rfl, hticks,
      if_neg (by decide)]
    simp [restored, savedRec, hexp]
  · have hwall := halive hexp
    have hj := clk.tick_lt j
    have hticks : wallToTicks (clk.tick j) clk.nowWall ((walkClock env).wall r) =
        (clk.tick j + timeLeft env clk r) % 2 ^ 32 := by
      rw [wallToTicks, if_neg (by omega), if_neg (by omega)]
      rfl
    have hres : restored env clk r =
        ⟨r.emitVal, clk.tick 0 + timeLeft env clk r, r.rflags &&& fCarry, r.ver⟩ := by
      rw [restored, if_neg hexp]
    have hleft : 0 < timeLeft env clk r := Nat.sub_pos_of_lt hwall
    rw [show (savedRec (walkClock env) k r).wall = (walkClock env).wall r from rfl, hticks, hres]
    constructor
    · intro h _
      obtain ⟨hne, h⟩ := ite_none_left_eq_some.mp h
      have he : (clk.tick j + timeLeft env clk r) % 2 ^ 32 = clk.tick 0 + timeLeft env clk r :=
        congrArg Rec.expires (some.inj h)
      omega
    · intro h
      obtain ⟨htick, hlow, hhigh⟩ := h hexp
      rw [htick, mod_eq_of_lt hhigh, if_neg (by omega)]
      rfl

/-- The records of a snapshot, in the order of the file. -/
def snapshotRecords (env : SaveEnv) (cs : List Collection) : List (Sigma fun _ : Key => Rec) :=
  (savedCollections cs).flatMap (savedEntries env)

section RoundTrip

variable {A : Arena} (clk : LoadClock) {env : SaveEnv}

/-- One collection comes back exactly when each of its records does. -/
theorem collection_restored_iff {st' : LoadSt} (h : CollectionLoaded clk env c st st')
    (hlt : ∀ e ∈ savedEntries env c, (walkClock env).wall e.2 < 2 ^ 63)
    (halive : ∀ e ∈ savedEntries env c, StillAlive env clk e.2) :
    (∀ k, lookupIn st'.reg c.name k = (current env.nowTicks c k).map (restored env clk)) ↔
      ∀ j e, (savedEntries env c)[j]? = some e → DeadlineKept env clk (st.seen + j) e.2 := by
  constructor
  · rintro hall j ⟨k, r⟩ he
    have hmem := mem_of_getElem? he
    have hk := hall k
    rw [h.saved j _ he, mem_savedEntries.mp hmem] at hk
    exact (loaded_eq_restored_iff (hlt _ hmem) (halive _ hmem)).mp hk
  · intro hkept k
    cases hk : current env.nowTicks c k with
    | none => rw [h.absent k hk]; rfl
    | some r =>
      have hmem := mem_savedEntries.mpr hk
      obtain ⟨j, he⟩ := mem_iff_getElem?.mp hmem
      rw [h.saved j _ he]
      exact (loaded_eq_restored_iff (hlt _ hmem) (halive _ hmem)).mpr (hkept j _ he)

/-- All collections come back exactly when each record of the snapshot does. -/
theorem collections_restored_iff (h : Loadable A env cs l st)
    (halive : ∀ e ∈ l.flatMap (savedEntries env), StillAlive env clk e.2) :
    (∀ c ∈ l, ∀ k, lookupIn (l.foldl (loadCollection A clk env) st).reg c.name k =
        (current env.nowTicks c k).map (restored env clk)) ↔
      ∀ j e, (l.flatMap (savedEntries env))[j]? = some e →
        DeadlineKept env clk (st.seen + j) e.2 := by
  induction l generalizing st with
  | nil => simp
  | cons c l ih =>
    rw [flatMap_cons] at halive ⊢
    have hld := h.head clk
    have hone := collection_restored_iff clk hld
      (wall_lt_of_saved h.wf (h.mem c mem_cons_self))
      (fun e he => halive e (mem_append_left _ he))
    have hrest := ih (h.tail clk) (fun e he => halive e (mem_append_right _ he))
    have hkeep := foldl_loadCollection_others clk (h.tail clk) c.name (pairwise_cons.mp h.names).1
    rw [forall_mem_cons, foldl_cons, hrest, hld.seen]
    simp only [hkeep, hone]
    -- the records of the first collection come first
    constructor
    · rintro ⟨hfirst, hmore⟩ j e he
      by_cases hj : j < (savedEntries env c).length
      · rw [getElem?_append_left hj] at he
        exact hfirst j e he
      · rw [getElem?_append_right (by omega)] at he
        have := hmore _ e he
        rwa [Nat.add_assoc, Nat.add_sub_cancel' (by omega)] at this
    · intro hall
      refine ⟨fun j e he => hall j e ?_, fun j e he => ?_⟩
      · rwa [List.getElem?_append_left (List.getElem?_eq_some_iff.mp he).1]
      · rw [add_assoc]
        refine hall _ e ?_
        rwa [List.getElem?_append_right (by omega), Nat.add_sub_cancel_left]

/-- The bytes of a snapshot's file behind its header. -/
theorem snapshotFile_eq (env : SaveEnv) (cs : List Collection) :
    snapshotFile env cs = headerBytes env ++ (collectionsBytes env cs ++ (leBytes 1 0xFF ++
      leBytes 4 (pcCrc32c 0#32 (image env cs)).toNat)) := by
  simp only [snapshotFile, image, append_assoc]

theorem length_headerBytes (env : SaveEnv) : (headerBytes env).length = 24 := by
  simp [headerBytes]

theorem readRes_eq_iff (ρ : Int) (n : Nat) : readRes ρ n = n ↔ n ≤ readMax ∧ (n : Int) ≤ ρ := by
  unfold readRes
  omega

/-- The fields of a snapshot's header, read back. -/
theorem snapshotFile_header (env : SaveEnv) (cs : List Collection) :
    rd 4 (snapshotFile env cs) = magic ∧ rd 4 ((snapshotFile env cs).drop 4) = 3 ∧
    rd 8 ((snapshotFile env cs).drop 8) = env.lastSeq % 2 ^ 64 ∧
    rd 8 ((snapshotFile env cs).drop 16) = env.headWall % 2 ^ 64 := by
  obtain ⟨q, hq⟩ : ∃ q, snapshotFile env cs = leBytes 4 magic ++ (leBytes 4 Rdb.fmt ++
      (leBytes 8 env.lastSeq ++ (leBytes 8 env.headWall ++ q))) := by
    rw [snapshotFile_eq]
    exact ⟨_, rfl⟩
  rw [hq]
  refine ⟨rd_append_of_lt (by decide) _, ?_, ?_, ?_⟩
  · change rd 4 (drop (4 + 0) _) = 3
    rw [drop_leBytes_add, drop_zero]
    exact rd_append_of_lt (by decide) _
  · change rd 8 (drop (4 + (4 + 0)) _) = _
    rw [drop_leBytes_add, drop_leBytes_add, drop_zero]
    exact rd_append _ _ _
  · change rd 8 (drop (4 + (4 + (8 + 0))) _) = _
    rw [drop_leBytes_add, drop_leBytes_add, drop_leBytes_add, drop_zero]
    exact rd_append _ _ _

/-- The checksum of a snapshot's file is that of the bytes before it. -/
theorem snapshotFile_crc (env : SaveEnv) (cs : List Collection) :
    (pcCrc32c 0#32 ((snapshotFile env cs).take ((snapshotFile env cs).length - 4))).toNat =
      rd 4 ((snapshotFile env cs).drop ((snapshotFile env cs).length - 4)) := by
  have hlen : (snapshotFile env cs).length = (image env cs).length + 4 := by simp [snapshotFile]
  rw [hlen, Nat.add_sub_cancel, snapshotFile, take_left, drop_left, rd,
    take_of_length_le (by simp), leNat_leBytes_of_lt (pcCrc32c 0#32 (image env cs)).isLt]

/-- A snapshot's file passes the loader's checks, if its bytes were read. -/
theorem rdbLoad_snapshotFile (A : Arena) (clk : LoadClock) (ρ : Int) (env : SaveEnv)
    (cs : List Collection) (st : LoadSt) :
    rdbLoad A clk ρ (snapshotFile env cs) st =
      if (snapshotFile env cs).length ≤ readMax ∧ ((snapshotFile env cs).length : Int) ≤ ρ then
        loadLoop A clk 3 none false
          { st with marker := env.lastSeq % 2 ^ 64, rdbWall := env.headWall % 2 ^ 64 }
          (collectionsBytes env cs ++ (leBytes 1 0xFF ++
            leBytes 4 (pcCrc32c 0#32 (image env cs)).toNat))
      else (-1, st) := by
  have hlen : 28 ≤ (snapshotFile env cs).length := by
    rw [snapshotFile_eq, length_append, length_headerBytes]
    simp
    omega
  have hdrop : (snapshotFile env cs).drop 24 = collectionsBytes env cs ++ (leBytes 1 0xFF ++
      leBytes 4 (pcCrc32c 0#32 (image env cs)).toNat) := by
    rw [snapshotFile_eq, drop_left' (length_headerBytes env)]
  obtain ⟨hmagic, hfmt, hseq, hwall⟩ := snapshotFile_header env cs
  have hcrc := snapshotFile_crc env cs
  unfold rdbLoad
  generalize hfile : snapshotFile env cs = file at *
  simp only [if_neg (not_lt.mpr hlen), hmagic, hfmt, hseq, hwall, hcrc, hdrop, ne_eq,
    readRes_eq_iff, ite_not]
  congr 1

section

variable (hA : Roomy A) (hwf : WellFormed env cs) (st : LoadSt)
  (hpresent : ∀ c ∈ savedCollections cs, HasSlot st.reg c.name)
  (hempty : ∀ c ∈ savedCollections cs, ∀ k, lookupIn st.reg c.name k = none)
include hA hwf hpresent hempty

theorem loadable_saved : Loadable A env cs (savedCollections cs)
      { st with marker := env.lastSeq % 2 ^ 64, rdbWall := env.headWall % 2 ^ 64 } :=
  ⟨hA, hwf, fun _ hc => (mem_filter.mp hc).1, hwf.names, hpresent, hempty⟩

/-- A load of a snapshot is the loading of its collections, one after the other. -/
theorem rdbLoad_collections (ρ : Int) : rdbLoad A clk ρ (snapshotFile env cs) st =
      if (snapshotFile env cs).length ≤ readMax ∧ ((snapshotFile env cs).length : Int) ≤ ρ then
        (0, (savedCollections cs).foldl (loadCollection A clk env)
          { st with marker := env.lastSeq % 2 ^ 64, rdbWall := env.headWall % 2 ^ 64 })
      else (-1, st) := by
  obtain ⟨ht, cache, hloop⟩ := loadLoop_collections clk (loadable_saved hA hwf st hpresent hempty)
    (leBytes 1 0xFF ++ leBytes 4 (pcCrc32c 0#32 (image env cs)).toNat) (by simp) none false
  rw [rdbLoad_snapshotFile,
    show collectionsBytes env cs = (savedCollections cs).flatMap (collectionBytes env) from rfl,
    hloop, loadLoop_end]

end

/-- **A snapshot that was completed loads back** exactly when the loader's one
`read()` returned the whole file, and every record that expires was handled in the
tick the load began in, its deadline neither the "already expired" mark nor past the
32-bit counter. -/
theorem snapshot_round_trip {ω : Nat → Int} (hω : ∀ i, 0 < ω i) {fuel : Nat} {sys : Sys}
    {cs : List Collection} {rc : Int} {file : List Byte}
    (hsave : rdbSave ω fuel sys env cs = some ⟨rc, some file⟩) (hwf : WellFormed env cs)
    (hA : Roomy A) (st : LoadSt) (hst : st.seen = 0)
    (hpresent : ∀ c ∈ savedCollections cs, HasSlot st.reg c.name)
    (hempty : ∀ c ∈ savedCollections cs, ∀ k, lookupIn st.reg c.name k = none)
    (halive : ∀ e ∈ snapshotRecords env cs, StillAlive env clk e.2) (ρ : Int) :
    ((rdbLoad A clk ρ file st).1 = 0 ∧
      ∀ c ∈ savedCollections cs, ∀ k, lookupIn (rdbLoad A clk ρ file st).2.reg c.name k =
        (current env.nowTicks c k).map (restored env clk)) ↔
    (file.length ≤ readMax ∧ (file.length : Int) ≤ ρ) ∧
      ∀ j e, (snapshotRecords env cs)[j]? = some e → DeadlineKept env clk j e.2 := by
  obtain rfl := rdbSave_clear_file hω hsave
  have hload := rdbLoad_collections clk hA hwf st hpresent hempty ρ
  by_cases hread : (snapshotFile env cs).length ≤ readMax ∧ ((snapshotFile env cs).length : Int) ≤ ρ
  · rw [if_pos hread] at hload
    have hall := collections_restored_iff clk (loadable_saved hA hwf st hpresent hempty) halive
    rw [hload]
    simp only [hst, zero_add] at hall ⊢
    constructor
    · rintro ⟨-, hr⟩
      exact ⟨hread, hall.mp hr⟩
    · rintro ⟨-, hk⟩
      exact ⟨trivial, hall.mpr hk⟩
  · rw [if_neg hread] at hload
    rw [hload]
    constructor
    · rintro ⟨h, -⟩
      cases h
    · rintro ⟨h, -⟩
      exact absurd h hread

end RoundTrip

/-- A load that starts three ticks into the process, and takes less than one. -/
def quickLoad : LoadClock := ⟨1700000005, fun _ => 3, fun _ => by decide⟩

/-- The store at start-up, with that collection configured. -/
def freshStore (c : Collection) : LoadSt where
  reg := [{ c with table := ∅, draining := none }]
  clock := 0
  seen := 0
  marker := 0
  rdbWall := 0
  verHigh := 0
  rdbRecords := 0
  skippedNocol := 0
  skippedCache := 0
  skippedExpired := 0
  fmtNewer := 0

/-- The clocks of a save: 10 ticks into the process. -/
def saveAt : SaveEnv := ⟨7, 1700000000, 10, 1700000000⟩

/-- A collection with one small key is well formed. -/
theorem oneKey_wellFormed (hval : r.val.length ≤ 100) (hver : r.ver < 2 ^ 64)
    (hexp : r.expires < 2 ^ 32) : WellFormed saveAt [oneKey r] where
  names := pairwise_singleton _ _
  nameLen := by
    intro c hc
    rw [mem_singleton.mp hc]
    exact show 1 < 64 by decide
  stored := by
    intro c hc t ht k r' hr'
    rw [mem_singleton.mp hc] at ht
    rcases ht with rfl | ht
    · obtain ⟨rfl, rfl⟩ : k = [0x6B#8] ∧ r' = r := by
        have hmem := AList.mem_lookup_iff.mp (mem_def.mpr hr')
        simpa [oneKey, AList.singleton] using hmem
      refine ⟨⟨by decide, ?_⟩, hver, hexp⟩
      change 28 + 1 + r'.val.length ≤ 262080
      omega
    · cases ht
  clock := by decide

/-- A key with 90 seconds left at the save, loaded five seconds later: it comes back
with its value, its version and 85 seconds. -/
theorem snapshot_round_trip_oneKey :
    (rdbLoad vastArena quickLoad 4096 (snapshotFile saveAt [oneKey ⟨[0x76#8], 100, 0#8, 9⟩])
      (freshStore (oneKey ⟨[0x76#8], 100, 0#8, 9⟩))).1 = 0 ∧
    lookupIn (rdbLoad vastArena quickLoad 4096
        (snapshotFile saveAt [oneKey ⟨[0x76#8], 100, 0#8, 9⟩])
        (freshStore (oneKey ⟨[0x76#8], 100, 0#8, 9⟩))).2.reg [0x63#8] [0x6B#8] =
      some ⟨[0x76#8], 88, 0#8, 9⟩ := by
  have hsave : rdbSave (fun _ => 1) 65536 ⟨true, true, true, true⟩ saveAt
      [oneKey ⟨[0x76#8], 100, 0#8, 9⟩] =
        some ⟨0, some (snapshotFile saveAt [oneKey ⟨[0x76#8], 100, 0#8, 9⟩])⟩ :=
    rdbSave_clear (fun _ => by decide) _ (by decide)
  have hrecs : snapshotRecords saveAt [oneKey ⟨[0x76#8], 100, 0#8, 9⟩] =
      [⟨[0x6B#8], ⟨[0x76#8], 100, 0#8, 9⟩⟩] := by decide
  have hsaved : savedCollections [oneKey ⟨[0x76#8], 100, 0#8, 9⟩] =
      [oneKey ⟨[0x76#8], 100, 0#8, 9⟩] := rfl
  obtain ⟨h0, hall⟩ := (snapshot_round_trip (A := vastArena) quickLoad
    (fun _ => by decide) hsave (oneKey_wellFormed (by decide) (by decide) (by decide))
    (fun _ _ => rfl) (freshStore (oneKey ⟨[0x76#8], 100, 0#8, 9⟩)) rfl
    (by
      intro c hc
      rw [hsaved, mem_singleton] at hc
      subst hc
      exact ⟨0, _, rfl, rfl, rfl⟩)
    (by
      intro c hc k
      rw [hsaved, mem_singleton] at hc
      subst hc
      rfl)
    (by
      intro e he
      rw [hrecs, mem_singleton] at he
      subst he
      exact fun _ => by decide) 4096).mpr ⟨by decide, by
        intro j e he
        rw [hrecs] at he
        obtain rfl : e = ⟨[0x6B#8], ⟨[0x76#8], 100, 0#8, 9⟩⟩ :=
          mem_singleton.mp (mem_of_getElem? he)
        exact fun _ => ⟨rfl, by decide⟩⟩
  refine ⟨h0, ?_⟩
  have hk := hall (oneKey ⟨[0x76#8], 100, 0#8, 9⟩) (by rw [hsaved]; exact mem_cons_self) [0x6B#8]
  exact hk.trans (by decide)

/-! ### A snapshot longer than one read -/

/-- A value of 262000 bytes that does not expire. -/
def bulkRec : Rec := ⟨List.replicate 262000 0#8, 0, 0#8, 1⟩

/-- `n` keys, each with such a value. -/
def bulkTable (n : Nat) (hn : n ≤ 2 ^ 32) : Table where
  entries := (List.range n).map fun i => ⟨leBytes 4 i, bulkRec⟩
  nodupKeys := by
    have hinj : ((List.range n).map (leBytes 4)).Nodup := by
      refine List.Nodup.map_on ?_ List.nodup_range
      intro i hi j hj hij
      rw [List.mem_range] at hi hj
      have hi' : leNat (leBytes 4 i) = i := leNat_leBytes_of_lt (by norm_num; omega)
      have hj' : leNat (leBytes 4 j) = j := leNat_leBytes_of_lt (by norm_num; omega)
      rw [← hi', ← hj', hij]
    rw [List.NodupKeys, List.keys, List.map_map]
    exact hinj

/-- A durable collection of `n` such keys. -/
def bulkCollection (n : Nat) (hn : n ≤ 2 ^ 32) : Collection where
  name := [0x63#8]
  isLive := true
  durable := true
  table := bulkTable n hn
  draining := none

theorem length_snapshotFile_bulk (env : SaveEnv) (n : Nat) (hn : n ≤ 2 ^ 32) :
    n * 262030 ≤ (snapshotFile env [bulkCollection n hn]).length := by
  have hval : bulkRec.emitVal.length = 262000 := length_replicate
  have hrec : ∀ i, (entryBytes (walkClock env) (leBytes 4 i) bulkRec).length = 262030 := by
    intro i
    simp only [entryBytes, hval, length_append, length_leBytes]
  have hsaved : savedEntries env (bulkCollection n hn) = (bulkTable n hn).entries := by
    rw [savedEntries]
    refine filter_eq_self.mpr fun e he => ?_
    obtain ⟨i, -, rfl⟩ := mem_map.mp he
    rfl
  have htables : (tablesBytes env (bulkCollection n hn)).length = n * 262030 := by
    rw [tablesBytes_eq, hsaved, bulkTable, List.length_flatMap, List.map_map]
    simp only [Function.comp_def, hrec]
    simp
  have hcolls : collectionsBytes env [bulkCollection n hn] =
      collectionBytes env (bulkCollection n hn) := by
    rw [collectionsBytes, filter_singleton]
    exact append_nil _
  rw [snapshotFile_eq, hcolls, collectionBytes]
  simp only [length_append, htables]
  omega

/-- 8200 values of 262000 bytes: the snapshot is saved, and no `read()` within the
contract makes a load accept it. -/
theorem bulk_snapshot_refused :
    ∃ fuel file, rdbSave (fun _ => 65536) fuel ⟨true, true, true, true⟩ saveAt
        [bulkCollection 8200 (by decide)] = some ⟨0, some file⟩ ∧
      ∀ A clk ρ st, (rdbLoad A clk ρ file st).1 ≠ 0 := by
  refine ⟨_, snapshotFile saveAt [bulkCollection 8200 (by decide)],
    rdbSave_clear (fun _ => by decide) _ (lt_succ_self _), fun A clk ρ st => ?_⟩
  have hlong := length_snapshotFile_bulk saveAt 8200 (by decide)
  rw [rdbLoad_snapshotFile, if_neg (by unfold readMax; omega)]
  exact show (-1 : Int) ≠ 0 by decide

end Perfcached.Recover
