import Perfcached.Lib.Buffer
import Perfcached.Lib.Bytes
import Perfcached.Lib.Latest
import Perfcached.Lib.Machine

/-!
# Perfcached.RateLimit

The sliding-window rate limiter (`rl_hit_local` in `src/verbs.c`).

A key's record is `[1][0][0][0][n u32][n × u64]`: the times of its hits in milliseconds, the oldest
first. A hit drops the times that have fallen out of the window, and the oldest ones above the cap,
adds its own time and answers how many there are now. A reading of the clock behind the last hit's
time is moved forward to it.

Next to the record the model keeps the whole history of hits. What is stored is the latest part of
it (`Inv.value`), so the answers count the hits in the window (`hits_in_window`).

The words are those of the machine; the subtraction `now - window_ms` is signed and is taken not to
overflow (`InTime`). Events, the log and the copies to other nodes are left out.
-/

namespace Perfcached.RateLimit

open Bytes Buffer Latest Machine List Option Nat

def rlHdr : Nat := 8

def pcRlMax : Nat := 6000

def rlW64 (v : BitVec 64) : List Byte := leBytes 8 v.toNat

def rlR64 (p : List Byte) : BitVec 64 := BitVec.ofNat 64 (rd 8 p)

/-! ### The record -/

/-- A time of the record, as a `long long`. -/
def rlAt (old : List Byte) (i : Nat) : Int := (rlR64 (old.drop (rlHdr + 8 * i))).toInt

/-- How many times a record has: what its header says, or as many as there is room for. -/
def rlCount (old : List Byte) : Nat :=
  if rlHdr ≤ old.length ∧ old.head? = some 1 then
    min (rd 4 (old.drop 4)) ((old.length - rlHdr) / 8)
  else 0

/-- The loop over the times that are out of the window, from `first` with so many left. -/
def rlFirst (old : List Byte) (cut : Int) (first : Nat) : Nat → Nat
  | 0 => first
  | left + 1 => if rlAt old first ≤ cut then rlFirst old cut (first + 1) left else first

/-- The time of a hit on a record, the bytes that are kept and how many times they are. -/
def rlKeep (old : List Byte) (now window : Int) : Int × List Byte × Nat :=
  let n := rlCount old
  let now := if n ≠ 0 ∧ now < rlAt old (n - 1) then rlAt old (n - 1) else now
  let first := rlFirst old (now - window) 0 n
  let keep := n - first
  let excess := keep - (pcRlMax - 1)
  (now, slice old (rlHdr + 8 * (first + excess)) (8 * (keep - excess)), keep - excess)

/-- The record that is stored. -/
def rlBytes (keep : Nat) (kept : List Byte) (now : Int) : List Byte :=
  [1, 0, 0, 0] ++ leBytes 4 (keep + 1) ++ kept ++ rlW64 (BitVec.ofInt 64 now)

/-! ### A hit -/

/-- A value of the table, and whether it has the flag `PCACHE_F_RL`. -/
structure Value where
  bytes : List Byte
  rl : Bool
  deriving DecidableEq

/-- What can go wrong in a hit: no memory, or an error of the table. -/
inductive Fault where
  | malloc
  | fetch
  | store
  deriving DecidableEq

structure Hit where
  /-- `rl_now_ms`. -/
  reading : Int
  limit : Int
  fault : Option Fault

structure Answer where
  count : Nat
  allowed : Bool
  deriving DecidableEq

def pcJsonWrongtypeMsg : String := "Existing key has wrong Redis type"

/-- `rl_hit_local`. A value of another type is replaced, unless the collection is strict. -/
def rlHitLocal (strict : Bool) (window : Int) (v : Option Value) (h : Hit) :
    Except String Answer × Option Value :=
  if h.fault = some .malloc then (.error "out of memory", v)
  else if h.fault = some .fetch then (.error "get failed", v)
  else if strict = true ∧ v.any (fun x => !x.rl) = true then (.error pcJsonWrongtypeMsg, v)
  else
    let (now, kept, keep) :=
      match v.filter Value.rl with
      | some x => rlKeep x.bytes h.reading window
      | none => (h.reading, [], 0)
    if h.fault = some .store then (.error "store failed", v)
    else
      (.ok ⟨keep + 1, decide (h.limit ≤ 0 ∨ (keep + 1 : Int) ≤ h.limit)⟩,
        some ⟨rlBytes keep kept now, true⟩)

/-! ### The history of a key -/

/-- A hit that was answered. -/
structure Entry where
  time : Int
  limit : Int
  answer : Answer

structure State where
  value : Option Value
  log : List Entry

/-- The time of a hit: its reading, or the time of the hit before it if that is greater. -/
def State.timeOf (s : State) (reading : Int) : Int :=
  match s.log.getLast? with
  | none => reading
  | some e => max reading e.time

inductive Act where
  | hit (h : Hit)
  /-- The key expires, or is removed. -/
  | expire

def step (strict : Bool) (window : Int) (s : State) : Act → Option State
  | .hit h =>
    match rlHitLocal strict window s.value h with
    | (.ok answer, v) =>
      some { value := v, log := s.log ++ [⟨s.timeOf h.reading, h.limit, answer⟩] }
    | (.error _, v) => some { s with value := v }
  | .expire => some { s with value := none }

/-- A record is not gone while a hit is inside the window, and the times are those of a `long long`
that the window can be subtracted from. -/
def InTime (window : Int) (s : State) : Act → Prop
  | .hit h => (s.value = none → ∀ e ∈ s.log, e.time ≤ s.timeOf h.reading - window) ∧
      -2 ^ 63 ≤ h.reading - window ∧ h.reading < 2 ^ 63
  | .expire => True

instance decidableInTime (window : Int) (s : State) : DecidablePred (InTime window s) := fun a => by
  unfold InTime
  split <;> infer_instance

/-! ### Records of times -/

def rlWord (t : Int) : List Byte := rlW64 (BitVec.ofInt 64 t)

def rlEncode (ts : List Int) : List Byte :=
  [1, 0, 0, 0] ++ leBytes 4 ts.length ++ ts.flatMap rlWord

def rlTimes (old : List Byte) : List Int := (List.range (rlCount old)).map (rlAt old)

/-- The times fit their fields, and their number its own. -/
def Fits (ts : List Int) : Prop :=
  ts.length ≤ pcRlMax ∧ ∀ t ∈ ts, -2 ^ 63 ≤ t ∧ t < 2 ^ 63

theorem length_rlWord (t : Int) : (rlWord t).length = 8 := length_leBytes 8 _

theorem drop_rlEncode (ts : List Int) (i : Nat) :
    (rlEncode ts).drop (rlHdr + 8 * i) = (ts.drop i).flatMap rlWord := by
  rw [rlEncode, ← drop_drop, drop_left' (by simp [rlHdr]), drop_flatMap length_rlWord]

theorem length_rlEncode (ts : List Int) : (rlEncode ts).length = rlHdr + 8 * ts.length := by
  simp only [rlEncode, length_append, length_leBytes, length_flatMap length_rlWord]
  rfl

theorem rlR64_rlWord {t : Int} (h : -2 ^ 63 ≤ t ∧ t < 2 ^ 63) (q : List Byte) :
    (rlR64 (rlWord t ++ q)).toInt = t := by
  rw [rlR64, rlWord, rlW64, rd_append_of_lt (BitVec.isLt _), BitVec.ofNat_toNat, BitVec.setWidth_eq,
    BitVec.toInt_ofInt, Int.bmod_eq_of_le]
  · exact h.1
  · exact h.2

section
variable {ts : List Int} (hts : Fits ts)
include hts

theorem rlCount_rlEncode : rlCount (rlEncode ts) = ts.length := by
  have hlen := length_rlEncode ts
  have hn : rd 4 ((rlEncode ts).drop 4) = ts.length := by
    have hdrop : (rlEncode ts).drop 4 = leBytes 4 ts.length ++ ts.flatMap rlWord := by
      rw [rlEncode, append_assoc]
      rfl
    have hmax : ts.length ≤ 6000 := hts.1
    rw [hdrop, rd_append_of_lt (by omega)]
  rw [rlCount, if_pos ⟨by omega, rfl⟩, hn, hlen]
  omega

theorem rlAt_rlEncode {i : Nat} (hi : i < ts.length) : rlAt (rlEncode ts) i = ts[i] := by
  rw [rlAt, drop_rlEncode, drop_eq_getElem_cons hi, flatMap_cons,
    rlR64_rlWord (hts.2 _ (getElem_mem hi))]

theorem rlTimes_rlEncode : rlTimes (rlEncode ts) = ts := by
  rw [rlTimes, rlCount_rlEncode hts]
  refine ext_getElem (by simp) fun i hi hi' => ?_
  rw [getElem_map, getElem_range, rlAt_rlEncode hts hi']

/-- The loop stops at the first time inside the window. -/
theorem drop_rlFirst (cut : Int) {first left : Nat} (hn : first + left = ts.length) :
    rlFirst (rlEncode ts) cut first left ≤ ts.length ∧
      ts.drop (rlFirst (rlEncode ts) cut first left) = (ts.drop first).dropWhile (· ≤ cut) := by
  induction left generalizing first with
  | zero =>
    rw [rlFirst, drop_of_length_le (by omega)]
    exact ⟨by omega, rfl⟩
  | succ left ih =>
    have hfirst : first < ts.length := by omega
    rw [rlFirst, rlAt_rlEncode hts hfirst, drop_eq_getElem_cons hfirst]
    split
    · next hcut =>
        rw [dropWhile_cons_of_pos (by simpa using hcut)]
        exact ih (by omega)
    · next hcut =>
        rw [dropWhile_cons_of_neg (by simpa using hcut), ← drop_eq_getElem_cons hfirst]
        exact ⟨by omega, rfl⟩

theorem rlKeep_rlEncode (hsort : ts.Pairwise (· ≤ ·)) {last : Int} (hlast : ts.getLast? = some last)
    (reading window : Int) :
    rlKeep (rlEncode ts) reading window = (max reading last,
        ((ts.filter (max reading last - window < ·)).rtake (pcRlMax - 1)).flatMap rlWord,
        ((ts.filter (max reading last - window < ·)).rtake (pcRlMax - 1)).length) := by
  have hpos : ts ≠ [] := by
    rintro rfl
    cases hlast
  have hlen : 0 < ts.length := length_pos_iff.mpr hpos
  have hat : rlAt (rlEncode ts) (ts.length - 1) = last := by
    rw [rlAt_rlEncode hts (by omega), ← getLast_eq_getElem hpos]
    rw [getLast?_eq_some_getLast hpos] at hlast
    exact some.inj hlast
  have hnow : (if ts.length ≠ 0 ∧ reading < last then last else reading) = max reading last := by
    split <;> omega
  rw [rlKeep, rlCount_rlEncode hts, hat, hnow]
  obtain ⟨hle, hdrop⟩ := drop_rlFirst hts (max reading last - window) (zero_add ts.length)
  rw [drop_zero, ← filter_eq_dropWhile hsort] at hdrop
  generalize rlFirst (rlEncode ts) (max reading last - window) 0 ts.length = first at hle hdrop ⊢
  have hkept : (ts.filter (max reading last - window < ·)).rtake (pcRlMax - 1) =
      ts.drop (first + (ts.length - first - (pcRlMax - 1))) := by
    rw [← hdrop, rtake, drop_drop, length_drop]
  generalize ts.length - first - (pcRlMax - 1) = excess at hkept ⊢
  rw [hkept, slice, drop_rlEncode, length_drop, Nat.sub_sub, take_of_length_le]
  rw [length_flatMap length_rlWord, length_drop]

end

theorem rlBytes_eq (ts : List Int) (now : Int) :
    rlBytes ts.length (ts.flatMap rlWord) now = rlEncode (ts ++ [now]) := by
  rw [rlBytes, rlEncode, length_append, flatMap_append, flatMap_singleton, append_assoc]
  rfl

/-! ### The invariant -/

def State.times (s : State) : List Int := s.log.map Entry.time

/-- How many of the earlier hits are inside the window of a hit at `time`. -/
def inside (window time : Int) (earlier : List Entry) : Nat :=
  earlier.countP fun e => time - window < e.time

/-- The answer to a hit after the earlier ones. -/
structure Entry.Exact (window : Int) (earlier : List Entry) (e : Entry) : Prop where
  count : e.answer.count = min pcRlMax (1 + inside window e.time earlier)
  allowed : e.answer.allowed = decide (e.limit ≤ 0 ∨ (e.answer.count : Int) ≤ e.limit)

/-- A record holds the latest times of the history; a value of another type has none. -/
def Holds (window : Int) (times : List Int) (x : Value) : Prop :=
  if x.rl = true then
    ∃ last, times.getLast? = some last ∧ x.bytes = rlEncode (latest pcRlMax (last - window) times)
  else times = []

structure Inv (window : Int) (s : State) : Prop where
  sorted : s.times.Pairwise (· ≤ ·)
  range : ∀ t ∈ s.times, -2 ^ 63 ≤ t - window ∧ t < 2 ^ 63
  value : ∀ x ∈ s.value, Holds window s.times x
  exact : ∀ (i : Nat) (e : Entry), s.log[i]? = some e → e.Exact window (s.log.take i)

section
variable {window : Int} {s : State}

theorem inside_eq (time : Int) : inside window time s.log = s.times.countP (time - window < ·) := by
  rw [State.times, countP_map]
  rfl

theorem timeOf_eq (s : State) (reading : Int) :
    s.timeOf reading = (s.times.getLast?).elim reading (max reading) := by
  rw [State.timeOf, State.times, getLast?_map]
  cases s.log.getLast? <;> rfl

theorem le_timeOf (h : s.times.Pairwise (· ≤ ·)) (reading : Int) :
    ∀ t ∈ s.times, t ≤ s.timeOf reading := by
  intro t ht
  rw [timeOf_eq]
  obtain ⟨l, last, hl⟩ := (eq_nil_or_concat s.times).resolve_left (ne_nil_of_mem ht)
  rw [hl, concat_eq_append] at h ht ⊢
  rw [getLast?_concat]
  have hle : t ≤ last := by
    rcases mem_append.mp ht with ht | ht
    · exact (pairwise_append.mp h).2.2 t ht last mem_cons_self
    · exact Int.le_of_eq (mem_singleton.mp ht)
  exact le_max_of_le_right hle

theorem fits_latest (hw : 0 < window) (h : ∀ t ∈ s.times, -2 ^ 63 ≤ t - window ∧ t < 2 ^ 63)
    (c : Int) : Fits (latest pcRlMax c s.times) := by
  refine ⟨?_, fun t ht => ?_⟩
  · rw [length_latest]
    exact min_le_left _ _
  · have := h t (mem_of_mem_latest ht)
    omega

/-- Where no earlier hit is inside the window, a hit has the time of its reading and keeps none. -/
theorem kept_nil (hw : 0 < window) {reading : Int}
    (hout : ∀ t ∈ s.times, t ≤ s.timeOf reading - window) :
    s.timeOf reading = reading ∧ latest (pcRlMax - 1) (s.timeOf reading - window) s.times = [] := by
  refine ⟨?_, latest_eq_nil hout _⟩
  rw [timeOf_eq] at hout ⊢
  cases hlast : s.times.getLast? with
  | none => rfl
  | some last =>
    have hle := hout last (mem_of_getLast? hlast)
    rw [hlast] at hle
    simp only [Option.elim] at hle ⊢
    omega

/-- A hit has the time of the history, and keeps the latest of its times. -/
theorem kept_eq (hw : 0 < window) (h : Inv window s) {hit : Hit}
    (hok : InTime window s (.hit hit)) :
    (match s.value.filter Value.rl with
      | some x => rlKeep x.bytes hit.reading window
      | none => (hit.reading, [], 0)) =
      (s.timeOf hit.reading,
        (latest (pcRlMax - 1) (s.timeOf hit.reading - window) s.times).flatMap rlWord,
        (latest (pcRlMax - 1) (s.timeOf hit.reading - window) s.times).length) := by
  cases hv : s.value with
  | none =>
    have hout : ∀ t ∈ s.times, t ≤ s.timeOf hit.reading - window := by
      intro t ht
      obtain ⟨e, he, rfl⟩ := mem_map.mp ht
      exact hok.1 hv e he
    obtain ⟨htime, hnil⟩ := kept_nil hw hout
    rw [hnil, htime]
    rfl
  | some x =>
    have hx := h.value x hv
    unfold Holds at hx
    split at hx
    · next hrl =>
        obtain ⟨last, hlast, hbytes⟩ := hx
        have htime : s.timeOf hit.reading = max hit.reading last := by
          rw [timeOf_eq, hlast]
          rfl
        have hlast' : (latest pcRlMax (last - window) s.times).getLast? = some last := by
          obtain ⟨l, hl⟩ := getLast?_eq_some_iff.mp hlast
          rw [hl, show pcRlMax = pcRlMax - 1 + 1 from rfl, latest_concat (by omega),
            getLast?_concat]
        rw [filter_some_pos hrl, htime]
        dsimp only
        rw [hbytes, rlKeep_rlEncode (fits_latest hw h.range _) (pairwise_latest h.sorted _ _)
          hlast', filter_latest h.sorted (by omega), rtake_latest (by decide)]
    · next hrl =>
        have hout : ∀ t ∈ s.times, t ≤ s.timeOf hit.reading - window := by
          rw [hx]
          intro t ht
          cases ht
        obtain ⟨htime, hnil⟩ := kept_nil hw hout
        rw [filter_some_neg (Bool.eq_false_iff.mpr hrl), hnil, htime]
        rfl

/-- A hit is refused and nothing has changed, or it is answered with the hits in the window and the
latest times are stored. -/
theorem rlHitLocal_cases (hw : 0 < window) (h : Inv window s) (strict : Bool) {hit : Hit}
    (hok : InTime window s (.hit hit)) :
    (∃ msg, rlHitLocal strict window s.value hit = (.error msg, s.value)) ∨
      ∃ answer, rlHitLocal strict window s.value hit =
          (.ok answer, some ⟨rlEncode (latest pcRlMax (s.timeOf hit.reading - window)
            (s.times ++ [s.timeOf hit.reading])), true⟩) ∧
        Entry.Exact window s.log ⟨s.timeOf hit.reading, hit.limit, answer⟩ := by
  have hkept := kept_eq hw h hok
  unfold rlHitLocal
  split
  · exact .inl ⟨_, rfl⟩
  · split
    · exact .inl ⟨_, rfl⟩
    · split
      · exact .inl ⟨_, rfl⟩
      · rw [hkept]
        dsimp only
        split
        · exact .inl ⟨_, rfl⟩
        · have hin : s.timeOf hit.reading - window < s.timeOf hit.reading := by omega
          rw [rlBytes_eq, ← latest_concat hin]
          refine .inr ⟨_, rfl, ⟨?_, rfl⟩⟩
          dsimp only
          rw [length_latest, inside_eq]
          change min 5999 _ + 1 = min 6000 (1 + _)
          omega

theorem Inv.hit (h : Inv window s) {hit : Hit} (hok : InTime window s (.hit hit))
    {answer : Answer}
    (hexact : Entry.Exact window s.log ⟨s.timeOf hit.reading, hit.limit, answer⟩) :
    Inv window
      { value := some ⟨rlEncode (latest pcRlMax (s.timeOf hit.reading - window)
          (s.times ++ [s.timeOf hit.reading])), true⟩
        log := s.log ++ [⟨s.timeOf hit.reading, hit.limit, answer⟩] } := by
  have htimes : State.times
      { value := some ⟨rlEncode (latest pcRlMax (s.timeOf hit.reading - window)
          (s.times ++ [s.timeOf hit.reading])), true⟩
        log := s.log ++ [⟨s.timeOf hit.reading, hit.limit, answer⟩] } =
      s.times ++ [s.timeOf hit.reading] := by
    rw [State.times, map_append]
    rfl
  refine ⟨?_, ?_, ?_, ?_⟩
  · rw [htimes, pairwise_append]
    refine ⟨h.sorted, pairwise_singleton _ _, fun t ht t' ht' => ?_⟩
    rw [mem_singleton.mp ht']
    exact le_timeOf h.sorted hit.reading t ht
  · rw [htimes]
    intro t ht
    rcases mem_append.mp ht with ht | ht
    · exact h.range t ht
    · rw [mem_singleton.mp ht, timeOf_eq]
      cases hlast : s.times.getLast? with
      | none => exact hok.2
      | some last =>
        have hrange := h.range last (mem_of_getLast? hlast)
        have hreading := hok.2
        simp only [Option.elim]
        omega
  · intro x hx
    cases hx
    rw [htimes]
    exact ⟨_, getLast?_concat, rfl⟩
  · intro i e hi
    -- the answers before were exact, and the new one is
    rcases lt_trichotomy i s.log.length with hlt | heq | hgt
    · rw [getElem?_append_left hlt] at hi
      rw [take_append_of_le_length (le_of_lt hlt)]
      exact h.exact i e hi
    · subst heq
      rw [getElem?_concat_length] at hi
      cases hi
      rw [take_left]
      exact hexact
    · rw [getElem?_eq_none (by simpa using succ_le_of_lt hgt)] at hi
      cases hi

theorem Inv.step (hw : 0 < window) (h : Inv window s) {strict : Bool} {a : Act} {s' : State}
    (hok : InTime window s a) (hstep : step strict window s a = some s') : Inv window s' := by
  cases a with
  | hit hit =>
    unfold RateLimit.step at hstep
    dsimp only at hstep
    rcases rlHitLocal_cases hw h strict hok with ⟨msg, heq⟩ | ⟨answer, heq, hexact⟩
    · rw [heq] at hstep
      cases hstep
      exact h
    · rw [heq] at hstep
      cases hstep
      exact h.hit hok hexact
  | expire =>
    cases hstep
    exact ⟨h.sorted, h.range, nofun, h.exact⟩

end

/-! ### Spans -/

/-- The allowed hits of a span of the window's length, which is open at its start. -/
def allowedIn (window start : Int) (log : List Entry) : Nat :=
  log.countP fun e => e.answer.allowed && decide (start < e.time ∧ e.time ≤ start + window)

/-- Of the last allowed hit of the span, the others are inside the window. -/
theorem allowedIn_le {window limit : Int} (hpos : 0 < limit) (hmax : limit < pcRlMax) (start : Int)
    {log : List Entry} (hlimit : ∀ e ∈ log, e.limit = limit)
    (h : ∀ (i : Nat) (e : Entry), log[i]? = some e → e.Exact window (log.take i)) :
    (allowedIn window start log : Int) ≤ limit := by
  induction log using reverseRecOn with
  | nil => exact Int.le_of_lt hpos
  | append_singleton log e ih =>
    have hlog : (allowedIn window start log : Int) ≤ limit := by
      refine ih (fun e' he' => hlimit e' (mem_append_left _ he')) fun i e' hi => ?_
      have hlt : i < log.length := (List.getElem?_eq_some_iff.mp hi).1
      have hexact := h i e' (by rw [getElem?_append_left hlt, hi])
      rwa [take_append_of_le_length (le_of_lt hlt)] at hexact
    unfold allowedIn at hlog ⊢
    rw [countP_append, countP_singleton]
    split
    · next hin =>
        rw [Bool.and_eq_true, decide_eq_true_eq] at hin
        obtain ⟨hallowed, -, hend⟩ := hin
        have hexact := h log.length e getElem?_concat_length
        rw [take_left] at hexact
        have hle : log.countP (fun e' => e'.answer.allowed &&
            decide (start < e'.time ∧ e'.time ≤ start + window)) ≤ inside window e.time log := by
          refine countP_mono_left fun e' _ he' => ?_
          rw [Bool.and_eq_true, decide_eq_true_eq] at he'
          exact decide_eq_true (by omega)
        have hcount := hexact.count
        rw [hexact.allowed, decide_eq_true_eq, hlimit e (by simp)] at hallowed
        have hmax' : limit < 6000 := hmax
        omega
    · exact hlog

/-- The limiter counts the hits of the sliding window, stores their times in order and up to the
cap, and allows no more than the limit in a span of the window's length. -/
theorem hits_in_window {window : Int} (hw : 0 < window) (strict : Bool) {v : Option Value}
    (hv : ∀ x ∈ v, x.rl = false) {acts : List Act} {s : State}
    (hok : Along (step strict window) (InTime window) ⟨v, []⟩ acts)
    (hrun : run (step strict window) ⟨v, []⟩ acts = some s) :
    (∀ (i : Nat) (e : Entry), s.log[i]? = some e →
      e.answer.count = min pcRlMax (1 + inside window e.time (s.log.take i))) ∧
    (∀ x ∈ s.value, x.rl = true →
      (rlTimes x.bytes).Pairwise (· ≤ ·) ∧ (rlTimes x.bytes).length ≤ pcRlMax) ∧
    ∀ limit : Int, 0 < limit → limit < pcRlMax → (∀ e ∈ s.log, e.limit = limit) →
      ∀ start : Int, (allowedIn window start s.log : Int) ≤ limit := by
  have hboot : Inv window ⟨v, []⟩ := by
    refine ⟨Pairwise.nil, nofun, fun x hx => ?_, nofun⟩
    rw [Holds, if_neg (by simp [hv x hx])]
    rfl
  have hinv : Inv window s := run_invariant (fun _ _ _ h hok => h.step hw hok) hboot hok hrun
  refine ⟨fun i e hi => (hinv.exact i e hi).count, fun x hx hrl => ?_, ?_⟩
  · have hx' := hinv.value x hx
    rw [Holds, if_pos hrl] at hx'
    obtain ⟨last, -, hbytes⟩ := hx'
    have hfits := fits_latest hw hinv.range (last - window)
    rw [hbytes, rlTimes_rlEncode hfits]
    exact ⟨pairwise_latest hinv.sorted _ _, hfits.1⟩
  · intro limit hpos hmax hlimit start
    exact allowedIn_le hpos hmax start hlimit hinv.exact

/-- Four hits with a limit of 2: the third is over it, though the clock has gone back. -/
def fourHits : List Act :=
  [.hit ⟨1005, 2, none⟩, .hit ⟨1012, 2, none⟩, .hit ⟨1003, 2, none⟩, .hit ⟨1030, 2, none⟩]

def afterFour : State := (run (step true 10) ⟨none, []⟩ fourHits).getD ⟨none, []⟩

theorem hits_in_window_four :
    afterFour.log.map (fun e => (e.time, e.answer.count, e.answer.allowed)) =
      [(1005, 1, true), (1012, 2, true), (1012, 3, false), (1030, 1, true)] ∧
      (allowedIn 10 1002 afterFour.log : Int) ≤ 2 :=
  ⟨by decide +kernel, (hits_in_window (by decide) true (by simp) (by decide +kernel) (show
    run (step true 10) ⟨none, []⟩ fourHits = some afterFour by rfl)).2.2 2 (by decide) (by decide)
      (by decide +kernel) 1002⟩

end Perfcached.RateLimit
