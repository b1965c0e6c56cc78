import Perfcached.Store.Table
import Perfcached.Lib.Slots
import Perfcached.Lib.Greatest
import Perfcached.Hash.Record

/-!
# Perfcached.Lock.Slock

The lock scripts (`src/verbs.c`): a lock is one value, the members with their expiries in
milliseconds. A member is a holder's token or `__write__`; a script trims, looks and edits the
array of members, and the new array is stored with the latest member's expiry in whole seconds.

A record that is written is read back (`lkParse_lkBytes`), so what a script leaves is the array it
edited.
-/

namespace Perfcached.Lock

open Bytes Buffer List

/-! ### The members -/

def lkHdr : Nat := 8
def lkMax : Nat := 1024
def lkTokMax : Nat := 4096

/-- `struct lk_m`. -/
structure LkM where
  exp : Nat
  tok : List Byte
deriving DecidableEq

/-- The loop of `lk_parse`: `i` members more, from `o` on, and where they end. -/
def parseLoop (r : List Byte) : Nat → Nat → Option (List LkM × Nat)
  | 0, o => some ([], o)
  | i + 1, o =>
    if r.length - o < 10 then none
    else
      let l := rd 2 (r.drop (o + 8))
      if r.length - o - 10 < l then none
      else
        match parseLoop r i (o + 10 + l) with
        | none => none
        | some (m, stop) => some (⟨rd 8 (r.drop o), slice r (o + 10) l⟩ :: m, stop)

def lkParse (r : List Byte) : Option (List LkM) :=
  if r.length < lkHdr ∨ r.head? ≠ some 1 then none
  else
    let cnt := rd 4 (r.drop 4)
    if cnt > lkMax then none
    else
      match parseLoop r cnt lkHdr with
      | none => none
      | some (m, o) => if o = r.length then some m else none

def lkFind (m : List LkM) (t : List Byte) : Option LkM := Slots.find LkM.tok t m

/-- `lk_set`; nothing when the array is full. -/
def lkSet (m : List LkM) (t : List Byte) (exp : Nat) : Option (List LkM) :=
  match lkFind m t with
  | some _ => some (Slots.update LkM.tok t (fun x => { x with exp }) m)
  | none => if m.length ≥ lkMax then none else some (m ++ [⟨exp, t⟩])

def lkRem (m : List LkM) (t : List Byte) : List LkM := Slots.remove LkM.tok t m

/-- `lk_trim`, and whether anything went. -/
def lkTrim (m : List LkM) (now : Nat) : List LkM × Bool :=
  let m' := Slots.sweep (fun x => decide (x.exp ≤ now)) m.length 0 m
  (m', decide (m'.length ≠ m.length))

def lkWrite : List Byte := chars "__write__"

/-! ### The scripts -/

/-- `PC_SLOCK_*`. -/
inductive Script
  | probe
  | save
  | read
  | refresh
  | release
  | held
  | unknown
  deriving DecidableEq

/-- The scripts that trim first. -/
def Script.trims : Script → Bool
  | .save | .read | .held => true
  | _ => false

/-- The array after a script, whether it is to be stored and what the script answers. `held` is
`PC_SLOCK_EXISTS`. -/
def lkEdit (script : Script) (now exp : Nat) (tok : List Byte) (m : List LkM) :
    List LkM × Bool × Bool :=
  let (m, changed) := if script.trims then lkTrim m now else (m, false)
  let ti := lkFind m tok
  let wi := lkFind m lkWrite
  match script with
  | .save =>
    if (if ti.isSome then wi.isNone ∧ m.length > 1 else m.length > 0) then (m, changed, false)
    else
      match lkSet m tok exp with
      | none => (m, changed, false)
      | some m =>
        match lkSet m lkWrite exp with
        | none => (m, changed, false)
        | some m => (m, true, true)
  | .read =>
    if ti.isNone ∧ wi.isSome then (m, changed, false)
    else
      match lkSet m tok exp with
      | none => (m, changed, false)
      | some m => (lkRem m lkWrite, true, true)
  | .refresh =>
    if ti.isNone then (m, changed, false)
    else
      let m := Slots.update LkM.tok tok (fun x => { x with exp }) m
      let m := if wi.isSome then Slots.update LkM.tok lkWrite (fun x => { x with exp }) m else m
      (m, true, true)
  | .release =>
    if ti.isNone then (m, changed, false) else (lkRem (lkRem m tok) lkWrite, true, true)
  | .held => (m, changed, ti.isSome)
  | .probe | .unknown => (m, changed, false)

def lkEncode (x : LkM) : List Byte := leBytes 8 x.exp ++ leBytes 2 x.tok.length ++ x.tok

def lkBytes (m : List LkM) : List Byte :=
  [1, 0, 0, 0] ++ leBytes 2 m.length ++ [0, 0] ++ m.flatMap lkEncode

def latest (m : List LkM) : Nat := m.foldl (fun a x => if x.exp > a then x.exp else a) 0

/-- `ttl_to_abs`: a 32-bit tick. -/
def ttlToAbs (ticks : Nat) (ttl : Int) : Nat :=
  if ttl ≤ 0 then 0 else (ticks + ttl.toNat % 2 ^ 32) % 2 ^ 32

/-- `PCACHE_F_LOCK`. -/
def fLock : Byte := 0x20#8

/-- What a call meets: the clocks, and the failures around it. -/
structure Env where
  wall : Nat
  ticks : Nat
  noBuffer : Bool
  fetchFails : Bool
  storeFails : Bool

/-- What a call does to the key. -/
inductive Effect
  | keep
  | drop
  | store (val : List Byte) (expires : Nat)
  deriving DecidableEq

/-- The end of `slock_local`: the array goes back to the table. -/
def slockStore (e : Env) (there : Bool) (m : List LkM) (changed res : Bool) :
    Except String Bool × Effect :=
  if changed = true ∧ there = true ∧ m.length = 0 then (.ok res, .drop)
  else if changed = true ∧ m.length > 0 then
    if latest m ≤ e.wall then (.ok res, if there then .drop else .keep)
    else
      let newexp := ttlToAbs e.ticks (((latest m - e.wall + 999) % 2 ^ 64 / 1000 : Nat) : Int)
      if (lkBytes m).length > Hash.pcHrMax then (.error "lock record full", .keep)
      else if e.storeFails then (.error "store failed", .keep)
      else (.ok res, .store (lkBytes m) newexp)
  else (.ok res, .keep)

/-- `slock_local`; `fetched` is what the table answers for the key. -/
def slockLocal (e : Env) (fetched : Option Rec) (script : Script) (nowArg ttlMs : Int)
    (tok : List Byte) : Except String Bool × Effect :=
  if script = .probe then (.ok true, .keep)
  else if e.noBuffer then (.error "out of memory", .keep)
  else if tok.length > lkTokMax then (.error "lock token too long", .keep)
  else
    let now := if nowArg ≥ 0 then nowArg.toNat else e.wall
    let exp := ((now + ttlMs) % 2 ^ 64).toNat
    if e.fetchFails then (.error "get failed", .keep)
    else
      match fetched with
      | some rec =>
        if rec.rflags &&& fTypes = 0 then (.ok false, .keep)
        else if rec.rflags &&& fLock = 0 then (.error "Existing key has wrong Redis type", .keep)
        else
          match lkParse rec.val with
          | none => (.error "corrupt lock record", .keep)
          | some m =>
            if script = .unknown then (.error "unknown lock script", .keep)
            else
              let (m, changed, res) := lkEdit script now exp tok m
              slockStore e true m changed res
      | none =>
        if script = .unknown then (.error "unknown lock script", .keep)
        else
          let (m, changed, res) := lkEdit script now exp tok []
          slockStore e false m changed res

/-! ### The record read back -/

/-- A member whose fields fit the record. -/
def Small (x : LkM) : Prop := x.exp < 2 ^ 64 ∧ x.tok.length < 2 ^ 16

/-- Members that fit the record, and no more than it has room for; a token may come twice. -/
structure Packed (m : List LkM) : Prop where
  small : ∀ x ∈ m, Small x
  len : m.length ≤ lkMax

theorem length_lkEncode (x : LkM) : (lkEncode x).length = 10 + x.tok.length := by
  simp only [lkEncode, length_append, length_leBytes]

variable {m : List LkM}

/-- The loop reads the members back. -/
theorem parseLoop_members (hm : ∀ x ∈ m, Small x) (a : List Byte) :
    parseLoop (a ++ m.flatMap lkEncode) m.length a.length =
      some (m, (a ++ m.flatMap lkEncode).length) := by
  induction m generalizing a with
  | nil => simp [parseLoop]
  | cons x m ih =>
    obtain ⟨hexp, htok⟩ := hm x mem_cons_self
    have hlen := length_lkEncode x
    have hsplit : a ++ (x :: m).flatMap lkEncode = a ++ lkEncode x ++ m.flatMap lkEncode := by
      rw [flatMap_cons, append_assoc]
    have hall : (a ++ lkEncode x ++ m.flatMap lkEncode).length =
        a.length + (10 + x.tok.length) + (m.flatMap lkEncode).length := by
      rw [length_append, length_append, hlen]
    have hexp' : rd 8 ((a ++ lkEncode x ++ m.flatMap lkEncode).drop a.length) = x.exp := by
      rw [append_assoc, drop_left, lkEncode]
      exact rd_append_of_lt hexp _
    have hlen' : rd 2 ((a ++ lkEncode x ++ m.flatMap lkEncode).drop (a.length + 8)) =
        x.tok.length := by
      rw [append_assoc, drop_length_add_append, lkEncode]
      simp only [append_assoc]
      rw [drop_left' (length_leBytes 8 _)]
      exact rd_append_of_lt htok _
    have htok' : slice (a ++ lkEncode x ++ m.flatMap lkEncode) (a.length + 10) x.tok.length =
        x.tok := by
      have hparts : a ++ lkEncode x ++ m.flatMap lkEncode =
          (a ++ (leBytes 8 x.exp ++ leBytes 2 x.tok.length)) ++ x.tok ++ m.flatMap lkEncode := by
        simp only [lkEncode, append_assoc]
      rw [hparts]
      exact slice_append (by simp) rfl
    have hnext : a.length + 10 + x.tok.length = (a ++ lkEncode x).length := by
      rw [length_append, hlen]
      omega
    rw [hsplit, length_cons, parseLoop, if_neg (by omega)]
    simp only [hexp', hlen', htok']
    rw [if_neg (by omega), hnext, ih fun y hy => hm y (mem_cons_of_mem _ hy)]

/-- **The record of an array is read back.** -/
theorem lkParse_lkBytes (hm : Packed m) : lkParse (lkBytes m) = some m := by
  have hmax := hm.len
  have hhdr : ([1, 0, 0, 0] ++ leBytes 2 m.length ++ [0, 0]).length = lkHdr := by simp [lkHdr]
  have hcnt : rd 4 ((lkBytes m).drop 4) = m.length := by
    have hfour : leBytes 2 m.length ++ [0, 0] = leBytes 4 m.length := by
      rw [show (4 : Nat) = 2 + 2 from rfl, leBytes_add, Nat.div_eq_of_lt (by
        simp only [lkMax] at hmax; omega)]
      rfl
    have hdrop : (lkBytes m).drop 4 = leBytes 4 m.length ++ m.flatMap lkEncode := by
      rw [← hfour, lkBytes]
      rfl
    rw [hdrop]
    exact rd_append_of_lt (by simp only [lkMax] at hmax; omega) _
  have hloop := parseLoop_members hm.small ([1, 0, 0, 0] ++ leBytes 2 m.length ++ [0, 0])
  rw [hhdr] at hloop
  rw [lkParse, if_neg]
  · simp only [hcnt]
    rw [if_neg (by omega), lkBytes, hloop]
    exact if_pos rfl
  · rintro (hshort | hone)
    · rw [lkBytes, length_append, hhdr] at hshort
      omega
    · exact hone rfl

theorem parseLoop_small {r : List Byte} {i o stop : Nat} (h : parseLoop r i o = some (m, stop)) :
    (∀ x ∈ m, Small x) ∧ m.length = i := by
  induction i generalizing o stop m with
  | zero =>
    obtain ⟨rfl, -⟩ := h
    exact ⟨by simp, rfl⟩
  | succ i ih =>
    simp only [parseLoop, Option.ite_none_left_eq_some] at h
    obtain ⟨-, -, h⟩ := h
    split at h
    · cases h
    · rename_i m' stop' hrest
      cases h
      obtain ⟨hsmall, hlen⟩ := ih hrest
      refine ⟨forall_mem_cons.mpr ⟨⟨rd_lt 8 _, ?_⟩, hsmall⟩, by rw [length_cons, hlen]⟩
      exact lt_of_le_of_lt (length_take_le _ _) (rd_lt 2 _)

theorem lkParse_packed {r : List Byte} (h : lkParse r = some m) : Packed m := by
  simp only [lkParse, Option.ite_none_left_eq_some] at h
  obtain ⟨-, hcnt, h⟩ := h
  split at h
  · cases h
  · rename_i m' o hloop
    rw [Option.ite_none_right_eq_some, Option.some.injEq] at h
    obtain ⟨-, rfl⟩ := h
    obtain ⟨hsmall, hlen⟩ := parseLoop_small hloop
    exact ⟨hsmall, by omega⟩

theorem latest_eq (m : List LkM) : latest m = m.foldl (fun a x => max a x.exp) 0 := by
  have hmax : (fun a (x : LkM) => if x.exp > a then x.exp else a) = fun a x => max a x.exp := by
    funext a x
    split <;> omega
  rw [latest, hmax]

open LkM

theorem le_latest {x : LkM} (hx : x ∈ m) : x.exp ≤ latest m := by
  rw [latest_eq]
  exact (Greatest.le_foldl_max_iff exp m 0 x.exp).mpr (.inr ⟨x, hx, le_rfl⟩)

/-! ### The arrays of a lock -/

/-- An array as the scripts leave it: no token twice, every member fits the record. -/
structure Members (m : List LkM) : Prop where
  nodup : (m.map LkM.tok).Nodup
  small : ∀ x ∈ m, Small x
  len : m.length ≤ lkMax

def expOf (m : List LkM) (t : List Byte) : Option Nat := (lkFind m t).map LkM.exp

theorem isSome_lkFind (m : List LkM) (t : List Byte) :
    (lkFind m t).isSome = (expOf m t).isSome := by
  rw [expOf, Option.isSome_map]

open Slots

theorem expOf_of_mem (hm : Members m) {x : LkM} (hx : x ∈ m) : expOf m x.tok = some x.exp := by
  rw [expOf, lkFind, find_of_mem hm.nodup hx, Option.map_some]

theorem mem_of_expOf {t : List Byte} {e : Nat} (h : expOf m t = some e) : ⟨e, t⟩ ∈ m := by
  obtain ⟨x, hx, rfl⟩ := Option.map_eq_some_iff.mp h
  obtain ⟨hmem, rfl⟩ := mem_of_find hx
  exact hmem

theorem Members.nil : Members [] := ⟨nodup_nil, by simp, Nat.zero_le _⟩

theorem Members.packed (hm : Members m) : Packed m := ⟨hm.small, hm.len⟩

theorem Packed.members (hm : Packed m) (hnd : (m.map tok).Nodup) : Members m :=
  ⟨hnd, hm.small, hm.len⟩

section Edits

variable {m m' : List LkM} {t : List Byte} {e : Nat}

theorem toks_update (m : List LkM) (t : List Byte) (e : Nat) :
    (update tok t (fun x => { x with exp := e }) m).map tok = m.map tok :=
  keys_update fun _ hx => hx

theorem packed_update (hm : Packed m) (he : e < 2 ^ 64) :
    Packed (update tok t (fun x => { x with exp := e }) m) := by
  refine ⟨fun x hx => ?_, ?_⟩
  · rcases mem_or_of_mem_update hx with hx | ⟨y, hy, rfl⟩
    · exact hm.small x hx
    · exact ⟨he, (hm.small y hy).2⟩
  · rw [← length_map tok, toks_update, length_map]
    exact hm.len

theorem packed_lkSet (hm : Packed m) (he : e < 2 ^ 64) (ht : t.length < 2 ^ 16)
    (h : lkSet m t e = some m') : Packed m' := by
  rw [lkSet] at h
  split at h
  · cases h
    exact packed_update hm he
  · rw [Option.ite_none_left_eq_some, Option.some.injEq] at h
    obtain ⟨hroom, rfl⟩ := h
    refine ⟨fun x hx => ?_, ?_⟩
    · rcases mem_append.mp hx with hx | hx
      · exact hm.small x hx
      · obtain rfl := mem_singleton.mp hx
        exact ⟨he, ht⟩
    · rw [length_append, length_singleton]
      omega

theorem packed_lkRem (hm : Packed m) : Packed (lkRem m t) := by
  rcases @Slots.remove_cases _ _ _ tok t m with ⟨-, heq⟩ | ⟨a, x, b, rfl, -, hperm⟩
  · rwa [lkRem, heq]
  · have hlen := hm.len
    rw [length_append, length_cons] at hlen
    refine ⟨fun y hy => hm.small y ?_, ?_⟩
    · exact mem_append.mpr ((mem_append.mp (hperm.mem_iff.mp hy)).imp_right (mem_cons_of_mem x))
    · rw [lkRem, hperm.length_eq, length_append]
      omega

theorem lkTrim_perm (m : List LkM) (now : Nat) :
    (lkTrim m now).1.Perm (m.filter fun x => decide (now < x.exp)) := by
  refine (sweep_perm _ m).trans (Perm.of_eq (filter_congr fun x _ => ?_))
  rw [← decide_not]
  exact decide_eq_decide.mpr not_le

theorem packed_lkTrim (hm : Packed m) (now : Nat) : Packed (lkTrim m now).1 := by
  have hperm := lkTrim_perm m now
  refine ⟨fun x hx => hm.small x (mem_of_mem_filter (hperm.mem_iff.mp hx)), ?_⟩
  rw [hperm.length_eq]
  exact le_trans (length_filter_le _ _) hm.len

theorem members_update (hm : Members m) (he : e < 2 ^ 64) :
    Members (update tok t (fun x => { x with exp := e }) m) :=
  (packed_update hm.packed he).members (by rw [toks_update]; exact hm.nodup)

theorem expOf_update (u : List Byte) (h : (expOf m t).isSome = true) :
    expOf (update tok t (fun x => { x with exp := e }) m) u =
      if u = t then some e else expOf m u := by
  have hfind : find tok u (update tok t (fun x => { x with exp := e }) m) =
      if u = t then (find tok u m).map (fun x => { x with exp := e })
      else find tok u m := find_update fun _ hx => hx
  rw [expOf, lkFind, hfind]
  split
  · rename_i hu
    rw [← isSome_lkFind] at h
    obtain ⟨x, hx⟩ := Option.isSome_iff_exists.mp h
    rw [hu, show find tok t m = some x from hx]
    rfl
  · rfl

/-- `lk_set` gives the token its deadline. -/
theorem lkSet_spec (hm : Members m) (he : e < 2 ^ 64) (ht : t.length < 2 ^ 16)
    (h : lkSet m t e = some m') :
    Members m' ∧ ∀ u, expOf m' u = if u = t then some e else expOf m u := by
  have hpacked := packed_lkSet hm.packed he ht h
  rw [lkSet] at h
  cases hfind : lkFind m t with
  | some x =>
    rw [hfind, Option.some.injEq] at h
    subst h
    exact ⟨members_update hm he, fun u => expOf_update u (by rw [expOf, hfind]; rfl)⟩
  | none =>
    simp only [hfind, Option.ite_none_left_eq_some, Option.some.injEq] at h
    obtain ⟨-, rfl⟩ := h
    have hnew : t ∉ m.map tok := find_eq_none.mp hfind
    refine ⟨hpacked.members (nodup_append hm.nodup hnew), fun u => ?_⟩
    rw [expOf, lkFind, find_append]
    by_cases hu : t = u
    · subst hu
      rw [show find tok t m = none from hfind, if_pos rfl, if_pos rfl]
      rfl
    · rw [if_neg hu, if_neg (Ne.symm hu), Option.or_none]
      rfl

theorem lkSet_length (h : lkSet m t e = some m') : m'.length ≤ m.length + 1 := by
  rw [lkSet] at h
  cases hfind : lkFind m t with
  | some x =>
    rw [hfind, Option.some.injEq] at h
    have hkeys := congrArg length (toks_update m t e)
    rw [length_map, length_map] at hkeys
    rw [← h, hkeys]
    exact Nat.le_succ _
  | none =>
    simp only [hfind, Option.ite_none_left_eq_some, Option.some.injEq] at h
    rw [← h.2, length_append, length_singleton]

/-- The array is full for a new member only. -/
theorem lkSet_isSome (h : (expOf m t).isSome = true ∨ m.length < lkMax) :
    ∃ m', lkSet m t e = some m' := by
  rw [lkSet]
  cases hfind : lkFind m t with
  | some x => exact ⟨_, rfl⟩
  | none =>
    rw [← isSome_lkFind, hfind] at h
    rw [if_neg (by rcases h with h | h; · cases h
                   · omega)]
    exact ⟨_, rfl⟩

/-- `lk_rem` takes the token away. -/
theorem lkRem_spec (hm : Members m) :
    Members (lkRem m t) ∧ ∀ u, expOf (lkRem m t) u = if u = t then none else expOf m u := by
  refine ⟨(packed_lkRem hm.packed).members (nodup_remove hm.nodup), fun u => ?_⟩
  rw [expOf, lkRem, lkFind, find_remove hm.nodup]
  split
  · rfl
  · rfl

/-- `lk_trim` keeps the tokens whose deadline is ahead, and says whether one went. -/
theorem lkTrim_spec (hm : Members m) (now : Nat) : Members (lkTrim m now).1 ∧
      (∀ u, expOf (lkTrim m now).1 u = (expOf m u).filter fun e => decide (now < e)) ∧
      ((lkTrim m now).2 = false → ∀ u, expOf (lkTrim m now).1 u = expOf m u) := by
  have hperm := lkTrim_perm m now
  have hnd : ((m.filter fun x => decide (now < x.exp)).map tok).Nodup := nodup_filter _ hm.nodup
  have hexp : ∀ u, expOf (lkTrim m now).1 u = (expOf m u).filter fun e => decide (now < e) := by
    intro u
    rw [expOf, lkFind, find_perm hnd hperm.symm, find_filter _ hm.nodup, expOf, lkFind]
    cases find tok u m with
    | none => rfl
    | some x =>
      by_cases hx : now < x.exp
      all_goals simp [Option.filter_some, hx]
  refine ⟨(packed_lkTrim hm.packed now).members ((hperm.map _).nodup_iff.mpr hnd), hexp,
    fun hsame u => ?_⟩
  have hlen : (lkTrim m now).1.length = m.length := by
    simpa [lkTrim] using hsame
  rw [hperm.length_eq, length_filter_eq_length_iff] at hlen
  rw [hexp u]
  cases hu : expOf m u with
  | none => rfl
  | some e => exact Option.filter_some_pos (hlen _ (mem_of_expOf hu))

theorem length_pos_iff_expOf : m.length > 0 ↔ ∃ u, (expOf m u).isSome = true := by
  constructor
  · intro hpos
    obtain ⟨x, hx⟩ := exists_mem_of_length_pos hpos
    refine ⟨x.tok, ?_⟩
    rw [Option.isSome_iff_ne_none, Ne, expOf, Option.map_eq_none_iff, lkFind, find_eq_none, not_not]
    exact mem_map_of_mem hx
  · rintro ⟨u, hu⟩
    obtain ⟨e, he⟩ := Option.isSome_iff_exists.mp hu
    exact length_pos_of_mem (mem_of_expOf he)

/-- More than one member: someone beside `t`. -/
theorem length_gt_one_of_other (ht : (expOf m t).isSome = true) {u : List Byte} (hu : u ≠ t)
    (hother : (expOf m u).isSome = true) : m.length > 1 := by
  obtain ⟨e, he⟩ := Option.isSome_iff_exists.mp ht
  obtain ⟨e', he'⟩ := Option.isSome_iff_exists.mp hother
  have hmem := mem_of_expOf he
  have hmem' := mem_of_expOf he'
  by_contra hle
  have hpos := length_pos_of_mem hmem
  obtain ⟨x, rfl⟩ := length_eq_one_iff.mp (show m.length = 1 by omega)
  rw [mem_singleton] at hmem hmem'
  exact hu (congrArg tok (hmem'.trans hmem.symm))

end Edits

end Perfcached.Lock
