import Perfcached.Hash.Incr
import Perfcached.Lib.Decimal
import Perfcached.Store.Operations

/-!
# Perfcached.Resp.Incr

INCR, DECR, INCRBY and DECRBY over RESP: `rh_incr` (`src/respkv.c`), `resp_ll` (`src/respout.c`)
and `op_addsub` (`src/verbs.c`), over the table's counters (`Perfcached.Store.Operations`).

The argument is read by `strtoll`, which clamps, and the stored text by a loop that wraps; the sum
wraps as well. `long long` is a 64 bit word here, with the arithmetic of the machine. What is
answered and stored is the sum of the integers exactly where the sum fits the word and the argument
has not been clamped, or cut at a NUL byte (`incrby_exact_iff`).

A key that lies on another node, and a table under resize, are left out.
-/

namespace Perfcached.Resp

open Bytes Decimal Hash List Option BitVec

/-! ### Reading integers -/

def isSpace (b : Byte) : Bool := decide (b.toNat = 32 ∨ 9 ≤ b.toNat ∧ b.toNat ≤ 13)

/-- A number moved into the range of a `long long`. -/
def clamp (n : Int) : Int := max (-2 ^ 63) (min n (2 ^ 63 - 1))

/-- `strtoll` in base 10: the value, and the text from where it stopped. -/
def strtoll (s : List Byte) : Int × List Byte :=
  let (neg, ds) := sign (s.dropWhile isSpace)
  let num := ds.takeWhile isDigit
  if num = [] then (0, s) else (clamp (signed neg (value num)), ds.dropWhile isDigit)

def respLl (p : List Byte) : Option (BitVec 64) :=
  if p.length = 0 ∨ p.length ≥ 24 then none
  else
    match strtoll (cstr p) with
    | (v, []) => some (BitVec.ofInt 64 v)
    | (_, _ :: _) => none

/-! ### The command -/

/-- What the node has besides the table: `refused` is `op_refused`, `strict` is
`pc_store_types_strict`. -/
structure Env where
  A : Arena
  ticks : Nat
  refused : Bool
  strict : Bool

inductive Cmd where
  | incr | decr | incrby | decrby
  deriving DecidableEq

def Cmd.hasBy : Cmd → Bool
  | .incrby | .decrby => true
  | .incr | .decr => false

def Cmd.neg : Cmd → Bool
  | .decr | .decrby => true
  | .incr | .incrby => false

/-- What `op_addsub` returns, on the node that has the key. -/
inductive OpErr where
  | wrfail | type | notint

/-- A live record with a type. -/
def hasType (ticks : Nat) (t : Table) (k : Key) : Bool :=
  (t.lookup k).any fun r => !r.expired ticks && r.rflags &&& fTypes ≠ 0#8

/-- `op_addsub` with a ttl of -1, which keeps the expiry. -/
def opAddsub (env : Env) (clock : Nat) (t : Table) (k : Key) (delta : BitVec 64) :
    Except OpErr (BitVec 64) × Table × Nat :=
  if env.refused = true then (.error .wrfail, t, clock)
  else if env.strict = true ∧ hasType env.ticks t k = true then (.error .type, t, clock)
  else
    match htAddEx env.A env.ticks clock t k delta expPreserve with
    | (.error, t, clock) => (.error .notint, t, clock)
    | (.ok nv _, t, clock) => (.ok nv, t, clock)

def notInt : String := "value is not an integer or out of range"

def pcWrongtypeMsg : String := "WRONGTYPE Operation against a key holding the wrong kind of value"

def OpErr.text : OpErr → String
  | .wrfail => "cache full"
  | .type => pcWrongtypeMsg
  | .notint => notInt

def keyMax : Nat := 4096

/-- The reply, the table and the clock. -/
abbrev Outcome := Except String Int × Table × Nat

/-- `rh_incr` from where `by` is known. -/
def addBy (env : Env) (clock : Nat) (t : Table) (neg : Bool) (k : Key) (delta : BitVec 64) :
    Outcome :=
  if k.length = 0 ∨ k.length > keyMax then (.error "key too long", t, clock)
  else
    match opAddsub env clock t k (if neg = true then -delta else delta) with
    | (.error e, t, clock) => (.error e.text, t, clock)
    | (.ok nv, t, clock) => (.ok nv.toInt, t, clock)

/-- `rh_incr`, with the arguments after the command's name. -/
def rhIncr (env : Env) (clock : Nat) (t : Table) (cmd : Cmd) (argv : List (List Byte)) : Outcome :=
  match cmd.hasBy, argv with
  | true, [k, arg] =>
    match respLl arg with
    | none => (.error notInt, t, clock)
    | some delta => addBy env clock t cmd.neg k delta
  | true, _ => (.error notInt, t, clock)
  | false, [k] => addBy env clock t cmd.neg k 1
  | false, _ => (.error "wrong number of arguments", t, clock)

/-! ### The readers -/

theorem digit_iff (b : Byte) : isDigit b = true ↔ ¬ (b < 0x30#8 ∨ 0x39#8 < b) := by
  rw [isDigit, decide_eq_true_eq, lt_def, lt_def]
  change 48 ≤ b.toNat ∧ b.toNat ≤ 57 ↔ ¬ (b.toNat < 48 ∨ 57 < b.toNat)
  omega

theorem digit_word {b : Byte} (h : isDigit b = true) :
    (b - 0x30#8).setWidth 64 = BitVec.ofNat 64 (b.toNat - 48) := by
  have hdigit : 48 ≤ b.toNat ∧ b.toNat ≤ 57 := of_decide_eq_true h
  apply eq_of_toNat_eq
  rw [toNat_setWidth, toNat_sub, toNat_ofNat, toNat_ofNat]
  omega

theorem str2llFrom_eq (v : BitVec 64) (ds : List Byte) :
    str2llFrom v ds = if ds.all isDigit = true then some (wordFrom v ds) else none := by
  induction ds generalizing v with
  | nil => rfl
  | cons c ds ih =>
    rw [str2llFrom, all_cons]
    by_cases hc : isDigit c = true
    · rw [if_neg ((digit_iff c).mp hc), ih, hc, Bool.true_and, digit_word hc]
      rfl
    · rw [if_pos (not_not.mp fun h => hc ((digit_iff c).mpr h)), Bool.eq_false_iff.mpr hc]
      rfl

theorem sign_cons (b : Byte) (bs : List Byte) : sign (b :: bs) =
      if b = 0x2D#8 then (true, bs) else if b = 0x2B#8 then (false, bs) else (false, b :: bs) := by
  have hminus : b.toNat = 45 ↔ b = 0x2D#8 := (toNat_inj (y := 0x2D#8))
  have hplus : b.toNat = 43 ↔ b = 0x2B#8 := (toNat_inj (y := 0x2B#8))
  simp only [sign, hminus, hplus]

theorem parse_of_sign {s ds : List Byte} {neg : Bool} (h : sign s = (neg, ds)) (hds : ds ≠ []) :
    (parse s).map (BitVec.ofInt 64) =
      (str2llFrom 0 ds).map fun v => if neg = true then -v else v := by
  rw [parse, h, str2llFrom_eq, word_eq]
  by_cases hall : ds.all isDigit = true
  · rw [if_pos ⟨hds, hall⟩, if_pos hall, map_some, map_some, ofInt_signed]
  · rw [if_neg fun h => hall h.2, if_neg hall]
    rfl

/-- The stored text is read modulo the word. -/
theorem str2ll_eq (p : List Byte) : str2ll p = (parse p).map (BitVec.ofInt 64) := by
  cases p with
  | nil => rfl
  | cons b bs =>
    have hsign := sign_cons b bs
    rw [str2ll]
    by_cases hminus : b = 0x2D#8
    · rw [if_pos hminus] at hsign
      rw [if_pos (.inl hminus)]
      split
      · next hnil => rw [parse, hsign, hnil]; rfl
      · next hne =>
          rw [parse_of_sign hsign hne]
          simp
    · rw [if_neg hminus] at hsign
      by_cases hplus : b = 0x2B#8
      · rw [if_pos hplus] at hsign
        rw [if_pos (.inr hplus)]
        split
        · next hnil => rw [parse, hsign, hnil]; rfl
        · next hne =>
            rw [parse_of_sign hsign hne]
            simp
      · rw [if_neg hplus] at hsign
        rw [if_neg (not_or.mpr ⟨hminus, hplus⟩), parse_of_sign hsign (cons_ne_nil b bs)]
        simp

/-- The integer an argument stands for; `strtoll` skips white space in front of it. -/
def argInt (p : List Byte) : Option Int := parse (p.dropWhile isSpace)

theorem argInt_of_nul {p : List Byte} (h : (0 : Byte) ∈ p) : argInt p = none := by
  have hmem : (0 : Byte) ∈ p.dropWhile isSpace := by
    rw [← takeWhile_append_dropWhile (p := isSpace) (l := p)] at h
    refine (mem_append.mp h).resolve_left fun htake => ?_
    have := mem_takeWhile_imp htake
    simp [isSpace] at this
  exact parse_eq_none hmem rfl (by decide) (by decide)

/-- Where `strtoll` reads a text to its end, the text is an integer. -/
theorem strtoll_end {s : List Byte} {v : Int} (hs : s ≠ []) (h : strtoll s = (v, [])) :
    ∃ b, argInt s = some b ∧ v = clamp b := by
  unfold strtoll at h
  unfold argInt parse
  generalize sign (s.dropWhile isSpace) = sgn at h ⊢
  obtain ⟨neg, ds⟩ := sgn
  dsimp only at h ⊢
  split at h
  · cases h
    exact absurd rfl hs
  · next hnum =>
      obtain ⟨hv, hrest⟩ := Prod.mk.inj h
      have hall : ds.takeWhile isDigit = ds := by
        have := takeWhile_append_dropWhile (p := isDigit) (l := ds)
        rwa [hrest, append_nil] at this
      rw [hall] at hv hnum
      refine ⟨_, if_pos ⟨hnum, ?_⟩, hv.symm⟩
      rw [List.all_eq_true]
      exact takeWhile_eq_self_iff.mp hall

/-- An argument that is taken is an integer, which is clamped, or it has a NUL. -/
theorem respLl_some {p : List Byte} {u : BitVec 64} (h : respLl p = some u) :
    (0 : Byte) ∈ p ∨ ∃ b, argInt p = some b ∧ u = BitVec.ofInt 64 (clamp b) := by
  by_cases hnul : (0 : Byte) ∈ p
  · exact .inl hnul
  · right
    obtain ⟨hlen, h⟩ := ite_none_left_eq_some.mp h
    rw [cstr_of_not_mem hnul] at h
    have hne : p ≠ [] := by
      rintro rfl
      exact hlen (.inl rfl)
    split at h
    · next v heq =>
        cases h
        obtain ⟨b, hb, rfl⟩ := strtoll_end hne heq
        exact ⟨b, hb, rfl⟩
    · cases h

/-! ### The sum -/

/-- The integer a record stands for. -/
def recInt (r : Rec) : Option Int := if r.isInt = true then some (int64 r.val) else parse r.val

/-- The integer a key's record stands for; a key that is not there counts as 0. -/
def oldInt : Option Rec → Option Int
  | none => some 0
  | some r => recInt r

/-- The old value plus or minus the argument. -/
def total (neg : Bool) (a b : Int) : Int := if neg then a - b else a + b

/-- The word `add_ex_body` adds up. -/
def sumWord (neg : Bool) (a : Int) (u : BitVec 64) : BitVec 64 :=
  BitVec.ofInt 64 a + if neg = true then -u else u

theorem number_eq (r : Rec) : r.number = (recInt r).map (BitVec.ofInt 64) := by
  unfold Rec.number recInt
  split
  · rw [map_some, int64, ofInt_toInt]
  · exact str2ll_eq r.val

/-- A counter stays one, whatever else its flags say. -/
theorem isInt_flags (fl : Byte) : fl &&& fInt ≠ 0#8 → fl &&& ~~~fPassive &&& fInt ≠ 0#8 := by
  revert fl
  decide

theorem isInt_new (fl : Byte) : (fInt ||| fl) &&& fInt ≠ 0#8 := by
  revert fl
  decide

theorem recInt_counter {w : BitVec 64} {expires ver : Nat} {fl : Byte} (h : fl &&& fInt ≠ 0#8) :
    recInt ⟨leBytes 8 w.toNat, expires, fl, ver⟩ = some w.toInt := by
  have hint : Rec.isInt ⟨leBytes 8 w.toNat, expires, fl, ver⟩ = true := decide_eq_true h
  rw [recInt, if_pos hint, int64, leNat_leBytes_of_lt w.isLt, ofNat_toNat, setWidth_eq]

section

variable {ticks clock : Nat} {delta : BitVec 64} {a : Int}

theorem addRec_none {old : Option Rec} (h : oldInt old = none) :
    addRec ticks clock old delta expPreserve = (.error, none) := by
  cases old with
  | none => cases h
  | some r =>
    have hnumber : r.number = none := by
      rw [number_eq, show recInt r = none from h]
      rfl
    simp only [addRec, hnumber]

variable (ticks clock delta) in
/-- What is left of a record that is added to is a counter with the word sum. -/
theorem addRec_some {old : Option Rec} (h : oldInt old = some a) :
    ∃ eff r', addRec ticks clock old delta expPreserve =
        (.ok (BitVec.ofInt 64 a + delta) eff, some r') ∧
      recInt r' = some (BitVec.ofInt 64 a + delta).toInt := by
  cases old with
  | none =>
    cases h
    have hsum : BitVec.ofInt 64 0 + delta = delta := BitVec.zero_add delta
    rw [hsum]
    exact ⟨_, _, rfl, recInt_counter (by decide)⟩
  | some r =>
    have hnumber : r.number = some (BitVec.ofInt 64 a) := by
      rw [number_eq, show recInt r = some a from h]
      rfl
    simp only [addRec, hnumber]
    refine ⟨_, _, rfl, recInt_counter ?_⟩
    split
    · next hint => exact isInt_flags _ (of_decide_eq_true hint)
    · exact isInt_new _

variable {A : Arena} {t : Table} {k : Key}

theorem htAddEx_error (h : oldInt (t.lookup k) = none ∨ A.alloc (recSize k (leBytes 8 0)) = false) :
    htAddEx A ticks clock t k delta expPreserve = (.error, t, clock) := by
  unfold htAddEx addExBody
  split
  · rfl
  · next hroom => rw [addRec_none (h.resolve_right fun hfull => hroom (.inr hfull))]

variable (ticks clock delta) in
theorem htAddEx_ok (hkey : k.length ≤ 0xFFFF) (hroom : A.alloc (recSize k (leBytes 8 0)) = true)
    (ha : oldInt (t.lookup k) = some a) :
    ∃ eff r, recInt r = some (BitVec.ofInt 64 a + delta).toInt ∧
      htAddEx A ticks clock t k delta expPreserve =
        (.ok (BitVec.ofInt 64 a + delta) eff, t.insert k r, clock + 1) := by
  obtain ⟨eff, r, hadd, hr⟩ := addRec_some ticks clock delta ha
  refine ⟨eff, r, hr, ?_⟩
  rw [htAddEx, addExBody, if_neg (by rw [hroom]; simp; omega), hadd]

end

/-- The reply is an error and the table and the clock are as they were. -/
def Refused (t : Table) (clock : Nat) (out : Outcome) : Prop :=
  ∃ msg, out = (.error msg, t, clock)

/-- The key has a counter with the sum of the integers, which is the reply; the other keys have what
they had. -/
def Exact (t : Table) (neg : Bool) (k : Key) (arg : List Byte) (out : Outcome) : Prop :=
  ∃ a b, oldInt (t.lookup k) = some a ∧ argInt arg = some b ∧ out.1 = .ok (total neg a b) ∧
    (∃ r, out.2.1.lookup k = some r ∧ recInt r = some (total neg a b)) ∧
    ∀ k', k' ≠ k → out.2.1.lookup k' = t.lookup k'

def byCmd (neg : Bool) : Cmd := if neg then .decrby else .incrby

/-- What the node lets be added to, a record that stands for `a`: the key has a length of a key,
writes are not refused, no type forbids the sum and the arena grants a counter's cell. -/
structure Admits (env : Env) (t : Table) (k : Key) (a : Int) : Prop where
  key : k.length ≠ 0 ∧ k.length ≤ keyMax
  writes : env.refused = false
  untyped : ¬ (env.strict = true ∧ hasType env.ticks t k = true)
  stored : oldInt (t.lookup k) = some a
  room : env.A.alloc (recSize k (leBytes 8 0)) = true

/-- The word sum of what was read is stored and is the reply. -/
def Added (t : Table) (clock : Nat) (neg : Bool) (k : Key) (a : Int) (u : BitVec 64)
    (out : Outcome) : Prop :=
  ∃ r, recInt r = some (sumWord neg a u).toInt ∧
    out = (.ok (sumWord neg a u).toInt, t.insert k r, clock + 1)

section

variable {env : Env} {clock : Nat} {t : Table} {neg : Bool} {k : Key} {a : Int}

theorem addBy_added (h : Admits env t k a) (u : BitVec 64) :
    Added t clock neg k a u (addBy env clock t neg k u) := by
  obtain ⟨eff, r, hr, heq⟩ := htAddEx_ok env.ticks clock (if neg = true then -u else u)
    (h.key.2.trans (by decide)) h.room h.stored
  refine ⟨r, hr, ?_⟩
  rw [addBy, if_neg (by have := h.key; omega), opAddsub, h.writes, if_neg Bool.false_ne_true,
    if_neg h.untyped, heq]
  rfl

theorem addBy_refused (h : ∀ a, ¬ Admits env t k a) (u : BitVec 64) :
    Refused t clock (addBy env clock t neg k u) := by
  unfold addBy
  split
  · exact ⟨_, rfl⟩
  next hkey =>
  unfold opAddsub
  by_cases hrefused : env.refused = true
  · rw [if_pos hrefused]
    exact ⟨_, rfl⟩
  rw [if_neg hrefused]
  by_cases htype : env.strict = true ∧ hasType env.ticks t k = true
  · rw [if_pos htype]
    exact ⟨_, rfl⟩
  rw [if_neg htype, htAddEx_error]
  · exact ⟨_, rfl⟩
  -- what is left to miss is the number or the room
  cases hold : oldInt (t.lookup k) with
  | none => exact .inl rfl
  | some a =>
    refine .inr (Bool.eq_false_iff.mpr fun hroom => h a ⟨by omega, ?_, htype, hold, hroom⟩)
    exact Bool.eq_false_iff.mpr hrefused

end

/-- The command is refused, or its argument is read and added. -/
theorem rhIncr_cases (env : Env) (clock : Nat) (t : Table) (neg : Bool) (k : Key)
    (arg : List Byte) :
    (∃ u a, respLl arg = some u ∧ Admits env t k a ∧
        Added t clock neg k a u (rhIncr env clock t (byCmd neg) [k, arg])) ∨
      Refused t clock (rhIncr env clock t (byCmd neg) [k, arg]) ∧
        ∀ a, (respLl arg).isSome → ¬ Admits env t k a := by
  have hcmd : rhIncr env clock t (byCmd neg) [k, arg] = match respLl arg with
      | none => (.error notInt, t, clock)
      | some delta => addBy env clock t neg k delta := by
    cases neg <;> rfl
  rw [hcmd]
  cases respLl arg with
  | none => exact .inr ⟨⟨_, rfl⟩, fun _ h => nomatch h⟩
  | some u =>
    by_cases h : ∃ a, Admits env t k a
    · obtain ⟨a, ha⟩ := h
      exact .inl ⟨u, a, rfl, ha, addBy_added ha u⟩
    · rw [not_exists] at h
      exact .inr ⟨addBy_refused h u, fun a _ => h a⟩

theorem sumWord_eq (neg : Bool) (a u : Int) :
    sumWord neg a (BitVec.ofInt 64 u) = BitVec.ofInt 64 (total neg a u) := by
  cases neg with
  | false => exact (ofInt_add a u).symm
  | true =>
    change BitVec.ofInt 64 a + -BitVec.ofInt 64 u = BitVec.ofInt 64 (a - u)
    rw [← ofInt_neg, ← ofInt_add, Int.sub_eq_add_neg]

/-- The word of a number reads as another exactly if that fits and the two agree modulo the word. -/
theorem toInt_ofInt_eq_iff (x y : Int) :
    (BitVec.ofInt 64 x).toInt = y ↔ Signed64 y ∧ (2 ^ 64 : Int) ∣ x - y := by
  rw [toInt_ofInt, Int.bmod_def, Signed64]
  omega

theorem sumWord_toInt_iff (neg : Bool) (a b : Int) :
    (sumWord neg a (BitVec.ofInt 64 (clamp b))).toInt = total neg a b ↔
      Signed64 (total neg a b) ∧ (2 ^ 64 : Int) ∣ clamp b - b := by
  rw [sumWord_eq, toInt_ofInt_eq_iff]
  refine and_congr_right fun _ => ?_
  cases neg with
  | false =>
    change (2 ^ 64 : Int) ∣ a + clamp b - (a + b) ↔ _
    omega
  | true =>
    change (2 ^ 64 : Int) ∣ a - clamp b - (a - b) ↔ _
    omega

/-- INCRBY and DECRBY store and answer the sum of the integers or are refused, exactly if, where the
argument is read and the node lets it be added, it has no NUL, its integer is clamped to one that
agrees with it modulo the word, and the sum fits the word. -/
theorem incrby_exact_iff (env : Env) (clock : Nat) (t : Table) (neg : Bool) (k : Key)
    (arg : List Byte) :
    Refused t clock (rhIncr env clock t (byCmd neg) [k, arg]) ∨
        Exact t neg k arg (rhIncr env clock t (byCmd neg) [k, arg]) ↔
      ∀ a, (respLl arg).isSome → Admits env t k a → (0 : Byte) ∉ arg ∧
        ∀ b, argInt arg = some b →
          Signed64 (total neg a b) ∧ (2 ^ 64 : Int) ∣ clamp b - b := by
  rcases rhIncr_cases env clock t neg k arg with ⟨u, a, hu, hadmits, r, hr, heq⟩ | ⟨href, hnone⟩
  · rw [heq]
    constructor
    · intro h a₁ _ hadmits₁
      cases hadmits.stored.symm.trans hadmits₁.stored
      obtain ⟨a', b, ha', hb, hreply, -⟩ : Exact t neg k arg _ := h.resolve_left (by
        rintro ⟨msg, hmsg⟩
        cases hmsg)
      have hnul : (0 : Byte) ∉ arg := by
        intro h0
        rw [argInt_of_nul h0] at hb
        cases hb
      refine ⟨hnul, fun b₁ hb₁ => ?_⟩
      obtain ⟨b₂, hb₂, rfl⟩ := (respLl_some hu).resolve_left hnul
      cases hadmits.stored.symm.trans ha'
      cases hb.symm.trans hb₁
      cases hb.symm.trans hb₂
      exact (sumWord_toInt_iff neg a b).mp (Except.ok.inj hreply)
    · intro h
      obtain ⟨hnul, hfits⟩ := h a (by rw [hu]; rfl) hadmits
      obtain ⟨b, hb, rfl⟩ := (respLl_some hu).resolve_left hnul
      have hsum := (sumWord_toInt_iff neg a b).mpr (hfits b hb)
      rw [hsum] at hr
      refine .inr ⟨a, b, hadmits.stored, hb, congrArg Except.ok hsum, ⟨r, ?_, hr⟩, fun k' hk' => ?_⟩
      · exact AList.lookup_insert t
      · exact AList.lookup_insert_ne hk'
  · exact iff_of_true (.inl href) fun a hu hadmits => absurd hadmits (hnone a hu)

def counterTable : Table := (∅ : Table).insert (chars "k") ⟨leBytes 8 0, 0, fInt, 1⟩

/-- INCRBY of a number with twenty digits. -/
def afterHuge : Outcome :=
  rhIncr ⟨vastArena, 5, false, true⟩ 7 counterTable .incrby
    [chars "k", chars "99999999999999999999"]

/-- An argument outside 64 bits is clamped, and the sum with the clamped value is stored. -/
theorem clamped_argument_stored :
    argInt (chars "99999999999999999999") = some 99999999999999999999 ∧
      afterHuge.1 = .ok 9223372036854775807 ∧
      (afterHuge.2.1.lookup (chars "k")).bind recInt = some 9223372036854775807 := by
  refine ⟨by decide +kernel, ?_, by decide +kernel⟩
  rfl

end Perfcached.Resp
