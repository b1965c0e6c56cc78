import Perfcached.Hash.Edit
import Mathlib.Data.List.DropRight

/-!
# Perfcached.Hash.Incr

`pc_hr_incrbyfloat` (`src/hashrec.c`): the sum is rendered into the caller's `result`, trimmed there
and stored from there, with a length kept beside the text.

What the C library does with a `long double` is a parameter (`LongDouble`): its `%.17Lf` renders a
number as an optional minus, digits and perhaps a point and digits (`Rendering`), and its `strtold`
reads such a text whole.
-/

namespace Perfcached.Hash

open Bytes Buffer List Option

/-! ### Texts -/

def digit (b : Byte) : Prop := chr '0' ≤ b ∧ b ≤ chr '9'

/-- The C string in a buffer: what is before the first NUL. -/
def cstr (buf : List Byte) : List Byte := buf.takeWhile (fun b => b ≠ 0)

/-- A number as the library renders it. -/
structure Rendering where
  neg : Bool
  whole : List Byte
  frac : List Byte
  whole_ne : whole ≠ []
  whole_digit : ∀ b ∈ whole, digit b
  frac_digit : ∀ b ∈ frac, digit b

/-- The sign and the digits before the point. -/
def Rendering.front (ρ : Rendering) : List Byte := (if ρ.neg then [chr '-'] else []) ++ ρ.whole

/-- The text; a number without a fraction has no point. -/
def Rendering.text (ρ : Rendering) : List Byte :=
  if ρ.frac = [] then ρ.front else ρ.front ++ chr '.' :: ρ.frac

/-- The number without the zeros at the end of its fraction. -/
def Rendering.trim (ρ : Rendering) : Rendering where
  neg := ρ.neg
  whole := ρ.whole
  frac := ρ.frac.rdropWhile (fun b => b = chr '0')
  whole_ne := ρ.whole_ne
  whole_digit := ρ.whole_digit
  frac_digit := fun b hb => ρ.frac_digit b ((List.rdropWhile_prefix _ _).subset hb)

/-- The library's `long double`: `strtold` gives the value, how far it read and whether it set
`ERANGE`. -/
structure LongDouble where
  F : Type
  zero : F
  add : F → F → F
  isnan : F → Bool
  isinf : F → Bool
  strtold : List Byte → F × Nat × Bool
  fmt : F → Option Rendering
  strtold_text : ∀ ρ : Rendering, ρ.text.length < 64 →
    (strtold ρ.text).2 = (ρ.text.length, false) ∧ isnan (strtold ρ.text).1 = false

/-! ### The source's functions -/

variable (L : LongDouble)

def blank (b : Option Byte) : Prop := b = some (chr ' ') ∨ b = some (chr '\t')
  deriving Decidable

def strictLd (s : List Byte) : Option L.F :=
  if s.length = 0 ∨ s.length ≥ 256 ∨ blank s.head? ∨ blank s.getLast? then none
  else
    match L.strtold (cstr s) with
    | (v, stop, erange) =>
      if stop ≠ s.length ∨ erange = true ∨ L.isnan v = true then none else some v

/-- The number in the field; a field that is not there is 0. -/
def current (r field : List Byte) : Option L.F :=
  match pcHrGet r field with
  | none => some L.zero
  | some v => strictLd L (slice r v.1 v.2)

def sum (r field amount : List Byte) : Option L.F :=
  match strictLd L amount with
  | none => none
  | some inc =>
    match current L r field with
    | none => none
    | some cur =>
      let cur := L.add cur inc
      if L.isnan cur = true ∨ L.isinf cur = true then none else some cur

/-- The loop that cuts zeros off the end. -/
def trimZeros (buf : List Byte) : Nat → List Byte × Nat
  | 0 => (buf, 0)
  | nl + 1 =>
    if nl + 1 > 1 ∧ buf[nl]? = some (chr '0') then trimZeros (buf.set nl 0) nl
    else (buf, nl + 1)

def trimPoint (buf : List Byte) (nl : Nat) : List Byte × Nat :=
  if nl > 1 ∧ buf[nl - 1]? = some (chr '.') then (buf.set (nl - 1) 0, nl - 1) else (buf, nl)

/-- The zeros and the point at the end of `result`, and the length kept beside it. -/
def trimmed (buf : List Byte) (nl : Nat) : List Byte × Nat :=
  if chr '.' ∈ cstr buf then
    let (buf, nl) := trimZeros buf nl
    trimPoint buf nl
  else (buf, nl)

/-- `LD_STR_HUMAN`. -/
def human (buf : List Byte) (nl : Nat) : List Byte × Nat :=
  let (buf, nl) := trimmed buf nl
  if cstr buf = [chr '-', chr '0'] then (put buf 0 [chr '0', 0], nl) else (buf, nl)

/-- What the call answers: the new length or an error, the record's buffer and `result`. -/
structure Incr where
  ret : Int
  out : List Byte
  result : List Byte

def pcHrIncrbyfloat (r field amount result out : List Byte) (cap : Nat) : Incr :=
  match sum L r field amount with
  | none => ⟨pcHrENum, out, result⟩
  | some cur =>
    match L.fmt cur with
    | none => ⟨pcHrENum, out, result⟩
    | some ρ =>
      -- `snprintf` writes at most 63 characters and a NUL
      let result := put result 0 (ρ.text.take 63 ++ [0])
      let nl := ρ.text.length
      if nl ≥ 64 then ⟨pcHrENum, out, result⟩
      else
        let (result, nl) := human result nl
        let e := pcHrSet r field (slice result 0 nl) false out cap
        ⟨e.ret, e.out, result⟩

/-! ### Texts in a buffer -/

variable {ρ : Rendering}

open Rendering

theorem Rendering.mem_text {b : Byte} (h : b ∈ ρ.text) : b = chr '-' ∨ b = chr '.' ∨ digit b := by
  have hfront : b ∈ ρ.front → b = chr '-' ∨ b = chr '.' ∨ digit b := by
    intro h
    rcases mem_append.mp h with h | h
    · split at h
      · exact .inl (mem_singleton.mp h)
      · cases h
    · exact .inr (.inr (ρ.whole_digit b h))
  rw [text] at h
  split at h
  · exact hfront h
  · rcases mem_append.mp h with h | h
    · exact hfront h
    · rcases mem_cons.mp h with h | h
      · exact .inr (.inl h)
      · exact .inr (.inr (ρ.frac_digit b h))

theorem Rendering.ne_of_mem_text {b c : Byte} (h : b ∈ ρ.text)
    (hc : c ≠ chr '-' ∧ c ≠ chr '.' ∧ ¬ chr '0' ≤ c) : b ≠ c := by
  rintro rfl
  rcases mem_text h with h | h | h
  · exact hc.1 h
  · exact hc.2.1 h
  · exact hc.2.2 h.1

theorem Rendering.zero_not_mem_text (ρ : Rendering) : (0 : Byte) ∉ ρ.text :=
  fun h => ne_of_mem_text h (by decide) rfl

theorem Rendering.front_ne (ρ : Rendering) : ρ.front ≠ [] :=
  append_ne_nil_of_right_ne_nil _ ρ.whole_ne

variable {t : List Byte}

theorem cstr_append (ht : (0 : Byte) ∉ t) (rest : List Byte) : cstr (t ++ 0 :: rest) = t := by
  have hne : ∀ b ∈ t, decide (b ≠ (0 : Byte)) = true := by
    intro b hb
    refine decide_eq_true ?_
    rintro rfl
    exact ht hb
  rw [cstr, takeWhile_append_of_pos hne]
  simp

theorem cstr_of_not_mem (ht : (0 : Byte) ∉ t) : cstr t = t := by
  refine takeWhile_eq_self_iff.mpr fun b hb => decide_eq_true ?_
  rintro rfl
  exact ht hb

/-- The last character of the text, and a NUL in its place. -/
theorem last_concat (c : Byte) (rest : List Byte) : ((t ++ [c]) ++ 0 :: rest)[t.length]? = some c ∧
    ((t ++ [c]) ++ 0 :: rest).set t.length 0 = t ++ 0 :: 0 :: rest := by
  simp

/-- One pass of the loop at the last character of the text. -/
theorem trimZeros_concat (ht : t ≠ []) (c : Byte) (rest : List Byte) :
    trimZeros ((t ++ [c]) ++ 0 :: rest) (t.length + 1) =
      if c = chr '0' then trimZeros (t ++ 0 :: 0 :: rest) t.length
      else ((t ++ [c]) ++ 0 :: rest, t.length + 1) := by
  have hpos := length_pos_iff.mpr ht
  rw [trimZeros, (last_concat c rest).1, (last_concat c rest).2]
  refine if_congr ?_ rfl rfl
  rw [some.injEq]
  exact ⟨fun h => h.2, fun h => ⟨by omega, h⟩⟩

/-- The loop stops at the point at the latest. -/
theorem trimZeros_eq {p : List Byte} (hp : p ≠ []) (fs rest : List Byte) :
    ∃ rest', trimZeros ((p ++ chr '.' :: fs) ++ 0 :: rest) (p ++ chr '.' :: fs).length =
      ((p ++ chr '.' :: fs.rdropWhile (fun b => b = chr '0')) ++ 0 :: rest',
        (p ++ chr '.' :: fs.rdropWhile (fun b => b = chr '0')).length) := by
  induction fs using reverseRecOn generalizing rest with
  | nil =>
    refine ⟨rest, ?_⟩
    have hstop := trimZeros_concat hp (chr '.') rest
    rw [if_neg (by decide)] at hstop
    simpa using hstop
  | append_singleton fs c ih =>
    have hsplit : p ++ chr '.' :: (fs ++ [c]) = (p ++ chr '.' :: fs) ++ [c] := by simp
    have hstep := trimZeros_concat (t := p ++ chr '.' :: fs) (by simp) c rest
    rw [hsplit, length_append, length_singleton, hstep, rdropWhile_concat]
    by_cases hc : c = chr '0'
    · rw [if_pos hc, if_pos (decide_eq_true hc)]
      exact ih (0 :: rest)
    · rw [if_neg hc, if_neg (by simpa using hc), ← hsplit]
      exact ⟨rest, by simp [Nat.add_assoc]⟩

theorem Rendering.point_not_mem_front (ρ : Rendering) : chr '.' ∉ ρ.front := by
  intro h
  rcases mem_append.mp h with h | h
  · split at h
    · exact absurd (mem_singleton.mp h) (by decide)
    · cases h
  · exact absurd (ρ.whole_digit _ h).1 (by decide)

theorem trimPoint_concat (ht : t ≠ []) (c : Byte) (rest : List Byte) :
    trimPoint ((t ++ [c]) ++ 0 :: rest) (t ++ [c]).length =
      if c = chr '.' then (t ++ 0 :: 0 :: rest, t.length)
      else ((t ++ [c]) ++ 0 :: rest, (t ++ [c]).length) := by
  have hpos := length_pos_iff.mpr ht
  have hlen : (t ++ [c]).length - 1 = t.length := by simp
  rw [trimPoint, hlen, (last_concat c rest).1, (last_concat c rest).2]
  refine if_congr ?_ rfl rfl
  rw [some.injEq, length_append, length_singleton]
  exact ⟨fun h => h.2, fun h => ⟨by omega, h⟩⟩

/-- **The trimming.** The buffer holds the text without the zeros at the end of the fraction, and
the length is that text's. -/
theorem trimmed_eq (ρ : Rendering) (rest : List Byte) :
    ∃ rest', trimmed (ρ.text ++ 0 :: rest) ρ.text.length =
      (ρ.trim.text ++ 0 :: rest', ρ.trim.text.length) := by
  rw [trimmed, cstr_append ρ.zero_not_mem_text]
  by_cases hfrac : ρ.frac = []
  · have htext : ρ.text = ρ.front := if_pos hfrac
    have htrim : ρ.trim.text = ρ.front := if_pos (by simp [trim, hfrac])
    rw [htext, htrim, if_neg ρ.point_not_mem_front]
    exact ⟨rest, rfl⟩
  · have htext : ρ.text = ρ.front ++ chr '.' :: ρ.frac := if_neg hfrac
    rw [htext, if_pos (mem_append_right _ mem_cons_self)]
    obtain ⟨rest', heq⟩ := trimZeros_eq ρ.front_ne ρ.frac rest
    rw [heq]
    simp only
    rcases eq_nil_or_concat' ρ.trim.frac with hnil | ⟨fs, c, hfs⟩
    · -- all zeros: the point goes too
      have hpoint := trimPoint_concat ρ.front_ne (chr '.') rest'
      rw [if_pos rfl] at hpoint
      have htrim : ρ.trim.text = ρ.front := if_pos hnil
      rw [show ρ.frac.rdropWhile (fun b => b = chr '0') = [] from hnil, hpoint, htrim]
      exact ⟨_, rfl⟩
    · have hdigit : digit c := ρ.trim.frac_digit c (by rw [hfs]; simp)
      have hpoint := trimPoint_concat (t := ρ.front ++ chr '.' :: fs) (by simp) c rest'
      rw [if_neg (by rintro rfl; exact absurd hdigit.1 (by decide))] at hpoint
      have htrim : ρ.trim.text = ρ.front ++ chr '.' :: (fs ++ [c]) := by
        rw [text, if_neg (by rw [hfs]; simp), hfs]
        rfl
      rw [show ρ.frac.rdropWhile (fun b => b = chr '0') = fs ++ [c] from hfs, htrim]
      refine ⟨rest', ?_⟩
      simpa using hpoint

/-! ### What is stored and what is reported -/

theorem Rendering.length_trim_le (ρ : Rendering) : ρ.trim.text.length ≤ ρ.text.length := by
  have hfrac : ρ.trim.frac.length ≤ ρ.frac.length := (List.rdropWhile_prefix _ _).length_le
  have hfront : ρ.trim.front = ρ.front := rfl
  rw [text, text, hfront]
  split
  · split
    · exact le_rfl
    · simp
  · rename_i hne
    rw [if_neg fun h => hne (length_eq_zero_iff.mp (by rw [h] at hfrac; simpa using hfrac))]
    simp only [length_append, length_cons]
    omega

theorem Rendering.not_blank {b : Option Byte} (h : ∀ c ∈ b, c ∈ ρ.text) : ¬ blank b := by
  rintro (rfl | rfl)
  all_goals exact ne_of_mem_text (h _ rfl) (by decide) rfl

theorem Rendering.text_ne (ρ : Rendering) : ρ.text ≠ [] := by
  rw [text]
  split
  · exact ρ.front_ne
  · exact append_ne_nil_of_left_ne_nil ρ.front_ne _

theorem strictLd_text (h : ρ.text.length < 64) : (strictLd L ρ.text).isSome = true := by
  obtain ⟨hread, hnan⟩ := L.strtold_text ρ h
  have hcheck : ¬ (ρ.text.length = 0 ∨ ρ.text.length ≥ 256 ∨ blank ρ.text.head? ∨
      blank ρ.text.getLast?) := by
    have hlen := length_pos_iff.mpr ρ.text_ne
    rintro (h0 | h256 | hhead | hlast)
    · omega
    · omega
    · exact not_blank (fun c hc => mem_of_mem_head? hc) hhead
    · exact not_blank (fun c hc => mem_of_mem_getLast? hc) hlast
  rw [strictLd, if_neg hcheck, cstr_of_not_mem ρ.zero_not_mem_text]
  rcases hout : L.strtold ρ.text with ⟨v, stop, erange⟩
  rw [hout] at hread hnan
  cases hread
  simp [hnan]

/-- The buffer and the length that `human` leaves. -/
theorem human_eq (ρ : Rendering) (rest : List Byte) : (ρ.trim.text ≠ [chr '-', chr '0'] →
      let (buf, nl) := human (ρ.text ++ 0 :: rest) ρ.text.length
      cstr buf = ρ.trim.text ∧ slice buf 0 nl = ρ.trim.text) ∧
    (ρ.trim.text = [chr '-', chr '0'] →
      let (buf, nl) := human (ρ.text ++ 0 :: rest) ρ.text.length
      cstr buf = [chr '0'] ∧ slice buf 0 nl = [chr '0', 0]) := by
  obtain ⟨rest', heq⟩ := trimmed_eq ρ rest
  have hcstr := cstr_append ρ.trim.zero_not_mem_text rest'
  simp only [human, heq, hcstr]
  refine ⟨fun hne => ?_, fun hzero => ?_⟩
  · rw [if_neg hne]
    exact ⟨hcstr, slice_front rfl⟩
  · rw [if_pos hzero]
    simp only [hzero, put_zero]
    exact ⟨rfl, rfl⟩

/-- A successful `pc_hr_set` is read back. -/
theorem pcHrGet_pcHrSet {r : List Byte} (hr : r.length < pcHrHdr ∨ ∃ cnt, pcHrValid r = some cnt)
    {field val out : List Byte} {cap : Nat} (hok : 0 ≤ (pcHrSet r field val false out cap).ret) :
    let e := pcHrSet r field val false out cap
    let new := e.out.take e.ret.toNat
    (pcHrGet new field).map (fun v => slice new v.1 v.2) = some val := by
  obtain ⟨es, hes, hreads⟩ : ∃ es, Fits es ∧ Reads r es := by
    rcases hr with hshort | ⟨cnt, hvalid⟩
    · exact ⟨[], ⟨by simp, by simp, by decide⟩, .inr ⟨hshort, rfl⟩⟩
    · obtain ⟨es, hes, hrec, -⟩ := pcHrValid_iff.mp hvalid
      exact ⟨es, hes, .inl hrec⟩
  rcases pcHrSet_cases hreads hes field val out cap with ⟨hret, -⟩ | ⟨hret, -⟩ | ⟨-, hfits, hnew⟩
  · rw [hret] at hok
    exact absurd hok (by decide)
  · rw [hret] at hok
    exact absurd hok (by decide)
  · simp only [hnew]
    rw [pcHrGet_eq (.inl rfl) hfits, OrderedMap.lookup_set, if_pos rfl]

/-- A call that succeeds rendered the sum and stored from the trimmed buffer. -/
theorem pcHrIncrbyfloat_ok {r field amount result out : List Byte} {cap : Nat}
    (hok : 0 ≤ (pcHrIncrbyfloat L r field amount result out cap).ret) :
    ∃ ρ rest, (sum L r field amount).bind L.fmt = some ρ ∧ ρ.text.length < 64 ∧
      pcHrIncrbyfloat L r field amount result out cap =
        let (buf, nl) := human (ρ.text ++ 0 :: rest) ρ.text.length
        let e := pcHrSet r field (slice buf 0 nl) false out cap
        ⟨e.ret, e.out, buf⟩ := by
  rw [pcHrIncrbyfloat] at hok ⊢
  cases hsum : sum L r field amount with
  | none =>
    rw [hsum] at hok
    exact absurd (show 0 ≤ pcHrENum from hok) (by decide)
  | some cur =>
    rw [hsum] at hok
    cases hfmt : L.fmt cur with
    | none =>
      simp only [hfmt] at hok
      exact absurd hok (by decide)
    | some ρ =>
      simp only [hfmt] at hok
      by_cases hlong : ρ.text.length ≥ 64
      · rw [if_pos hlong] at hok
        exact absurd (show 0 ≤ pcHrENum from hok) (by decide)
      · have hbuf : put result 0 (ρ.text.take 63 ++ [0]) =
            ρ.text ++ 0 :: result.drop (ρ.text.length + 1) := by
          rw [take_of_length_le (by omega), put_zero]
          simp
        refine ⟨ρ, result.drop (ρ.text.length + 1), hfmt, by omega, ?_⟩
        simp only [hfmt, if_neg hlong, hbuf]

/-- **HINCRBYFLOAT stores what it reports, but for a minus zero.** A successful call rendered the
sum; the field then holds the bytes of the reported text, and they are read as a number again,
exactly if the rendering without its trailing zeros is not `-0`. -/
theorem incrbyfloat_stores_reported_iff (r field amount result out : List Byte) (cap : Nat)
    (hr : r.length < pcHrHdr ∨ ∃ cnt, pcHrValid r = some cnt)
    (hok : 0 ≤ (pcHrIncrbyfloat L r field amount result out cap).ret) :
    ∃ ρ, (sum L r field amount).bind L.fmt = some ρ ∧
      let a := pcHrIncrbyfloat L r field amount result out cap
      let new := a.out.take a.ret.toNat
      let stored := (pcHrGet new field).map (fun v => slice new v.1 v.2)
      ((stored = some (cstr a.result) ∧ (strictLd L (cstr a.result)).isSome = true) ↔
        ρ.trim.text ≠ [chr '-', chr '0']) := by
  obtain ⟨ρ, rest, hρ, hlen, heq⟩ := pcHrIncrbyfloat_ok L hok
  refine ⟨ρ, hρ, ?_⟩
  have htrim : ρ.trim.text.length < 64 := lt_of_le_of_lt ρ.length_trim_le hlen
  rw [heq] at hok ⊢
  obtain ⟨hplain, hzero⟩ := human_eq ρ rest
  rcases hhuman : human (ρ.text ++ 0 :: rest) ρ.text.length with ⟨buf, nl⟩
  simp only [hhuman] at hok hplain hzero ⊢
  rw [pcHrGet_pcHrSet hr hok]
  by_cases hne : ρ.trim.text = [chr '-', chr '0']
  · obtain ⟨hreported, hstored⟩ := hzero hne
    rw [hreported, hstored]
    exact iff_of_false (fun h => absurd h.1 (by decide)) fun h => h hne
  · obtain ⟨hreported, hstored⟩ := hplain hne
    rw [hreported, hstored]
    exact iff_of_true ⟨rfl, strictLd_text L htrim⟩ hne

/-- A library with two numbers, 0 and one between -5e-18 and 0, which `%.17Lf` renders with a minus
and zeros only. -/
def tiny : LongDouble where
  F := Bool
  zero := false
  add := fun a b => a || b
  isnan := fun _ => false
  isinf := fun _ => false
  strtold := fun t => (decide (t = chars "-1e-20"), t.length, false)
  fmt := fun neg => some ⟨neg, [chr '0'], List.replicate 17 (chr '0'), by simp,
    by simp only [List.mem_singleton, forall_eq, digit]; decide,
    fun b hb => by rw [List.eq_of_mem_replicate hb, digit]; decide⟩
  strtold_text := fun _ _ => ⟨rfl, rfl⟩

/-- The answer to HINCRBYFLOAT of a new field. -/
def tinyIncr (amount : String) : Incr :=
  pcHrIncrbyfloat tiny [] [chr 'f'] (chars amount) (List.replicate 64 0)
    (List.replicate 64 0) 64

theorem incrbyfloat_stores_reported_iff_zero :
    0 ≤ (tinyIncr "0").ret ∧
      (let new := (tinyIncr "0").out.take (tinyIncr "0").ret.toNat
      (pcHrGet new [chr 'f']).map (fun v => slice new v.1 v.2) =
        some (cstr (tinyIncr "0").result)) := by
  have hok : 0 ≤ (tinyIncr "0").ret := by decide
  obtain ⟨ρ, hρ, hiff⟩ := incrbyfloat_stores_reported_iff tiny [] [chr 'f'] (chars "0") _ _
    64 (.inl (by decide)) hok
  cases hρ
  exact ⟨hok, (hiff.mpr (by decide)).1⟩

/-- HINCRBYFLOAT by -1e-20 of a new field reports `0` and stores `0` and a NUL, and the next call
refuses that. -/
theorem minus_zero_stored_with_nul :
    cstr (tinyIncr "-1e-20").result = [chr '0'] ∧
      (let new := (tinyIncr "-1e-20").out.take (tinyIncr "-1e-20").ret.toNat
      (pcHrGet new [chr 'f']).map (fun v => slice new v.1 v.2) = some [chr '0', 0] ∧
        (pcHrIncrbyfloat tiny new [chr 'f'] [chr '0'] (replicate 64 0) (replicate 64 0)
          64).ret = pcHrENum) := by
  decide

end Perfcached.Hash
