import Perfcached.Lib.Buffer
import Perfcached.Lib.Decimal
import Perfcached.Lib.Framing

/-!
# Perfcached.Resp.Door

The framing of RESP commands: `resp_ll_span` and `resp_one` (`src/respdoor.c`).

`resp_one` starts again from the first byte of a command each time it is called, and decides from
what has arrived whether to wait, to refuse the stream or to run the command. It is a framer in the
sense of `Perfcached.Lib.Framing`, stable on every stream whose inline lines are short: the
look-ahead for a length is 16 bytes whether or not more have arrived, and a line feed that is there
stays where it is. The one verdict that more bytes can change is the refusal of a line that runs
past 65536 bytes without its end.

`resp_execute` is an arbitrary answer to the commands executed so far; commands that park are left
out. The arguments are spans of the buffer, as in the source.
-/

namespace Perfcached.Resp

open Bytes Buffer Decimal Framing List

def respMaxArgs : Nat := 512

def maxReq : Nat := 1 <<< 20

abbrev lf : Byte := 0x0A#8

abbrev cr : Byte := 0x0D#8

/-- A span of the buffer: where it begins, and its length. -/
abbrev Span := Nat × Nat

/-- `memchr` for a line feed. -/
def findLf (s : List Byte) : Option Nat := s.findIdx? fun b => decide (b = lf)

def respLlSpan (p : List Byte) : Option Int := if p.length > 17 then none else parse p

/-! ### An inline command -/

def isBlank (b : Byte) : Bool := decide (b = 0x20#8 ∨ b = 0x09#8)

/-- The words of an inline line: at most `na` more, from position `s` on. -/
def inlineArgs : Nat → Nat → List Byte → List Span
  | 0, _, _ => []
  | na + 1, s, line =>
    let blanks := (line.takeWhile isBlank).length
    let word := ((line.drop blanks).takeWhile fun b => !isBlank b).length
    if line.drop blanks = [] then []
    else (s + blanks, word) :: inlineArgs na (s + blanks + word) (line.drop (blanks + word))

/-- A carriage return at the end of a line does not belong to it. -/
def chopCr (s : List Byte) : List Byte := if s.getLast? = some cr then s.dropLast else s

/-- `resp_one` where the first byte is not a star. -/
def inlineOne (base : List Byte) : Verdict (List Span) :=
  match findLf base with
  | none => if base.length > 65536 then .refuse else .wait
  | some nl => .frame (inlineArgs respMaxArgs 0 (chopCr (base.take nl))) (nl + 1)

/-! ### A multibulk command -/

/-- The number in front: from behind the first byte to the line feed at `nl`. -/
def numberTo (s : List Byte) (nl : Nat) : Option Int := respLlSpan (chopCr ((s.take nl).drop 1))

/-- The look-ahead for the line feed behind a number. -/
def findLf16 (s : List Byte) : Option Nat := findLf (s.take 16)

/-- One round of the loop over the arguments, at the bytes `rest`: where the argument is in them,
and how many of them it takes with its length and its line end. -/
def bulkOne (rest : List Byte) : Verdict Span :=
  if rest = [] then .wait
  else if rest.head? ≠ some 0x24#8 then .refuse
  else
    match findLf16 rest with
    | none => if rest.length ≥ 16 then .refuse else .wait
    | some nl =>
      match numberTo rest nl with
      | none => .refuse
      | some blen =>
        if blen < 0 ∨ blen > maxReq then .refuse
        else
          let body := rest.drop (nl + 1)
          if body.length < blen.toNat + 2 then .wait
          else
            let tail := body.drop blen.toNat
            let skip := if tail.head? = some cr then 1 else 0
            if tail[skip]? ≠ some lf then .refuse
            else .frame (nl + 1, blen.toNat) (nl + 1 + blen.toNat + skip + 1)

/-- The loop over the arguments, from position `pos` on. -/
def bulks : Nat → Nat → List Byte → Verdict (List Span)
  | 0, pos, _ => .frame [] pos
  | n + 1, pos, rest =>
    match bulkOne rest with
    | .wait => .wait
    | .refuse => .refuse
    | .frame s k => (bulks n (pos + k) (rest.drop k)).map ((pos + s.1, s.2) :: ·)

/-- `resp_one` where the first byte is a star. -/
def multibulkOne (base : List Byte) : Verdict (List Span) :=
  match findLf16 base with
  | none => if base.length ≥ 16 then .refuse else .wait
  | some nl =>
    match numberTo base nl with
    | none => .refuse
    | some nargs =>
      if nargs < 0 ∨ nargs > respMaxArgs then .refuse
      else bulks nargs.toNat (nl + 1) (base.drop (nl + 1))

/-- The verdict of `resp_one` on the bytes from `base` on, before anything is executed. -/
def respFrame (base : List Byte) : Verdict (List Span) :=
  if base.head? = some 0x2A#8 then multibulkOne base else inlineOne base

/-- The arguments that spans of the buffer stand for. -/
def argsAt (base : List Byte) (spans : List Span) : List (List Byte) :=
  spans.map fun s => slice base s.1 s.2

/-- The same with the arguments taken out of the buffer. -/
def respOne (base : List Byte) : Verdict (List (List Byte)) := (respFrame base).map (argsAt base)

/-- `resp_execute`, for a command with a word in it: `exec` says from the commands so far whether
the connection goes on. -/
def respAct (exec : List (List (List Byte)) → Bool) (done : List (List (List Byte)))
    (args : List (List Byte)) : List (List (List Byte)) × Bool :=
  if args = [] then (done, true) else (done ++ [args], exec (done ++ [args]))

/-! ### Line feeds -/

variable {s : List Byte} {nl : Nat}

theorem findLf_eq_some (h : findLf s = some nl) : nl < s.length :=
  (findIdx?_eq_some_iff_findIdx_eq.mp h).1

variable {p : List Byte}

theorem findLf_append (h : findLf p = some nl) (q : List Byte) : findLf (p ++ q) = some nl := by
  unfold findLf at *
  rw [findIdx?_append, h]
  rfl

theorem findLf16_eq_some (h : findLf16 s = some nl) : nl < s.length := by
  have := findLf_eq_some h
  rw [length_take] at this
  omega

theorem findLf16_append (h : findLf16 p = some nl) (q : List Byte) :
    findLf16 (p ++ q) = some nl := by
  unfold findLf16
  rw [take_append]
  exact findLf_append h _

theorem findLf16_append_none (h : findLf16 p = none) (hp : 16 ≤ p.length) (q : List Byte) :
    findLf16 (p ++ q) = none := by
  unfold findLf16
  rwa [take_append_of_le_length hp]

theorem numberTo_append (h : nl ≤ p.length) (q : List Byte) :
    numberTo (p ++ q) nl = numberTo p nl := by
  unfold numberTo
  rw [take_append_of_le_length h]

theorem findLf_of_line {t : List Byte} (hs : ∀ b ∈ s, b ≠ lf) :
    findLf (s ++ lf :: t) = some s.length := by
  unfold findLf
  rw [findIdx?_append, findIdx?_eq_none_iff.mpr (by simpa using hs), findIdx?_cons]
  simp

/-! ### More bytes do not change a verdict -/

/-- An argument that is all there, or wrong, stays so. -/
theorem bulkOne_append (h : bulkOne p ≠ .wait) (q : List Byte) : bulkOne (p ++ q) = bulkOne p := by
  unfold bulkOne at *
  by_cases hp : p = []
  · simp [hp] at h
  have hhead : (p ++ q).head? = p.head? := head?_append_of_ne_nil _ hp
  rw [if_neg hp] at h ⊢
  rw [if_neg (by simp [hp]), hhead]
  by_cases hdollar : p.head? ≠ some 0x24#8
  · rw [if_pos hdollar, if_pos hdollar]
  rw [if_neg hdollar] at h ⊢
  rw [if_neg hdollar]
  cases hnl : findLf16 p with
  | none =>
    simp only [hnl] at h ⊢
    by_cases h16 : p.length ≥ 16
    · rw [findLf16_append_none hnl h16]
      rw [if_pos h16, if_pos (by simp; omega)]
    · rw [if_neg h16] at h
      exact absurd rfl h
  | some nl =>
    have hlt := findLf16_eq_some hnl
    rw [findLf16_append hnl]
    simp only [hnl, numberTo_append (le_of_lt hlt)] at h ⊢
    cases hnum : numberTo p nl with
    | none => rfl
    | some blen =>
      simp only [hnum] at h ⊢
      by_cases hrange : blen < 0 ∨ blen > maxReq
      · rw [if_pos hrange, if_pos hrange]
      rw [if_neg hrange] at h ⊢
      rw [if_neg hrange, drop_append_of_le_length (by omega)]
      by_cases hbody : (p.drop (nl + 1)).length < blen.toNat + 2
      · rw [if_pos hbody] at h
        exact absurd rfl h
      rw [if_neg hbody, if_neg (by rw [length_append]; omega), drop_append_of_le_length (by omega)]
      -- two bytes at least are behind the body, and they decide
      have htail : 2 ≤ ((p.drop (nl + 1)).drop blen.toNat).length := by
        rw [length_drop]
        omega
      generalize (p.drop (nl + 1)).drop blen.toNat = tail at htail
      match tail, htail with
      | x :: y :: tail, _ => by_cases hx : x = cr <;> simp [hx]

variable {k : Nat}

/-- An argument lies within the bytes it takes. -/
theorem bulkOne_bounds {rest : List Byte} {s : Span} (h : bulkOne rest = .frame s k) :
    s.1 + s.2 < k ∧ k ≤ rest.length := by
  unfold bulkOne at h
  split at h
  · cases h
  split at h
  · cases h
  split at h
  · split at h <;> cases h
  split at h
  · cases h
  split at h
  · cases h
  dsimp only at h
  split at h
  · cases h
  rename_i hbody
  generalize (if ((rest.drop _).drop _).head? = some cr then 1 else 0) = skip at h
  split at h
  · cases h
  rename_i htail
  cases h
  rw [not_not] at htail
  have := (List.getElem?_eq_some_iff.mp htail).1
  simp only [List.length_drop] at this hbody ⊢
  omega

variable {n : Nat}

/-- So with all the arguments. -/
theorem bulks_append {pos : Nat} (h : bulks n pos p ≠ .wait) (q : List Byte) :
    bulks n pos (p ++ q) = bulks n pos p := by
  induction n generalizing pos p with
  | zero => rfl
  | succ n ih =>
    rw [bulks] at h ⊢
    rw [bulks]
    cases hone : bulkOne p with
    | wait =>
      rw [hone] at h
      exact absurd rfl h
    | refuse => rw [bulkOne_append (by simp [hone]), hone]
    | frame s k =>
      rw [hone] at h
      rw [bulkOne_append (by simp [hone]), hone]
      dsimp only at h ⊢
      rw [drop_append_of_le_length (bulkOne_bounds hone).2, ih]
      intro hwait
      rw [hwait] at h
      exact h rfl

variable {spans : List Span}

theorem bulks_bounds {pos : Nat} {rest : List Byte} (h : bulks n pos rest = .frame spans k) :
    pos ≤ k ∧ k ≤ pos + rest.length ∧ spans.length = n ∧ ∀ s ∈ spans, s.1 + s.2 ≤ k := by
  induction n generalizing pos rest spans with
  | zero =>
    cases h
    simp
  | succ n ih =>
    unfold bulks at h
    cases hone : bulkOne rest with
    | wait | refuse => simp [hone] at h
    | frame s₁ k₁ =>
      obtain ⟨hin, hle⟩ := bulkOne_bounds hone
      rw [hone] at h
      dsimp only at h
      cases hrest : bulks n (pos + k₁) (rest.drop k₁) with
      | wait | refuse => simp [hrest, Verdict.map] at h
      | frame spans' k' =>
        rw [hrest] at h
        cases h
        obtain ⟨hlo, hhi, hlen, hall⟩ := ih hrest
        rw [length_drop] at hhi
        refine ⟨by omega, by omega, by simp [hlen], ?_⟩
        refine forall_mem_cons.mpr ⟨?_, hall⟩
        omega

theorem multibulkOne_append (h : multibulkOne p ≠ .wait) (q : List Byte) :
    multibulkOne (p ++ q) = multibulkOne p := by
  unfold multibulkOne at *
  cases hnl : findLf16 p with
  | none =>
    simp only [hnl] at h ⊢
    by_cases h16 : p.length ≥ 16
    · rw [findLf16_append_none hnl h16]
      rw [if_pos h16, if_pos (by simp; omega)]
    · rw [if_neg h16] at h
      exact absurd rfl h
  | some nl =>
    have hlt := findLf16_eq_some hnl
    rw [findLf16_append hnl]
    simp only [hnl, numberTo_append (le_of_lt hlt)] at h ⊢
    cases hnum : numberTo p nl with
    | none => rfl
    | some nargs =>
      simp only [hnum] at h ⊢
      by_cases hrange : nargs < 0 ∨ nargs > respMaxArgs
      · rw [if_pos hrange, if_pos hrange]
      rw [if_neg hrange] at h ⊢
      rw [if_neg hrange, drop_append_of_le_length (by omega)]
      exact bulks_append h q

theorem inlineArgs_bounds (na s : Nat) (line : List Byte) :
    ∀ x ∈ inlineArgs na s line, x.1 + x.2 ≤ s + line.length := by
  induction na generalizing s line with
  | zero => simp [inlineArgs]
  | succ na ih =>
    unfold inlineArgs
    dsimp only
    split
    · simp
    have hblanks : (line.takeWhile isBlank).length ≤ line.length := (takeWhile_sublist _).length_le
    generalize (line.takeWhile isBlank).length = blanks at *
    have hword : ((line.drop blanks).takeWhile fun b => !isBlank b).length ≤
        (line.drop blanks).length := (takeWhile_sublist _).length_le
    generalize ((line.drop blanks).takeWhile fun b => !isBlank b).length = word at *
    rw [length_drop] at hword
    refine forall_mem_cons.mpr ⟨?_, fun x hx => ?_⟩
    · omega
    · have := ih _ _ x hx
      rw [length_drop] at this
      omega

theorem length_chopCr (s : List Byte) : (chopCr s).length ≤ s.length := by
  unfold chopCr
  split
  · rw [length_dropLast]
    omega
  · exact le_rfl

variable {base : List Byte}

/-- A command lies in the bytes it takes, and its arguments in it. -/
theorem respFrame_bounds (h : respFrame base = .frame spans n) :
    0 < n ∧ n ≤ base.length ∧ ∀ s ∈ spans, s.1 + s.2 ≤ n := by
  unfold respFrame at h
  split at h
  · unfold multibulkOne at h
    cases hnl : findLf16 base with
    | none =>
      simp only [hnl] at h
      split at h <;> cases h
    | some nl =>
      simp only [hnl] at h
      have hlt := findLf16_eq_some hnl
      split at h
      · cases h
      split at h
      · cases h
      obtain ⟨hlo, hhi, -, hall⟩ := bulks_bounds h
      rw [length_drop] at hhi
      exact ⟨by omega, by omega, hall⟩
  · unfold inlineOne at h
    cases hnl : findLf base with
    | none =>
      simp only [hnl] at h
      split at h <;> cases h
    | some nl =>
      simp only [hnl] at h
      have hlt := findLf_eq_some hnl
      cases h
      refine ⟨by omega, by omega, fun x hx => ?_⟩
      have := inlineArgs_bounds _ _ _ x hx
      have := length_chopCr (base.take nl)
      rw [length_take] at this
      omega

/-! ### The stream -/

/-- The length of the line in front. -/
def lineLen (s : List Byte) : Nat := (s.takeWhile fun b => decide (b ≠ lf)).length

/-- The places of a stream where a command begins. -/
inductive Start (s : List Byte) : Nat → Prop
  | zero : Start s 0
  | next {pos n : Nat} {spans : List Span} :
      Start s pos → respFrame (s.drop pos) = .frame spans n → Start s (pos + n)

/-- Every inline line of the stream has at most 65536 bytes, its line feed apart. -/
def ShortLines (s : List Byte) : Prop :=
  ∀ pos, Start s pos → (s.drop pos).head? ≠ some 0x2A#8 → lineLen (s.drop pos) ≤ 65536

theorem Start.drop (hk : Start s k) (h : Start (s.drop k) n) : Start s (k + n) := by
  induction h with
  | zero => exact hk
  | next _ hf ih =>
    rw [drop_drop] at hf
    rw [← Nat.add_assoc]
    exact .next ih hf

theorem lineLen_of_findLf_none (h : findLf p = none) (q : List Byte) :
    p.length ≤ lineLen (p ++ q) := by
  have hall : ∀ b ∈ p, decide (b ≠ lf) = true := by simpa [findLf] using h
  unfold lineLen
  rw [takeWhile_append_of_pos hall, length_append]
  omega

/-- More bytes change no verdict but the refusal of a line without its end. -/
theorem respFrame_append (hp : p ≠ []) (h : respFrame p ≠ .wait) (q : List Byte)
    (hline : p.head? ≠ some 0x2A#8 → respFrame p = .refuse → lineLen (p ++ q) ≤ 65536) :
    respFrame (p ++ q) = respFrame p := by
  unfold respFrame at *
  rw [head?_append_of_ne_nil _ hp]
  split at h
  · rename_i hstar
    rw [if_pos hstar, if_pos hstar]
    exact multibulkOne_append h q
  · rename_i hstar
    rw [if_neg hstar, if_neg hstar]
    rw [if_neg hstar] at hline
    unfold inlineOne at *
    cases hnl : findLf p with
    | none =>
      simp only [hnl] at h hline
      by_cases hlong : p.length > 65536
      · rw [if_pos hlong] at hline
        have := hline hstar rfl
        have := lineLen_of_findLf_none hnl q
        omega
      · rw [if_neg hlong] at h
        exact absurd rfl h
    | some nl =>
      have hlt := findLf_eq_some hnl
      rw [findLf_append hnl]
      dsimp only
      rw [take_append_of_le_length (le_of_lt hlt)]

theorem argsAt_append (hn : n ≤ p.length) (hall : ∀ s ∈ spans, s.1 + s.2 ≤ n) (q : List Byte) :
    argsAt (p ++ q) spans = argsAt p spans := by
  unfold argsAt slice
  refine map_congr_left fun s hs => ?_
  have := hall s hs
  rw [drop_append_of_le_length (by omega), take_append_of_le_length]
  rw [length_drop]
  omega

theorem respOne_eq_frame {args : List (List Byte)} (h : respOne base = .frame args n) :
    ∃ spans, respFrame base = .frame spans n ∧ args = argsAt base spans := by
  unfold respOne at h
  cases hf : respFrame base with
  | wait | refuse => simp [hf, Verdict.map] at h
  | frame spans k =>
    rw [hf] at h
    cases h
    exact ⟨spans, rfl, rfl⟩

theorem respOne_eq_refuse : respOne base = .refuse ↔ respFrame base = .refuse := by
  unfold respOne
  cases respFrame base <;> simp [Verdict.map]

theorem respOne_bounded : Bounded respOne := by
  intro p args n h
  obtain ⟨spans, hf, -⟩ := respOne_eq_frame h
  exact ⟨(respFrame_bounds hf).1, (respFrame_bounds hf).2.1⟩

theorem respOne_stable : Stable respOne ShortLines where
  frame := by
    intro p q args n hp h
    obtain ⟨spans, hf, rfl⟩ := respOne_eq_frame h
    obtain ⟨-, hn, hall⟩ := respFrame_bounds hf
    have happ := respFrame_append hp (by simp [hf]) q (by simp [hf])
    rw [respOne, happ, hf, Verdict.map, argsAt_append hn hall]
  refuse := by
    intro p q hp hgood h
    rw [respOne_eq_refuse] at h ⊢
    rw [respFrame_append hp (by simp [h]) q, h]
    intro hstar _
    refine hgood 0 .zero ?_
    rwa [drop_zero, head?_append_of_ne_nil _ hp]
  rest := by
    intro s args n hgood h
    obtain ⟨spans, hf, -⟩ := respOne_eq_frame h
    intro pos hpos hstar
    rw [drop_drop] at hstar ⊢
    refine hgood (n + pos) (Start.drop ?_ hpos) hstar
    simpa using Start.next .zero (by simpa using hf)

/-! ### The encoding of a command -/

def crlf : List Byte := [cr, lf]

def encodeBulk (a : List Byte) : List Byte := 0x24#8 :: natText a.length ++ crlf ++ a ++ crlf

def encodeCommand (args : List (List Byte)) : List Byte :=
  0x2A#8 :: natText args.length ++ crlf ++ args.flatMap encodeBulk

/-- A first byte, a number and a line end: where the line feed is, and what the number is. -/
theorem number_encoded {c : Byte} (hc : c ≠ lf) (hn : n < 10 ^ 13) (t : List Byte) :
    let s := c :: natText n ++ crlf ++ t
    let nl := (natText n).length + 2
    findLf16 s = some nl ∧ numberTo s nl = some (n : Int) ∧ s.drop (nl + 1) = t := by
  have hlen := length_natText_le (by omega) hn
  have hs : c :: natText n ++ crlf ++ t = (c :: natText n ++ [cr]) ++ lf :: t := by simp [crlf]
  have hfront : (c :: natText n ++ [cr]).length = (natText n).length + 2 := by simp
  have hdigit : ∀ b ∈ natText n, b ≠ lf := by
    intro b hb hlf
    have := isDigit_natText n b hb
    subst hlf
    revert this
    decide
  rw [hs]
  refine ⟨?_, ?_, ?_⟩
  · unfold findLf16
    rw [take_append, take_of_length_le (by omega)]
    obtain ⟨m, hm⟩ : ∃ m, 16 - (c :: natText n ++ [cr]).length = m + 1 :=
      ⟨13 - (natText n).length, by omega⟩
    rw [hm, take_succ_cons, findLf_of_line, hfront]
    intro b hb
    simp only [cons_append, mem_cons, mem_append, not_mem_nil, or_false] at hb
    rcases hb with rfl | hb | rfl
    · exact hc
    · exact hdigit b hb
    · decide
  · unfold numberTo
    rw [← hfront, take_left]
    simp only [cons_append, drop_succ_cons, drop_zero]
    rw [chopCr, getLast?_concat, if_pos rfl, dropLast_concat, respLlSpan,
      if_neg (by omega), parse_natText]
  · rw [← hfront, drop_append, drop_of_length_le (by omega)]
    simp

theorem bulkOne_encoded {a : List Byte} (ha : a.length ≤ maxReq) (t : List Byte) :
    ∃ off, bulkOne (encodeBulk a ++ t) = .frame (off, a.length) (encodeBulk a).length ∧
      slice (encodeBulk a ++ t) off a.length = a := by
  have hmax : maxReq < 10 ^ 13 := by decide
  have hs : encodeBulk a ++ t =
      0x24#8 :: natText a.length ++ crlf ++ (a ++ crlf ++ t) := by simp [encodeBulk]
  obtain ⟨hnl, hnum, hdrop⟩ :=
    number_encoded (c := 0x24#8) (by decide) (lt_of_le_of_lt ha hmax) (a ++ crlf ++ t)
  have hlen : (encodeBulk a).length = (natText a.length).length + 2 + 1 + a.length + 1 + 1 := by
    simp [encodeBulk, crlf]
    omega
  refine ⟨(natText a.length).length + 2 + 1, ?_, ?_⟩
  · unfold bulkOne
    rw [hs, if_neg (by simp), if_neg (by simp), hnl]
    simp only
    rw [hnum]
    simp only
    rw [if_neg (by omega), hdrop, if_neg (by simp [crlf]), hlen]
    simp [crlf]
  · rw [hs, slice, hdrop, append_assoc, take_left]

/-- Arguments are read where they were written. -/
theorem bulks_encoded (args : List (List Byte)) (hargs : ∀ a ∈ args, a.length ≤ maxReq)
    (front t : List Byte) :
    ∃ spans, bulks args.length front.length (args.flatMap encodeBulk ++ t) =
        .frame spans (front ++ args.flatMap encodeBulk).length ∧
      argsAt (front ++ (args.flatMap encodeBulk ++ t)) spans = args := by
  induction args generalizing front with
  | nil => exact ⟨[], by simp [bulks], rfl⟩
  | cons a args ih =>
    obtain ⟨ha, hrest⟩ := forall_mem_cons.mp hargs
    obtain ⟨off, hone, hslice⟩ := bulkOne_encoded ha (args.flatMap encodeBulk ++ t)
    obtain ⟨spans, hspans, hargs'⟩ := ih hrest (front ++ encodeBulk a)
    refine ⟨(front.length + off, a.length) :: spans, ?_, ?_⟩
    · rw [length_cons, bulks, flatMap_cons, append_assoc, hone]
      dsimp only
      rw [drop_left, ← length_append, hspans]
      simp [Verdict.map]
    · rw [argsAt, map_cons]
      congr 1
      · unfold slice at hslice ⊢
        rw [flatMap_cons, append_assoc, ← drop_drop, drop_left, hslice]
      · rw [flatMap_cons, append_assoc, ← append_assoc front]
        exact hargs'

/-- What a client sends for a command is read as that command, whatever follows. -/
theorem respOne_encoded {args : List (List Byte)} (hn : args.length ≤ respMaxArgs)
    (hargs : ∀ a ∈ args, a.length ≤ maxReq) (t : List Byte) :
    respOne (encodeCommand args ++ t) = .frame args (encodeCommand args).length := by
  have hmax : respMaxArgs < 10 ^ 13 := by decide
  have hs : encodeCommand args ++ t =
      0x2A#8 :: natText args.length ++ crlf ++ (args.flatMap encodeBulk ++ t) := by
    simp [encodeCommand]
  obtain ⟨hnl, hnum, hdrop⟩ := number_encoded (c := 0x2A#8) (by decide)
    (lt_of_le_of_lt hn hmax) (args.flatMap encodeBulk ++ t)
  have hfront : (0x2A#8 :: natText args.length ++ crlf).length =
      (natText args.length).length + 2 + 1 := by simp [crlf]
  obtain ⟨spans, hspans, hargs'⟩ :=
    bulks_encoded args hargs (0x2A#8 :: natText args.length ++ crlf) t
  have hframe : respFrame (encodeCommand args ++ t) = .frame spans (encodeCommand args).length := by
    rw [respFrame, if_pos (by simp [encodeCommand]), multibulkOne, hs, hnl]
    simp only
    rw [hnum]
    simp only
    rw [if_neg (by omega), hdrop, ← hfront, Int.toNat_natCast, hspans]
    rfl
  rw [respOne, hframe, Verdict.map, hs, hargs']

/-! ### Commands from a stream -/

/-- The connection: `resp_one` for as long as it consumes, after each read. -/
def respStream (exec : List (List (List Byte)) → Bool) (reads : List (List Byte)) :
    Reader (List (List (List Byte))) Byte :=
  feedAll respOne (respAct exec) (.start []) reads

/-- **The commands do not depend on the reads.** On a stream with short inline lines the commands
executed, and whether and where the stream is refused, are those of the stream in one piece; every
argument lies in the bytes its command takes, and those in the buffer; and the encoding of a command
within the limits is read as that command. -/
theorem resp_stream (exec : List (List (List Byte)) → Bool) (reads : List (List Byte))
    (hlines : ShortLines reads.flatten) :
    (respStream exec reads).seen = (respStream exec [reads.flatten]).seen ∧
    (∀ base spans n, respFrame base = .frame spans n →
      n ≤ base.length ∧ ∀ s ∈ spans, s.1 + s.2 ≤ n) ∧
    (∀ args : List (List Byte), args.length ≤ respMaxArgs → (∀ a ∈ args, a.length ≤ maxReq) →
      ∀ t, respOne (encodeCommand args ++ t) = .frame args (encodeCommand args).length) := by
  refine ⟨?_, ?_, ?_⟩
  · exact feedAll_eq respOne_bounded respOne_stable [] reads hlines
  · intro base spans n h
    exact (respFrame_bounds h).2
  · intro args hn hargs t
    exact respOne_encoded hn hargs t

theorem shortLines_of_length (h : s.length ≤ 65536) : ShortLines s := by
  intro pos _ _
  have hline : lineLen (s.drop pos) ≤ (s.drop pos).length := (takeWhile_sublist _).length_le
  rw [length_drop] at hline
  omega

/-- A command cut inside its argument, with an inline command behind it. -/
theorem resp_stream_cut : (respStream (fun _ => true)
      [[0x2A#8, 0x31#8, 0x0D#8, 0x0A#8, 0x24#8, 0x32#8, 0x0D#8, 0x0A#8, 0x68#8],
        [0x69#8, 0x0D#8, 0x0A#8, 0x79#8], [0x0A#8]]).seen =
      ([[[0x68#8, 0x69#8]], [[0x79#8]]], 14, false) :=
  (resp_stream (fun _ => true) _ (shortLines_of_length (by decide))).1.trans (by decide)

end Perfcached.Resp
