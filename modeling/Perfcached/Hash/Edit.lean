import Perfcached.Hash.Record

/-!
# Perfcached.Hash.Edit

The edits of a hash record (`src/hashrec.c`): the new record is built in the caller's buffer out of
pieces of the old one, after its length has been checked.

Each path of `pc_hr_set` and `pc_hr_del` is one equation: the buffer is the record of the new list
of entries with the rest of the old buffer behind it, or nothing has been written (`edited`).

The sums of lengths do not leave `size_t`: a record is at most `PC_HR_MAX` long, and a field and a
value are objects in memory.
-/

namespace Perfcached.Hash

open Bytes Buffer List Option Nat

def pcHrESize : Int := -2
def pcHrENum : Int := -3
def pcHrEArg : Int := -5

/-- What an edit answers: the new length or an error, the caller's buffer, and `*added` or
`*removed`. -/
structure Edit where
  ret : Int
  out : List Byte
  flag : Bool
deriving DecidableEq

def hdr (out : List Byte) (cnt : Nat) : List Byte :=
  let out := put out 0 [1, 0, 0, 0]
  put out 4 (leBytes 4 cnt)

def pcHrSet (r field val : List Byte) (nx : Bool) (out : List Byte) (cap : Nat) : Edit :=
  let flen := field.length
  let vlen := val.length
  let absent : Bool := decide (r.length < pcHrHdr)
  let cnt := if absent then 0 else r32 r 4
  if flen = 0 ∨ flen > pcHrFieldMax then ⟨pcHrEArg, out, false⟩
  else
    let n := if absent then pcHrHdr else r.length
    let pos := if absent then 0 else find r field
    if pos ≠ 0 ∧ nx then
      if n > cap then ⟨pcHrESize, out, false⟩ else ⟨n, put out 0 r, false⟩
    else if pos ≠ 0 then
      let ofl := r16 r pos
      let ovl := r32 r (pos + 2)
      let tail := pos + 6 + ofl + ovl
      let need := n - ovl + vlen
      if need > pcHrMax ∨ need > cap then ⟨pcHrESize, out, false⟩
      else
        let out := put out 0 (slice r 0 (pos + 6 + ofl))
        let out := put out (pos + 2) (leBytes 4 vlen)
        let out := put out (pos + 6 + ofl) val
        let out := put out (pos + 6 + ofl + vlen) (slice r tail (n - tail))
        ⟨need, out, false⟩
    else
      let need := n + 6 + flen + vlen
      if need > pcHrMax ∨ need > cap then ⟨pcHrESize, out, false⟩
      else
        let out := if absent then out else put out 0 r
        let out := hdr out (cnt + 1)
        let out := put out n (leBytes 2 flen)
        let out := put out (n + 2) (leBytes 4 vlen)
        let out := put out (n + 6) field
        let out := put out (n + 6 + flen) val
        ⟨need, out, true⟩

def pcHrDel (r field out : List Byte) (cap : Nat) : Edit :=
  if r.length < pcHrHdr then
    if cap < pcHrHdr then ⟨pcHrESize, out, false⟩ else ⟨pcHrHdr, hdr out 0, false⟩
  else
    let n := r.length
    let pos := find r field
    if pos = 0 then
      if n > cap then ⟨pcHrESize, out, false⟩ else ⟨n, put out 0 r, false⟩
    else
      let len := 6 + r16 r pos + r32 r (pos + 2)
      let keep := n - len
      if keep > cap then ⟨pcHrESize, out, false⟩
      else
        let out := put out 0 (slice r 0 pos)
        let out := put out pos (slice r (pos + len) (n - pos - len))
        let out := hdr out (r32 r 4 - 1)
        ⟨keep, out, true⟩

theorem hdr_eq (out : List Byte) (cnt : Nat) : hdr out cnt = head cnt ++ out.drop pcHrHdr := by
  rw [hdr, put_zero, put_end (o := 4) rfl, drop_drop, length_leBytes]
  rfl

/-! ### The edits -/

/-- What a hash is read from: a record, or too few bytes for one, which stand for no field. -/
def Reads (r : List Byte) (es : List (List Byte × List Byte)) : Prop :=
  r = record es ∨ r.length < pcHrHdr ∧ es = []

variable {r field : List Byte} {es : List (List Byte × List Byte)}

open OrderedMap

theorem Reads.find_of_not_mem (h : Reads r es) (hes : Fits es)
    (hfield : field ∉ keys es) : find r field = 0 := by
  rcases h with rfl | ⟨hshort, rfl⟩
  · exact Hash.find_of_not_mem hes.small hfield _
  · exact if_pos hshort

theorem Reads.record_of_mem (h : Reads r es) (hfield : field ∈ keys es) : r = record es := by
  rcases h with rfl | ⟨hshort, rfl⟩
  · rfl
  · cases hfield

/-- A record in three parts: what is before an entry, the entry and what is behind it. -/
theorem record_split (p q : List (List Byte × List Byte)) (e : List Byte × List Byte) :
    record (p ++ e :: q) = head (p ++ e :: q).length ++ body p ++ encode e ++ body q := by
  simp only [record, body_append, body_cons, append_assoc]

variable {p q : List (List Byte × List Byte)} {v : List Byte}

/-- The field's entry, where the lookup finds it. -/
theorem find_record (hes : Fits (p ++ (field, v) :: q)) (hp : field ∉ keys p) :
    ∃ a, record (p ++ (field, v) :: q) = a ++ encode (field, v) ++ body q ∧
      a = head (p ++ (field, v) :: q).length ++ body p ∧ a.length ≠ 0 ∧
      find (record (p ++ (field, v) :: q)) field = a.length ∧
      r16 (record (p ++ (field, v) :: q)) a.length = field.length ∧
      r32 (record (p ++ (field, v) :: q)) (a.length + 2) = v.length := by
  have hsmall := hes.small (field, v) (mem_append_right _ mem_cons_self)
  refine ⟨_, record_split p q (field, v), rfl, ?_, ?_, ?_, ?_⟩
  · rw [length_append, length_head, pcHrHdr]
    omega
  · exact find_of_split hes.small hp _
  · rw [record_split]
    exact r16_at hsmall.1
  · rw [record_split]
    exact r32_at hsmall.2

theorem pcHrGet_eq (h : Reads r es) (hes : Fits es) (field : List Byte) :
    (pcHrGet r field).map (fun v => slice r v.1 v.2) = es.lookup field := by
  by_cases hfield : field ∈ keys es
  · obtain rfl := h.record_of_mem hfield
    obtain ⟨p, v, q, rfl, hp⟩ := exists_split hfield
    obtain ⟨a, hsplit, -, hpos, hfind, h16, h32⟩ := find_record hes hp
    simp only [pcHrGet, hfind, h16, h32, if_neg hpos, map_some]
    rw [hsplit, slice_val, lookup_of_split hp]
  · simp only [pcHrGet, h.find_of_not_mem hes hfield, if_pos, map_none]
    rw [lookup_of_not_mem hfield]

/-- What an edit leaves where its result is the record of `es`: the record and the rest of the
buffer, or a refusal. -/
def edited (es : List (List Byte × List Byte)) (flag : Bool) (out : List Byte) (cap : Nat) : Edit :=
  if size es > pcHrMax ∨ size es > cap then ⟨pcHrESize, out, false⟩
  else ⟨size es, record es ++ out.drop (size es), flag⟩

/-- The new list of `pc_hr_set`. -/
def setEntries (es : List (List Byte × List Byte)) (field val : List Byte) (nx : Bool) :
    List (List Byte × List Byte) :=
  if field ∈ OrderedMap.keys es ∧ nx then es else OrderedMap.set es field val

theorem size_append (es es' : List (List Byte × List Byte)) :
    size (es ++ es') = size es + (body es').length := by
  rw [← length_body, ← length_body, body_append, length_append, add_assoc]

theorem not_length_record_lt (es : List (List Byte × List Byte)) :
    ¬ (record es).length < pcHrHdr := by
  rw [length_record, size]
  omega

theorem Fits.field_ok (h : Fits es) {e : List Byte × List Byte} (he : e ∈ es) :
    ¬ (e.1.length = 0 ∨ e.1.length > pcHrFieldMax) := by
  have hpos := h.pos e he
  have hmax := h.field e he
  omega

theorem copied (hes : Fits es) (out : List Byte) (cap : Nat) :
    (if (record es).length > cap then ⟨pcHrESize, out, false⟩
      else ⟨(record es).length, put out 0 (record es), false⟩ : Edit) =
        edited es false out cap := by
  have hmax : ¬ size es > pcHrMax := not_lt.mpr hes.size
  simp only [edited, hmax, false_or, length_record, put_zero]

variable {val : List Byte}

/-- The copies of a replacement: the record up to the value, the new length of the value, the new
value and the rest. -/
theorem put_replaced {a f b out : List Byte} {i j k : Nat} (hi : i = a.length + 2)
    (hj : j = a.length + 6 + f.length) (hk : k = j + val.length) :
    put (put (put (put out 0 (a ++ leBytes 2 f.length ++ leBytes 4 v.length ++ f)) i
        (leBytes 4 val.length)) j val) k b =
      a ++ encode (f, val) ++ b ++ out.drop (a ++ encode (f, val) ++ b).length := by
  have hlen : (a ++ leBytes 2 f.length).length = i := by simp [hi]
  have hlen' : (a ++ leBytes 2 f.length ++ leBytes 4 val.length ++ f).length = j := by
    simp only [length_append, length_leBytes, hj, add_assoc, reduceAdd]
  have hlen'' : (a ++ leBytes 2 f.length ++ leBytes 4 val.length ++ f ++ val).length = k := by
    rw [length_append, hlen', hk]
  have hold : (leBytes 4 v.length).length = (leBytes 4 val.length).length := by simp
  rw [put_zero, append_assoc (a ++ leBytes 2 f.length ++ leBytes 4 v.length),
    put_mid hlen hold, ← append_assoc, put_end hlen', put_end hlen'', drop_drop,
    drop_drop, encode]
  simp only [append_assoc, length_append, length_leBytes]
  congr 7
  omega

section

variable (hes : Fits (p ++ (field, v) :: q)) (hp : field ∉ keys p) (val out : List Byte) (cap : Nat)
include hes hp

theorem pcHrSet_replaced :
    pcHrSet (record (p ++ (field, v) :: q)) field val false out cap =
      edited (p ++ (field, val) :: q) false out cap := by
  obtain ⟨a, hsplit, ha, hpos, hfind, h16, h32⟩ := find_record hes hp
  have hmem : (field, v) ∈ p ++ (field, v) :: q := mem_append_right _ mem_cons_self
  have hflen := hes.field_ok hmem
  have hnew : record (p ++ (field, val) :: q) = a ++ encode (field, val) ++ body q := by
    rw [record_split, ha]
    simp only [length_append, length_cons]
  have hhdr := not_length_record_lt (p ++ (field, v) :: q)
  generalize record (p ++ (field, v) :: q) = r at *
  have hn : r.length = a.length + (6 + field.length + v.length) + (body q).length := by
    rw [hsplit, length_append, length_append, length_encode]
  have hneed : r.length - v.length + val.length = size (p ++ (field, val) :: q) := by
    rw [← length_record, hnew, hn, length_append, length_append, length_encode]
    simp only
    omega
  have hfront : slice r 0 (a.length + 6 + field.length) =
      a ++ leBytes 2 field.length ++ leBytes 4 v.length ++ field := by
    have hencode : a ++ encode (field, v) ++ body q =
        a ++ leBytes 2 field.length ++ leBytes 4 v.length ++ field ++ (v ++ body q) := by
      simp only [encode, append_assoc]
    rw [hsplit, hencode]
    refine slice_front ?_
    simp only [length_append, length_leBytes, add_assoc, reduceAdd]
  have htail : slice r (a.length + 6 + field.length + v.length)
      (r.length - (a.length + 6 + field.length + v.length)) = body q := by
    rw [hn, hsplit]
    refine slice_rest ?_ (by omega)
    rw [length_append, length_encode_mk]
    omega
  simp only [pcHrSet, hflen, hhdr, hfind, hpos, h16, h32, hneed, hfront, htail, edited,
    decide_false, ne_eq, not_false_eq_true, and_false, Bool.false_eq_true, if_false, if_true]
  rw [put_replaced rfl rfl rfl, ← hnew, length_record]

theorem pcHrSet_kept :
    pcHrSet (record (p ++ (field, v) :: q)) field val true out cap =
      edited (p ++ (field, v) :: q) false out cap := by
  obtain ⟨a, -, -, hpos, hfind, -, -⟩ := find_record hes hp
  have hmem : (field, v) ∈ p ++ (field, v) :: q := mem_append_right _ mem_cons_self
  have hflen := hes.field_ok hmem
  have hhdr := not_length_record_lt (p ++ (field, v) :: q)
  simp only [pcHrSet, hflen, hhdr, hfind, hpos, decide_false, ne_eq, not_false_eq_true, and_self,
    Bool.false_eq_true, if_false, if_true]
  exact copied hes out cap

end

/-- The copies of an appended entry behind the new header. -/
theorem put_appended {a f c : List Byte} {n : Nat} (hn : a.length = n) :
    put (put (put (put (a ++ c) n (leBytes 2 f.length)) (n + 2) (leBytes 4 val.length)) (n + 6) f)
        (n + 6 + f.length) val = a ++ encode (f, val) ++ c.drop (encode (f, val)).length := by
  have h2 : (a ++ leBytes 2 f.length).length = n + 2 := by simp [hn]
  have h6 : (a ++ leBytes 2 f.length ++ leBytes 4 val.length).length = n + 6 := by simp [hn]
  have hf : (a ++ leBytes 2 f.length ++ leBytes 4 val.length ++ f).length = n + 6 + f.length := by
    rw [length_append, h6]
  rw [put_end hn, put_end h2, put_end h6, put_end hf, drop_drop, drop_drop, drop_drop, encode]
  simp only [append_assoc, length_append, length_leBytes]

section

variable (h : Reads r es) (hes : Fits es)
include h hes

/-- What an append starts from: the length, no entry, and the record with the new count. -/
theorem Reads.append_start (hfield : field ∉ keys es) (out : List Byte) :
    (if decide (r.length < pcHrHdr) = true then pcHrHdr else r.length) = size es ∧
      (if decide (r.length < pcHrHdr) = true then 0 else find r field) = 0 ∧
      hdr (if decide (r.length < pcHrHdr) = true then out else put out 0 r)
          ((if decide (r.length < pcHrHdr) = true then 0 else r32 r 4) + 1) =
        head (es.length + 1) ++ body es ++ out.drop (size es) := by
  have hfind := h.find_of_not_mem hes hfield
  rcases h with rfl | ⟨hshort, rfl⟩
  · have hhdr : ¬ decide ((record es).length < pcHrHdr) = true := by
      simpa using not_length_record_lt es
    rw [if_neg hhdr, if_neg hhdr, if_neg hhdr, if_neg hhdr]
    refine ⟨length_record es, hfind, ?_⟩
    rw [hdr_eq, put_zero, r32_record hes, length_record, record, append_assoc,
      append_assoc, drop_left' (length_head _)]
  · have hhdr := decide_eq_true hshort
    rw [if_pos hhdr, if_pos hhdr, if_pos hhdr, if_pos hhdr]
    refine ⟨rfl, rfl, ?_⟩
    rw [hdr_eq, body_nil, append_nil]
    rfl

theorem pcHrSet_appended (hfield : field ∉ keys es)
    (hflen : ¬ (field.length = 0 ∨ field.length > pcHrFieldMax)) (val : List Byte) (nx : Bool)
    (out : List Byte) (cap : Nat) :
    pcHrSet r field val nx out cap = edited (es ++ [(field, val)]) true out cap := by
  have hneed : size es + 6 + field.length + val.length = size (es ++ [(field, val)]) := by
    rw [size_append, body_cons, body_nil, append_nil, length_encode_mk]
    omega
  have hnew : record (es ++ [(field, val)]) =
      head (es.length + 1) ++ body es ++ encode (field, val) := by
    simp only [record, body_append, body_cons, body_nil, append_nil, length_append,
      length_cons, length_nil, zero_add, append_assoc]
  have hhead : (head (es.length + 1) ++ body es).length = size es := by
    rw [length_append, length_head, length_body]
  obtain ⟨hn, hpos, hcopy⟩ := h.append_start hes hfield out
  simp only [pcHrSet, hflen, hpos, hn, hneed, hcopy, ne_eq, not_true_eq_false, false_and, if_false]
  rw [put_appended hhead, drop_drop, edited, hnew, length_encode_mk, ← hneed]
  simp only [add_assoc]

theorem pcHrSet_eq (hflen : ¬ (field.length = 0 ∨ field.length > pcHrFieldMax)) (val : List Byte)
    (nx : Bool) (out : List Byte) (cap : Nat) :
    pcHrSet r field val nx out cap =
      edited (setEntries es field val nx) (decide (field ∉ keys es)) out cap := by
  by_cases hfield : field ∈ keys es
  · obtain rfl := h.record_of_mem hfield
    rw [decide_eq_false (not_not.mpr hfield)]
    obtain ⟨p, v, q, rfl, hp⟩ := exists_split hfield
    cases nx with
    | false =>
      rw [pcHrSet_replaced hes hp, setEntries, if_neg (fun h => absurd h.2 Bool.false_ne_true),
        set_of_split hp]
    | true => rw [pcHrSet_kept hes hp, setEntries, if_pos ⟨hfield, rfl⟩]
  · rw [decide_eq_true hfield, pcHrSet_appended h hes hfield hflen, setEntries,
      if_neg fun h => hfield h.1, set_of_not_mem hfield]

end

theorem pcHrDel_removed (hes : Fits (p ++ (field, v) :: q)) (hp : field ∉ keys p)
    (out : List Byte) (cap : Nat) :
    pcHrDel (record (p ++ (field, v) :: q)) field out cap = edited (p ++ q) true out cap := by
  obtain ⟨a, hsplit, ha, hpos, hfind, h16, h32⟩ := find_record hes hp
  have hhdr := not_length_record_lt (p ++ (field, v) :: q)
  have hsize := hes.size
  have hcnt : r32 (record (p ++ (field, v) :: q)) 4 - 1 = (p ++ q).length := by
    rw [r32_record hes]
    simp only [length_append, length_cons]
    omega
  rw [← length_record] at hsize
  generalize record (p ++ (field, v) :: q) = r at *
  have hn : r.length = a.length + (6 + field.length + v.length) + (body q).length := by
    rw [hsplit, length_append, length_append, length_encode_mk]
  have halen : a.length = size p := by rw [ha, length_append, length_head, length_body]
  have hkeep : r.length - (6 + field.length + v.length) = size (p ++ q) := by
    rw [hn, size_append, halen]
    omega
  have hmax : ¬ size (p ++ q) > pcHrMax := by omega
  have hfront : slice r 0 a.length = a := by
    rw [hsplit, append_assoc]
    exact slice_front rfl
  have hrest : slice r (a.length + (6 + field.length + v.length))
      (r.length - a.length - (6 + field.length + v.length)) = body q := by
    rw [hn, hsplit]
    refine slice_rest ?_ (by omega)
    rw [length_append, length_encode_mk]
  -- the two copies side by side, under a new header
  have hcopy : hdr (put (put out 0 a) a.length (body q)) (p ++ q).length =
      record (p ++ q) ++ out.drop (size (p ++ q)) := by
    rw [put_zero, put_end rfl, hdr_eq, drop_drop, ha, append_assoc, append_assoc,
      drop_left' (length_head _), ← ha, halen, ← size_append, record, body_append]
    simp only [append_assoc]
  simp only [pcHrDel, hhdr, hfind, hpos, h16, h32, hkeep, hfront, hrest, hcnt, hcopy, edited, hmax,
    if_false, false_or]

theorem pcHrDel_eq (h : Reads r es) (hes : Fits es) (field out : List Byte) (cap : Nat) :
    pcHrDel r field out cap =
      edited (del es field) (decide (field ∈ keys es)) out cap := by
  by_cases hfield : field ∈ keys es
  · obtain rfl := h.record_of_mem hfield
    rw [decide_eq_true hfield]
    obtain ⟨p, v, q, rfl, hp⟩ := exists_split hfield
    rw [pcHrDel_removed hes hp, del_of_split hp]
  · have hfind := h.find_of_not_mem hes hfield
    rw [decide_eq_false hfield, del_of_not_mem hfield]
    rcases h with rfl | ⟨hshort, rfl⟩
    · simp only [pcHrDel, not_length_record_lt es, hfind, if_true, if_false]
      exact copied hes out cap
    · simp only [pcHrDel, hshort, if_true, hdr_eq, edited]
      have hsize : size [] = pcHrHdr := rfl
      have hmax : ¬ pcHrHdr > pcHrMax := by decide
      simp only [hsize, hmax, false_or]
      rfl

/-! ### What the edits amount to -/

theorem Fits.setEntries (h : Fits es) (hflen : ¬ (field.length = 0 ∨ field.length > pcHrFieldMax))
    {nx : Bool} (hsize : Hash.size (Hash.setEntries es field val nx) ≤ pcHrMax) :
    Fits (Hash.setEntries es field val nx) := by
  have hmem : ∀ e ∈ Hash.setEntries es field val nx, e.1 = field ∨ e ∈ es := by
    intro e he
    rw [Hash.setEntries] at he
    split at he
    · exact .inr he
    · exact mem_set he
  refine ⟨fun e he => ?_, fun e he => ?_, hsize⟩
  · rcases hmem e he with heq | hold
    · rw [heq]
      omega
    · exact h.pos e hold
  · rcases hmem e he with heq | hold
    · rw [heq]
      omega
    · exact h.field e hold

theorem Fits.del (h : Fits es) (field : List Byte)
    (hsize : Hash.size (del es field) ≤ pcHrMax) : Fits (del es field) :=
  ⟨fun e he => h.pos e (mem_of_mem_del he),
    fun e he => h.field e (mem_of_mem_del he), hsize⟩

/-- What `pc_hr_set` answers: a refusal of the field, a refusal for the size, or the new record. -/
theorem pcHrSet_cases (h : Reads r es) (hes : Fits es) (field val out : List Byte) (cap : Nat) :
    let e := pcHrSet r field val false out cap
    e.ret = pcHrEArg ∧ (field.length = 0 ∨ field.length > pcHrFieldMax) ∨
    e.ret = pcHrESize ∧ (size (set es field val) > pcHrMax ∨ size (set es field val) > cap) ∨
    0 ≤ e.ret ∧ Fits (set es field val) ∧ e.out.take e.ret.toNat = record (set es field val) := by
  by_cases hflen : field.length = 0 ∨ field.length > pcHrFieldMax
  · exact .inl ⟨by simp only [pcHrSet, if_pos hflen], hflen⟩
  have hset : Hash.setEntries es field val false = set es field val :=
    if_neg fun h => absurd h.2 Bool.false_ne_true
  simp only [pcHrSet_eq h hes hflen, edited, hset]
  split_ifs with hsize
  · exact .inr (.inl ⟨rfl, hsize⟩)
  · have hfits : Fits (Hash.setEntries es field val false) :=
      hes.setEntries hflen (by rw [hset]; omega)
    exact .inr (.inr ⟨Int.natCast_nonneg _, hset ▸ hfits, take_left' (length_record _)⟩)

/-- The bytes are a valid record, its count is the number of the entries and iterating gives
them. -/
def Holds (r : List Byte) (es : List (List Byte × List Byte)) : Prop :=
  pcHrValid r = some es.length ∧ pcHrIter r = es

/-- An edit to `es`: where they fit `PC_HR_MAX` and the capacity, the record in the first bytes of
the buffer and nothing behind it touched; where they do not, a refusal and nothing touched. -/
def EditedTo (e : Edit) (es : List (List Byte × List Byte)) (flag : Bool) (out : List Byte)
    (cap : Nat) : Prop :=
  e.out.length = out.length ∧
  (size es ≤ pcHrMax ∧ size es ≤ cap →
    e.ret = size es ∧ e.flag = flag ∧ Holds (e.out.take (size es)) es ∧
      e.out.drop (size es) = out.drop (size es)) ∧
  (¬ (size es ≤ pcHrMax ∧ size es ≤ cap) → e = ⟨pcHrESize, out, false⟩)

theorem editedTo_edited {flag : Bool} {out : List Byte} {cap : Nat}
    (hes : size es ≤ pcHrMax → Fits es) (hcap : cap ≤ out.length) :
    EditedTo (edited es flag out cap) es flag out cap := by
  by_cases hsize : size es ≤ pcHrMax ∧ size es ≤ cap
  · have hlen := length_record es
    rw [edited, if_neg (by omega)]
    refine ⟨?_, fun _ => ⟨rfl, rfl, ?_, ?_⟩, fun h => absurd hsize h⟩
    · simp only [length_append, length_drop]
      omega
    · rw [take_left' hlen]
      exact ⟨pcHrValid_record (hes hsize.1), pcHrIter_record (hes hsize.1)⟩
    · exact drop_left' hlen
  · rw [edited, if_pos (by omega)]
    exact ⟨rfl, fun h => absurd h hsize, fun _ => rfl⟩

theorem pcHrGet_inside (hes : Fits es) {v : Nat × Nat} (h : pcHrGet (record es) field = some v) :
    v.1 + v.2 ≤ (record es).length := by
  by_cases hfield : field ∈ keys es
  · obtain ⟨p, val, q, rfl, hp⟩ := exists_split hfield
    obtain ⟨a, hsplit, -, hpos, hfind, h16, h32⟩ := find_record hes hp
    simp only [pcHrGet, hfind, h16, h32, if_neg hpos, some.injEq] at h
    rw [← h, hsplit, length_append, length_append, length_encode_mk]
    omega
  · have hfind := Reads.find_of_not_mem (.inl rfl) hes hfield
    simp only [pcHrGet, hfind, if_true, reduceCtorEq] at h

/-- **A hash record is an insertion-ordered map.** For every valid record: the stored count is the
number of its entries; `pc_hr_get` finds the first entry of the field; `pc_hr_set` and `pc_hr_del`
edit to the list with that entry's value replaced in place, a new entry at the end, or that entry
gone, and refuse for the size exactly if this does not fit `PC_HR_MAX` and the capacity; and where
no field stands twice, none does afterwards. -/
theorem hash_record_ordered (r : List Byte) (cnt : Nat) (hr : pcHrValid r = some cnt) :
    (pcHrIter r).length = cnt ∧
    (∀ field, (pcHrGet r field).map (fun v => slice r v.1 v.2) = (pcHrIter r).lookup field ∧
      ∀ v, pcHrGet r field = some v → v.1 + v.2 ≤ r.length) ∧
    (∀ field val nx out cap, 0 < field.length → field.length ≤ pcHrFieldMax → cap ≤ out.length →
      EditedTo (pcHrSet r field val nx out cap) (setEntries (pcHrIter r) field val nx)
        (decide (field ∉ keys (pcHrIter r))) out cap) ∧
    (∀ field out cap, cap ≤ out.length →
      EditedTo (pcHrDel r field out cap) (del (pcHrIter r) field)
        (decide (field ∈ keys (pcHrIter r))) out cap) ∧
    ((keys (pcHrIter r)).Nodup →
      (∀ field val nx, (keys (setEntries (pcHrIter r) field val nx)).Nodup) ∧
      ∀ field, (keys (del (pcHrIter r) field)).Nodup ∧
        field ∉ keys (del (pcHrIter r) field)) := by
  obtain ⟨es, hes, rfl, rfl⟩ := pcHrValid_iff.mp hr
  have hreads : Reads (record es) es := .inl rfl
  rw [pcHrIter_record hes]
  refine ⟨rfl, fun field => ⟨pcHrGet_eq hreads hes field, fun v hv => pcHrGet_inside hes hv⟩,
    fun field val nx out cap hpos hmax hcap => ?_, fun field out cap hcap => ?_, fun hnd => ?_⟩
  · have hflen : ¬ (field.length = 0 ∨ field.length > pcHrFieldMax) := by omega
    rw [pcHrSet_eq hreads hes hflen]
    exact editedTo_edited (hes.setEntries hflen) hcap
  · rw [pcHrDel_eq hreads hes]
    exact editedTo_edited (hes.del field) hcap
  · refine ⟨fun field val nx => ?_, fun field => nodup_del hnd field⟩
    rw [setEntries]
    split
    · exact hnd
    · exact nodup_set hnd field val

/-- A record with one field, and the field set anew. -/
theorem hash_record_ordered_one : pcHrValid (record [([97], [49])]) = some 1 ∧
      EditedTo (pcHrSet (record [([97], [49])]) [97] [50, 51] false (replicate 32 0) 32)
        [([97], [50, 51])] false (replicate 32 0) 32 := by
  have hvalid : pcHrValid (record [([97], [49])]) = some 1 := by decide
  exact ⟨hvalid, (hash_record_ordered _ 1 hvalid).2.2.1 [97] [50, 51] false (replicate 32 0) 32
    (by decide) (by decide) (by decide)⟩

/-- A refusal for the capacity, of a record far below `PC_HR_MAX`. -/
theorem refused_for_capacity :
    pcHrValid (record []) = some 0 ∧ size (setEntries (pcHrIter (record [])) [97] [49] false) = 16 ∧
      pcHrSet (record []) [97] [49] false (replicate 15 0) 15 =
        ⟨pcHrESize, replicate 15 0, false⟩ := by
  decide

end Perfcached.Hash
