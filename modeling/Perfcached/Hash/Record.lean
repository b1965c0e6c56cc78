import Perfcached.Lib.Bytes
import Perfcached.Lib.Buffer
import Perfcached.Lib.OrderedMap

/-!
# Perfcached.Hash.Record

A hash as one value (`src/hashrec.c`): a header with the number of fields, then each field with
its value, both behind their lengths.

The functions work on offsets, as the source does; a pointer into the record is its offset. The
record a list of entries has is `record`, and `pcHrValid` accepts exactly these
(`pcHrValid_iff`). Everything else is read off the record split at an entry: `pcHrNext_at`,
`find_of_split`, `find_of_not_mem`.
-/

namespace Perfcached.Hash

open Bytes Buffer List Option Nat

def pcHrHdr : Nat := 8
def pcHrMax : Nat := 58000
def pcHrFieldMax : Nat := 4096

def r16 (r : List Byte) (o : Nat) : Nat := rd 2 (r.drop o)
def r32 (r : List Byte) (o : Nat) : Nat := rd 4 (r.drop o)

/-! ### Reading -/

/-- The loop of `pc_hr_valid`: `i` entries more, from `off` on. -/
def validLoop (r : List Byte) : Nat → Nat → Option Nat
  | 0, off => some off
  | i + 1, off =>
    if r.length - off < 6 then none
    else
      let fl := r16 r off
      let vl := r32 r (off + 2)
      if fl = 0 ∨ fl > pcHrFieldMax ∨ r.length - off - 6 < fl ∨ r.length - off - 6 - fl < vl then
        none
      else validLoop r i (off + 6 + fl + vl)

/-- `pc_hr_valid`: the number of fields of a well-formed record. No record is the empty text. -/
def pcHrValid (r : List Byte) : Option Nat :=
  if r.length > pcHrMax ∨ r.length < pcHrHdr ∨ slice r 0 4 ≠ [1, 0, 0, 0] then none
  else
    let cnt := r32 r 4
    match validLoop r cnt pcHrHdr with
    | none => none
    | some off => if off ≠ r.length then none else some cnt

/-- What `pc_hr_next` hands out. -/
structure Entry where
  field : Nat
  flen : Nat
  val : Nat
  vlen : Nat
  off : Nat

def pcHrNext (r : List Byte) (off : Nat) : Option Entry :=
  let o := if off ≠ 0 then off else pcHrHdr
  if o + 6 > r.length then none
  else
    let flen := r16 r o
    let vlen := r32 r (o + 2)
    some ⟨o + 6, flen, o + 6 + flen, vlen, o + 6 + flen + vlen⟩

/-- The iteration: `pc_hr_next` from 0 until it says the end. -/
def iterate (r : List Byte) : Nat → Nat → List (List Byte × List Byte)
  | 0, _ => []
  | fuel + 1, off =>
    match pcHrNext r off with
    | none => []
    | some e => (slice r e.field e.flen, slice r e.val e.vlen) :: iterate r fuel e.off

/-- Every entry takes bytes of the record, so its length bounds the passes. -/
def pcHrIter (r : List Byte) : List (List Byte × List Byte) := iterate r r.length 0

def findLoop (r field : List Byte) : Nat → Nat → Nat
  | 0, _ => 0
  | fuel + 1, off =>
    let pos := if off ≠ 0 then off else pcHrHdr
    match pcHrNext r off with
    | none => 0
    | some e =>
      if e.flen = field.length ∧ slice r e.field field.length = field then pos
      else findLoop r field fuel e.off

/-- `find`: the offset of the field's entry, or 0. -/
def find (r field : List Byte) : Nat :=
  if r.length < pcHrHdr then 0 else findLoop r field r.length 0

/-- `pc_hr_get`: where the value is, and its length. -/
def pcHrGet (r field : List Byte) : Option (Nat × Nat) :=
  let pos := find r field
  if pos = 0 then none else some (pos + 6 + r16 r pos, r32 r (pos + 2))

/-! ### The record of a list of entries -/

def encode (e : List Byte × List Byte) : List Byte :=
  leBytes 2 e.1.length ++ leBytes 4 e.2.length ++ e.1 ++ e.2

def body (es : List (List Byte × List Byte)) : List Byte := es.flatMap encode

def head (cnt : Nat) : List Byte := [1, 0, 0, 0] ++ leBytes 4 cnt

def record (es : List (List Byte × List Byte)) : List Byte := head es.length ++ body es

def size (es : List (List Byte × List Byte)) : Nat :=
  pcHrHdr + (es.map fun e => 6 + e.1.length + e.2.length).sum

/-- The entries a record may have. -/
structure Fits (es : List (List Byte × List Byte)) : Prop where
  pos : ∀ e ∈ es, 0 < e.1.length
  field : ∀ e ∈ es, e.1.length ≤ pcHrFieldMax
  size : size es ≤ pcHrMax

theorem length_encode (e : List Byte × List Byte) :
    (encode e).length = 6 + e.1.length + e.2.length := by
  simp only [encode, length_append, length_leBytes]

theorem length_encode_mk (f v : List Byte) : (encode (f, v)).length = 6 + f.length + v.length :=
  length_encode (f, v)

@[simp] theorem body_nil : body [] = [] := rfl

variable (es : List (List Byte × List Byte))

@[simp] theorem body_cons (e : List Byte × List Byte) : body (e :: es) = encode e ++ body es :=
  flatMap_cons

@[simp] theorem body_append (es' : List (List Byte × List Byte)) :
    body (es ++ es') = body es ++ body es' := flatMap_append

@[simp] theorem length_head (cnt : Nat) : (head cnt).length = pcHrHdr := by
  simp only [head, length_append, length_leBytes, length_cons, length_nil, pcHrHdr]

theorem length_body : pcHrHdr + (body es).length = size es := by
  rw [body, List.length_flatMap, size]
  simp only [length_encode]

/-- The length of a record is its size. -/
theorem length_record : (record es).length = size es := by
  rw [record, length_append, length_head, length_body]

/-! ### A record split at an entry -/

variable {off : Nat}

section Split

variable {a b : List Byte} {f v : List Byte}

/-- The field's length, read where the entry begins. -/
theorem r16_at (hf : f.length < 2 ^ 16) : r16 (a ++ encode (f, v) ++ b) a.length = f.length := by
  rw [r16, append_assoc, drop_left, encode]
  exact rd_append_of_lt hf _

/-- The value's length, read behind it. -/
theorem r32_at (hv : v.length < 2 ^ 32) :
    r32 (a ++ encode (f, v) ++ b) (a.length + 2) = v.length := by
  rw [r32, append_assoc, drop_length_add_append, encode]
  simp only [append_assoc]
  rw [drop_left' (length_leBytes 2 _)]
  exact rd_append_of_lt hv _

/-- The field lies behind the two lengths. -/
theorem slice_field : slice (a ++ encode (f, v) ++ b) (a.length + 6) f.length = f := by
  have hsplit : a ++ encode (f, v) ++ b =
      (a ++ (leBytes 2 f.length ++ leBytes 4 v.length)) ++ f ++ (v ++ b) := by
    simp only [encode, append_assoc]
  rw [hsplit]
  exact slice_append (by simp) rfl

/-- The value lies behind the field. -/
theorem slice_val : slice (a ++ encode (f, v) ++ b) (a.length + 6 + f.length) v.length = v := by
  have hsplit : a ++ encode (f, v) ++ b =
      (a ++ (leBytes 2 f.length ++ leBytes 4 v.length ++ f)) ++ v ++ b := by
    simp only [encode, append_assoc]
  rw [hsplit]
  refine slice_append ?_ rfl
  simp only [length_append, length_leBytes]
  omega

/-- What `pc_hr_next` hands out at an entry; an offset of 0 is the header's end. -/
theorem pcHrNext_at (hf : f.length < 2 ^ 16) (hv : v.length < 2 ^ 32)
    (hoff : (if off ≠ 0 then off else pcHrHdr) = a.length) :
    pcHrNext (a ++ encode (f, v) ++ b) off = some ⟨a.length + 6, f.length, a.length + 6 + f.length,
      v.length, (a ++ encode (f, v)).length⟩ := by
  have hlen := length_encode (f, v)
  simp only [pcHrNext, hoff, r16_at hf, r32_at hv]
  rw [if_neg (by simp only [length_append]; omega)]
  simp only [length_append, hlen, some.injEq, Entry.mk.injEq, true_and]
  omega

end Split

/-! ### Iterating -/

/-- The lengths of an entry fit their fields. -/
def Small (e : List Byte × List Byte) : Prop := e.1.length < 2 ^ 16 ∧ e.2.length < 2 ^ 32

variable {es}

/-- What the limits allow fits the fields of an entry. -/
theorem Fits.small (h : Fits es) : ∀ e ∈ es, Small e := by
  intro e he
  have hfield := h.field e he
  have hsize := h.size
  rw [← length_body] at hsize
  obtain ⟨a, b, rfl⟩ := append_of_mem he
  rw [body_append, body_cons, length_append, length_append, length_encode] at hsize
  simp only [pcHrMax, pcHrFieldMax] at hsize hfield
  exact ⟨by omega, by omega⟩

theorem length_le_body (es : List (List Byte × List Byte)) : es.length ≤ (body es).length := by
  induction es with
  | nil => exact le_rfl
  | cons e es ih =>
    rw [body_cons, length_append, length_encode, length_cons]
    omega

variable {a : List Byte}

theorem pcHrNext_end (hoff : (if off ≠ 0 then off else pcHrHdr) = a.length) :
    pcHrNext (a ++ body []) off = none := by
  simp only [pcHrNext, hoff]
  exact if_pos (by simp [body])

/-- The iteration hands out the entries, given a pass for each. -/
theorem iterate_body (hes : ∀ e ∈ es, Small e) {fuel : Nat}
    (hoff : (if off ≠ 0 then off else pcHrHdr) = a.length) (hfuel : es.length ≤ fuel) :
    iterate (a ++ body es) fuel off = es := by
  induction es generalizing a off fuel with
  | nil =>
    cases fuel with
    | zero => rfl
    | succ fuel => rw [iterate, pcHrNext_end hoff]
  | cons e es ih =>
    obtain ⟨fuel, rfl⟩ : ∃ k, fuel = k + 1 := ⟨fuel - 1, by rw [length_cons] at hfuel; omega⟩
    obtain ⟨f, v⟩ := e
    obtain ⟨hf, hv⟩ := hes (f, v) mem_cons_self
    have hlen := length_encode (f, v)
    rw [body_cons, ← append_assoc, iterate, pcHrNext_at hf hv hoff]
    simp only [slice_field, slice_val]
    congr 1
    refine ih (fun e he => hes e (mem_cons_of_mem _ he)) ?_ (le_of_succ_le_succ hfuel)
    rw [if_pos]
    simp only [length_append]
    omega

/-- The entries of a record are those it was made of. -/
theorem pcHrIter_record (hes : Fits es) : pcHrIter (record es) = es := by
  refine iterate_body hes.small (by rw [length_head]; rfl) ?_
  rw [record, length_append]
  have := length_le_body es
  omega

/-! ### Finding -/

variable {field : List Byte}

/-- The loop stops at an entry of the field, or goes on behind it. -/
theorem findLoop_cons {e : List Byte × List Byte} (he : Small e) {b : List Byte} {fuel : Nat}
    (hoff : (if off ≠ 0 then off else pcHrHdr) = a.length) :
    findLoop (a ++ encode e ++ b) field (fuel + 1) off =
      if e.1 = field then a.length
      else findLoop (a ++ encode e ++ b) field fuel (a ++ encode e).length := by
  rw [findLoop, pcHrNext_at he.1 he.2 hoff]
  simp only [hoff]
  refine if_congr ⟨fun h => ?_, fun h => ?_⟩ rfl rfl
  · rw [← h.1] at h
    exact slice_field.symm.trans h.2
  · rw [← h]
    exact ⟨rfl, slice_field⟩

/-- The loop passes the entries of other fields. -/
theorem findLoop_append {p : List (List Byte × List Byte)} (hp : ∀ e ∈ p, Small e) {b : List Byte}
    (hfield : field ∉ OrderedMap.keys p) (fuel : Nat)
    (hoff : (if off ≠ 0 then off else pcHrHdr) = a.length) :
    ∃ off', (if off' ≠ 0 then off' else pcHrHdr) = (a ++ body p).length ∧
      findLoop (a ++ body p ++ b) field (fuel + p.length) off =
        findLoop (a ++ body p ++ b) field fuel off' := by
  induction p generalizing a off with
  | nil => exact ⟨off, by simpa [body] using hoff, rfl⟩
  | cons e p ih =>
    rw [OrderedMap.keys_cons, mem_cons, not_or] at hfield
    have hnext : (if (a ++ encode e).length ≠ 0 then (a ++ encode e).length else pcHrHdr) =
        (a ++ encode e).length := by
      rw [if_pos]
      have := length_encode e
      rw [length_append]
      omega
    obtain ⟨off', hoff', heq⟩ := ih (fun e he => hp e (mem_cons_of_mem _ he)) hfield.2 hnext
    refine ⟨off', by rw [hoff', body_cons, append_assoc], ?_⟩
    have hassoc : a ++ body (e :: p) ++ b = a ++ encode e ++ (body p ++ b) := by
      rw [body_cons, append_assoc, append_assoc, append_assoc]
    rw [append_assoc (a ++ encode e)] at heq
    rw [hassoc, length_cons, ← add_assoc, findLoop_cons (hp e mem_cons_self) hoff,
      if_neg (Ne.symm hfield.1), heq]

/-- A field is found where its first entry begins. -/
theorem find_of_split {p q : List (List Byte × List Byte)} {v : List Byte}
    (hes : ∀ e ∈ p ++ (field, v) :: q, Small e) (hfield : field ∉ OrderedMap.keys p) (cnt : Nat) :
    find (head cnt ++ body (p ++ (field, v) :: q)) field = (head cnt ++ body p).length := by
  have hhdr : (if (0 : Nat) ≠ 0 then 0 else pcHrHdr) = (head cnt).length := by
    rw [length_head]
    rfl
  have hp : ∀ e ∈ p, Small e := fun e he => hes e (mem_append_left _ he)
  have hlen : p.length < (head cnt ++ body (p ++ (field, v) :: q)).length := by
    have hle := length_le_body p
    have henc := length_encode (field, v)
    rw [length_append, body_append, body_cons, length_append, length_append]
    omega
  obtain ⟨fuel, hfuel⟩ := Nat.exists_eq_add_of_lt hlen
  rw [find, if_neg (by rw [length_append, length_head]; omega), hfuel,
    show p.length + fuel + 1 = fuel + 1 + p.length by omega, body_append, ← append_assoc]
  obtain ⟨off', hoff', heq⟩ :=
    findLoop_append (b := body ((field, v) :: q)) hp hfield (fuel + 1) hhdr
  rw [heq, body_cons, ← append_assoc,
    findLoop_cons (hes _ (mem_append_right _ mem_cons_self)) hoff', if_pos rfl]

/-- A field that has no entry is not found. -/
theorem find_of_not_mem (hes : ∀ e ∈ es, Small e) (hfield : field ∉ OrderedMap.keys es)
    (cnt : Nat) : find (head cnt ++ body es) field = 0 := by
  have hhdr : (if (0 : Nat) ≠ 0 then 0 else pcHrHdr) = (head cnt).length := by
    rw [length_head]
    rfl
  have hle := length_le_body es
  obtain ⟨fuel, hfuel⟩ : ∃ k, (head cnt ++ body es).length = k + 1 + es.length := by
    refine ⟨(head cnt ++ body es).length - 1 - es.length, ?_⟩
    rw [length_append, length_head, pcHrHdr]
    omega
  rw [find, if_neg (by rw [length_append, length_head]; omega), hfuel]
  obtain ⟨off', hoff', heq⟩ := findLoop_append (b := body []) hes hfield (fuel + 1) hhdr
  have hnil : head cnt ++ body es = head cnt ++ body es ++ body [] := (append_nil _).symm
  rw [hnil, heq, findLoop, pcHrNext_end hoff']

/-! ### The valid records -/

theorem r32_head {cnt : Nat} (h : cnt < 2 ^ 32) (b : List Byte) : r32 (head cnt ++ b) 4 = cnt := by
  rw [r32, head, append_assoc]
  exact rd_append_of_lt h b

theorem r32_record (h : Fits es) : r32 (record es) 4 = es.length := by
  refine r32_head ?_ _
  have hle := length_le_body es
  have hsize := h.size
  rw [← length_body, pcHrMax] at hsize
  omega

/-- The check walks the entries to the end of the record. -/
theorem validLoop_body (hes : ∀ e ∈ es, Small e) (hpos : ∀ e ∈ es, 0 < e.1.length)
    (hmax : ∀ e ∈ es, e.1.length ≤ pcHrFieldMax) (a : List Byte) :
    validLoop (a ++ body es) es.length a.length = some (a ++ body es).length := by
  induction es generalizing a with
  | nil => simp [validLoop, body]
  | cons e es ih =>
    obtain ⟨f, v⟩ := e
    have hf : f.length < 2 ^ 16 := (hes (f, v) mem_cons_self).1
    have hv : v.length < 2 ^ 32 := (hes (f, v) mem_cons_self).2
    have hpos' : 0 < f.length := hpos (f, v) mem_cons_self
    have hmax' : f.length ≤ pcHrFieldMax := hmax (f, v) mem_cons_self
    have hlen : (encode (f, v)).length = 6 + f.length + v.length := length_encode (f, v)
    have hall : (a ++ encode (f, v) ++ body es).length =
        a.length + (6 + f.length + v.length) + (body es).length := by
      rw [length_append, length_append, hlen]
    rw [body_cons, ← append_assoc, length_cons, validLoop, if_neg (by omega)]
    simp only [r16_at hf, r32_at hv]
    rw [if_neg (by omega)]
    have hoff : a.length + 6 + f.length + v.length = (a ++ encode (f, v)).length := by
      rw [length_append, hlen]
      omega
    rw [hoff]
    exact ih (fun e he => hes e (mem_cons_of_mem _ he))
      (fun e he => hpos e (mem_cons_of_mem _ he))
      (fun e he => hmax e (mem_cons_of_mem _ he)) _

theorem pcHrValid_record (h : Fits es) : pcHrValid (record es) = some es.length := by
  have hlen := length_record es
  have hsize := h.size
  have hbody := length_body es
  have hloop := validLoop_body h.small h.pos h.field (head es.length)
  rw [length_head] at hloop
  rw [pcHrValid, if_neg]
  · simp only [r32_record h]
    rw [record, hloop]
    exact if_neg fun h => h rfl
  · rintro (hlong | hshort | hhead)
    · omega
    · omega
    · exact hhead rfl

variable {r : List Byte}

/-- The bytes at an entry that passed the check are an entry. -/
theorem drop_eq_encode (hoff : off + 6 ≤ r.length)
    (hlen : off + 6 + r16 r off + r32 r (off + 2) ≤ r.length) :
    r.drop off = encode (slice r (off + 6) (r16 r off),
        slice r (off + 6 + r16 r off) (r32 r (off + 2))) ++
      r.drop (off + 6 + r16 r off + r32 r (off + 2)) := by
  have himage : ∀ o n, o + n ≤ r.length → leBytes n (rd n (r.drop o)) = slice r o n := by
    intro o n h
    have := leBytes_leNat (slice r o n)
    rwa [length_slice h] at this
  rw [encode, length_slice (by omega), length_slice (by omega), r16, r32,
    himage off 2 (by omega), himage (off + 2) 4 (by omega)]
  simp only [append_assoc]
  rw [slice_append_drop, slice_append_drop, show off + 6 = off + 2 + 4 by omega, slice_append_drop,
    slice_append_drop]

/-- What the check walks to the end is the entries of some list. -/
theorem validLoop_inv {i : Nat} (hoff : off ≤ r.length) (h : validLoop r i off = some r.length) :
    ∃ es, es.length = i ∧ r.drop off = body es ∧ (∀ e ∈ es, 0 < e.1.length) ∧
      ∀ e ∈ es, e.1.length ≤ pcHrFieldMax := by
  induction i generalizing off with
  | zero =>
    rw [validLoop, some.injEq] at h
    refine ⟨[], rfl, ?_, by simp, by simp⟩
    rw [h, drop_length]
    rfl
  | succ i ih =>
    simp only [validLoop, ite_none_left_eq_some, not_or] at h
    obtain ⟨hsix, ⟨hpos, hmax, hf, hv⟩, hrest⟩ := h
    obtain ⟨es, hlen, hbody, hespos, hesmax⟩ := ih (by omega) hrest
    refine ⟨(slice r (off + 6) (r16 r off),
      slice r (off + 6 + r16 r off) (r32 r (off + 2))) :: es, ?_, ?_, ?_, ?_⟩
    · rw [length_cons, hlen]
    · rw [drop_eq_encode (by omega) (by omega), hbody, body_cons]
    · refine forall_mem_cons.mpr ⟨?_, hespos⟩
      rw [length_slice (by omega)]
      omega
    · refine forall_mem_cons.mpr ⟨?_, hesmax⟩
      rw [length_slice (by omega)]
      omega

/-- **The valid records** are the records of the lists that fit. -/
theorem pcHrValid_iff {cnt : Nat} :
    pcHrValid r = some cnt ↔ ∃ es, Fits es ∧ r = record es ∧ cnt = es.length := by
  constructor
  · intro h
    simp only [pcHrValid, ite_none_left_eq_some, not_or, not_not] at h
    obtain ⟨⟨hmax, hhdr, hfour⟩, h⟩ := h
    split at h
    · cases h
    · rename_i off hloop
      rw [ite_none_left_eq_some, not_not, some.injEq] at h
      obtain ⟨rfl, hcnt⟩ := h
      obtain ⟨es, hlen, hbody, hpos, hfield⟩ := validLoop_inv (by omega) hloop
      have hrec : r = record es := by
        have hhead : slice r 4 4 = leBytes 4 es.length := by
          have himage := leBytes_leNat (slice r 4 4)
          rw [length_slice (by simp only [pcHrHdr] at hhdr; omega)] at himage
          rw [← himage, hlen]
          rfl
        calc r = slice r 0 4 ++ (slice r 4 4 ++ r.drop (4 + 4)) := by
              rw [slice_append_drop]
              exact (slice_append_drop r 0 4).symm
          _ = record es := by
              rw [hfour, hhead, record, head, ← hbody]
              rfl
      refine ⟨es, ⟨hpos, hfield, ?_⟩, hrec, by rw [hlen, hcnt]⟩
      rw [← length_record, ← hrec]
      omega
  · rintro ⟨es, hes, rfl, rfl⟩
    exact pcHrValid_record hes

end Perfcached.Hash
