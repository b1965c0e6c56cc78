import Perfcached.Crc32c

/-!
# Perfcached.Wal.Format

The records of the write-ahead log (`src/wal.h`, `src/walfmt.h`).

`WalRec` is a record as `pc_wal_scan` hands it to its callback. `payload` is the
byte string `produce` encodes it as, and `parse` the reading of such a string in
`pc_wal_scan`; the record header in front of it (length, checksum, generation) is
the segment's business.
-/

namespace Perfcached.Wal

open Bytes List Option Nat

/-- The record types this build writes and reads (`PC_WAL_T_*`). -/
inductive RecType
  | upsert
  | del
  | touch
  | upsertV
  | touchV
  | colCreate
  | colDrop
  | colRename
  | delN
  deriving DecidableEq

variable {t : RecType}

namespace RecType

/-- The type's number on disk. -/
def code : RecType → Nat
  | upsert => 1
  | del => 2
  | touch => 3
  | upsertV => 4
  | touchV => 5
  | colCreate => 6
  | colDrop => 7
  | colRename => 8
  | delN => 9

/-- `PC_WAL_T_KNOWN`, with the type it knows. -/
def ofCode : Nat → Option RecType
  | 1 => some upsert
  | 2 => some del
  | 3 => some touch
  | 4 => some upsertV
  | 5 => some touchV
  | 6 => some colCreate
  | 7 => some colDrop
  | 8 => some colRename
  | 9 => some delN
  | _ => none

theorem code_of_ofCode {n : Nat} (h : ofCode n = some t) : t.code = n := by
  unfold ofCode at h
  split at h <;> cases h <;> rfl

/-- `PC_WAL_T_HASVER`. -/
def hasVer (t : RecType) : Bool := t = upsertV || t = touchV

/-- `PC_WAL_HDRLEN`. -/
def hdrLen (t : RecType) : Nat := if t = upsertV then 33 else if t.hasVer then 32 else 24

end RecType

/-- A record of the log. -/
structure WalRec where
  type : Nat
  col : List Byte
  key : List Byte
  val : List Byte
  wall : Nat
  seq : Nat
  ver : Nat
  flags : Byte
  deriving DecidableEq

/-- `PC_WAL_RECHDR`: length, checksum, generation. -/
def recHdr : Nat := 12

/-- `MAX_REC`: a record header, the largest fixed part, a collection's name and a cell. -/
def maxRec : Nat := recHdr + 32 + 255 + 262080

theorem maxRec_lt : maxRec < 2 ^ 32 := by decide

/-- `PC_WAL_HDRLEN`, of a type's number. -/
def hdrLen (type : Nat) : Nat := (RecType.ofCode type).elim 24 RecType.hdrLen

/-- `PC_WAL_T_HASVER`, of a type's number. -/
def hasVer (type : Nat) : Bool := (RecType.ofCode type).elim false RecType.hasVer

def WalRec.payload (r : WalRec) : List Byte :=
  leBytes 1 r.type ++ (leBytes 1 r.col.length ++ (leBytes 2 r.key.length ++
    (leBytes 4 r.val.length ++ (leBytes 8 r.wall ++ (leBytes 8 r.seq ++
      ((if hasVer r.type then leBytes 8 r.ver else []) ++
        ((if hdrLen r.type = 33 then [r.flags] else []) ++ (r.col ++ (r.key ++ r.val)))))))))

/-- The record in the producer's scratch buffer: the pump stamps the checksum and the
generation. -/
def WalRec.scratch (r : WalRec) : List Byte :=
  leBytes 4 r.payload.length ++ (leBytes 4 0 ++ (leBytes 4 0 ++ r.payload))

theorem hdrLen_eq (type : Nat) :
    hdrLen type = 24 + (if hasVer type then 8 else 0) + if hdrLen type = 33 then 1 else 0 := by
  unfold hdrLen hasVer
  cases RecType.ofCode type with
  | none => rfl
  | some t => cases t <;> rfl

@[simp] theorem WalRec.length_payload (r : WalRec) :
    r.payload.length = hdrLen r.type + r.col.length + r.key.length + r.val.length := by
  have hver : (if hasVer r.type then leBytes 8 r.ver else []).length =
      if hasVer r.type then 8 else 0 := by split <;> simp
  have hflags : (if hdrLen r.type = 33 then [r.flags] else []).length =
      if hdrLen r.type = 33 then 1 else 0 := by split <;> rfl
  have hhdr := hdrLen_eq r.type
  simp only [WalRec.payload, length_append, length_leBytes, hver, hflags]
  omega

/-- The payload as `pc_wal_scan` reads it: `p` is the scan's buffer from the payload on, of
which the first `len` bytes are the record's. A type of a newer build is handed on unparsed. -/
def parse (p : List Byte) (len : Nat) : Option WalRec :=
  let type := rd 1 p
  match RecType.ofCode type with
  | none => some ⟨type, [], [], [], 0, 0, 0, 0⟩
  | some t =>
    let collen := rd 1 (p.drop 1)
    let klen := rd 2 (p.drop 2)
    let vlen := rd 4 (p.drop 4)
    let col := p.drop t.hdrLen
    let key := col.drop collen
    let val := key.drop klen
    if (t.hdrLen + (collen + klen) + vlen) % 2 ^ 32 = len then
      some {
        type
        col := col.take collen
        key := key.take klen
        val := val.take vlen
        wall := rd 8 (p.drop 8)
        seq := rd 8 (p.drop 16)
        ver := if 32 ≤ t.hdrLen then rd 8 (p.drop 24) else 0
        flags := if t.hdrLen = 33 then (p.drop 32).headD 0 else 0 }
    else none

/-- A record as the callers of `produce` hand it over: its parts fit their fields, and it
has a version and flags only where its type carries them. -/
@[mk_iff]
structure WalRec.Encodable (r : WalRec) : Prop where
  known : (RecType.ofCode r.type).isSome
  col : r.col.length < 2 ^ 8
  key : r.key.length < 2 ^ 16
  wall : r.wall < 2 ^ 64
  seq : r.seq < 2 ^ 64
  ver : r.ver < 2 ^ 64
  noVer : hasVer r.type = false → r.ver = 0
  noFlags : hdrLen r.type ≠ 33 → r.flags = 0
  fits : recHdr + r.payload.length ≤ maxRec

instance (r : WalRec) : Decidable r.Encodable := decidable_of_iff' _ r.encodable_iff

/-- `PC_WAL_DEL_VERLEN`. -/
def delVerLen : Nat := 8

/-- `PC_WAL_DELN_VLEN`. -/
def delNVLen : Nat := 28

/-! ### What is encoded is read back -/

/-- The parts of a payload behind the fixed fields. -/
def WalRec.tail (r : WalRec) : List Byte :=
  (if hasVer r.type then leBytes 8 r.ver else []) ++
    ((if hdrLen r.type = 33 then [r.flags] else []) ++ (r.col ++ (r.key ++ r.val)))

section

variable (r : WalRec) (q : List Byte)

theorem WalRec.payload_append :
    r.payload ++ q = leBytes 1 r.type ++ (leBytes 1 r.col.length ++ (leBytes 2 r.key.length ++
      (leBytes 4 r.val.length ++ (leBytes 8 r.wall ++ (leBytes 8 r.seq ++ (r.tail ++ q)))))) := by
  simp only [WalRec.payload, WalRec.tail, append_assoc]

theorem WalRec.drop_fixed : (r.payload ++ q).drop 24 = r.tail ++ q := by
  rw [r.payload_append, show 24 = 1 + (1 + (2 + (4 + (8 + (8 + 0))))) from rfl, drop_leBytes_add,
    drop_leBytes_add, drop_leBytes_add, drop_leBytes_add, drop_leBytes_add, drop_leBytes_add,
    drop_zero]

/-- Behind the header lie the collection, the key and the value. -/
theorem WalRec.drop_hdrLen :
    (r.payload ++ q).drop (hdrLen r.type) = r.col ++ (r.key ++ (r.val ++ q)) := by
  rw [hdrLen_eq r.type, ← drop_drop, ← drop_drop, r.drop_fixed, WalRec.tail]
  have hver : ∀ l : List Byte, ((if hasVer r.type then leBytes 8 r.ver else []) ++ l).drop
      (if hasVer r.type then 8 else 0) = l := by
    intro l
    split
    · exact drop_left' (length_leBytes 8 _)
    · rfl
  have hflags : ∀ l : List Byte, ((if hdrLen r.type = 33 then [r.flags] else []) ++ l).drop
      (if hdrLen r.type = 33 then 1 else 0) = l := by
    intro l
    split <;> rfl
  simp only [append_assoc, hver, hflags]

end

variable {r : WalRec}

theorem WalRec.Encodable.length_lt (h : r.Encodable) : r.payload.length < 2 ^ 32 :=
  (le_add_left _ _).trans_lt (h.fits.trans_lt maxRec_lt)

/-- The fixed fields, read at their offsets. -/
theorem WalRec.Encodable.fixed_fields (h : r.Encodable) (q : List Byte) :
    rd 1 (r.payload ++ q) = r.type ∧ rd 1 ((r.payload ++ q).drop 1) = r.col.length ∧
      rd 2 ((r.payload ++ q).drop 2) = r.key.length ∧
      rd 4 ((r.payload ++ q).drop 4) = r.val.length ∧
      rd 8 ((r.payload ++ q).drop 8) = r.wall ∧ rd 8 ((r.payload ++ q).drop 16) = r.seq := by
  obtain ⟨t, ht⟩ := isSome_iff_exists.mp h.known
  have htype : r.type < 256 := by
    rw [← RecType.code_of_ofCode ht]
    cases t <;> decide
  have hval : r.val.length < 2 ^ 32 := by
    have hlen := h.length_lt
    rw [r.length_payload] at hlen
    omega
  rw [r.payload_append]
  refine ⟨rd_append_of_lt htype _, ?_, ?_, ?_, ?_, ?_⟩
  · rw [show 1 = 1 + 0 from rfl, drop_leBytes_add]
    exact rd_append_of_lt h.col _
  · rw [show 2 = 1 + (1 + 0) from rfl, drop_leBytes_add, drop_leBytes_add]
    exact rd_append_of_lt h.key _
  · rw [show 4 = 1 + (1 + (2 + 0)) from rfl, drop_leBytes_add, drop_leBytes_add, drop_leBytes_add]
    exact rd_append_of_lt hval _
  · rw [show 8 = 1 + (1 + (2 + (4 + 0))) from rfl, drop_leBytes_add, drop_leBytes_add,
      drop_leBytes_add, drop_leBytes_add]
    exact rd_append_of_lt h.wall _
  · rw [show 16 = 1 + (1 + (2 + (4 + (8 + 0)))) from rfl, drop_leBytes_add, drop_leBytes_add,
      drop_leBytes_add, drop_leBytes_add, drop_leBytes_add]
    exact rd_append_of_lt h.seq _

theorem hdrLen_of_ofCode {type : Nat} (h : RecType.ofCode type = some t) :
    hdrLen type = t.hdrLen := by
  rw [hdrLen, h, elim_some]

theorem hasVer_of_ofCode {type : Nat} (h : RecType.ofCode type = some t) :
    hasVer type = t.hasVer := by
  rw [hasVer, h, elim_some]

section

variable (h : r.Encodable) (ht : RecType.ofCode r.type = some t) (q : List Byte)
include h ht

theorem WalRec.Encodable.ver_field :
    (if 32 ≤ t.hdrLen then rd 8 ((r.payload ++ q).drop 24) else 0) = r.ver := by
  have hiff : 32 ≤ t.hdrLen ↔ t.hasVer = true := by cases t <;> decide
  rw [r.drop_fixed, WalRec.tail, hasVer_of_ofCode ht]
  by_cases hv : t.hasVer = true
  · rw [if_pos (hiff.mpr hv), if_pos hv, append_assoc]
    exact rd_append_of_lt h.ver _
  · rw [if_neg (hiff.not.mpr hv)]
    exact (h.noVer (by rw [hasVer_of_ofCode ht]; simpa using hv)).symm

theorem WalRec.Encodable.flags_field :
    (if t.hdrLen = 33 then ((r.payload ++ q).drop 32).headD 0 else 0) = r.flags := by
  have hhdr := hdrLen_of_ofCode ht
  by_cases hf : t.hdrLen = 33
  · have hv : t.hasVer = true := by
      cases t <;> first | rfl | exact absurd hf (by decide)
    rw [if_pos hf, show 32 = 24 + 8 from rfl, ← drop_drop, r.drop_fixed, WalRec.tail,
      hasVer_of_ofCode ht, if_pos hv, hhdr, if_pos hf, append_assoc,
      drop_left' (length_leBytes 8 _)]
    rfl
  · rw [if_neg hf]
    exact (h.noFlags (by rwa [hhdr])).symm

end

/-- **What `produce` encodes is read back**, whatever the buffer holds behind it. -/
theorem WalRec.Encodable.parse_payload (h : r.Encodable) (q : List Byte) :
    parse (r.payload ++ q) r.payload.length = some r := by
  obtain ⟨t, ht⟩ := isSome_iff_exists.mp h.known
  obtain ⟨htype, hcol, hkey, hval, hwall, hseq⟩ := h.fixed_fields q
  have hhdr := hdrLen_of_ofCode ht
  have hlen : (t.hdrLen + (r.col.length + r.key.length) + r.val.length) % 2 ^ 32 =
      r.payload.length := by
    have hlt := h.length_lt
    rw [r.length_payload, hhdr] at hlt ⊢
    rw [mod_eq_of_lt (by omega)]
    omega
  have hstrings := r.drop_hdrLen q
  rw [hhdr] at hstrings
  have hver := h.ver_field ht q
  have hflags := h.flags_field ht q
  simp only [parse, htype, ht, hcol, hkey, hval, hwall, hseq, hlen, hstrings, hver, hflags, if_true]
  rw [take_left, drop_left, take_left, drop_left, take_left]

theorem WalRec.drop_scratch (r : WalRec) : r.scratch.drop recHdr = r.payload := by
  rw [WalRec.scratch, show recHdr = 4 + (4 + (4 + 0)) from rfl, drop_leBytes_add, drop_leBytes_add,
    drop_leBytes_add, drop_zero]

@[simp] theorem WalRec.length_scratch (r : WalRec) :
    r.scratch.length = recHdr + r.payload.length := by
  simp only [WalRec.scratch, length_append, length_leBytes, recHdr]
  omega

/-- Two records with one image are one record. -/
theorem WalRec.Encodable.scratch_inj {r' : WalRec} (h : r.Encodable) (h' : r'.Encodable)
    (he : r.scratch = r'.scratch) : r = r' := by
  have hp : r.payload = r'.payload := by rw [← r.drop_scratch, he, r'.drop_scratch]
  have hr := h.parse_payload []
  rw [hp, h'.parse_payload []] at hr
  exact (some.inj hr).symm

end Perfcached.Wal
