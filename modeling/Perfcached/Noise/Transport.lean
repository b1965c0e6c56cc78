import Perfcached.Lib.Bytes
import Perfcached.Lib.Machine

/-!
# Perfcached.Noise.Transport

The cipher states of the encrypted channel and its transport records (`cs_init_key`, `nonce12`,
`cs_encrypt`, `cs_decrypt`, `pc_transport_encrypt` and `pc_transport_decrypt` of
`src/pc_noise.c`), over any primitives.

Three things are proved of them. A refusal leaves the state as it was. Over any sequence of
operations on a cipher state, each key it is given uses each nonce once at most, and never the
reserved last one (`used_once`). And a sender and a receiver that start from the same state stay in
step: the records decrypt in the order they were written (`Channel.Synced`), and where the cipher
refuses a record under any nonce but its own, no other record is accepted at all
(`Channel.accepts_iff`).
-/

namespace Perfcached.Noise

open Bytes Machine List Option Nat BitVec

/-- A value of 32 bytes: a key, a chaining key, a hash. -/
abbrev Key := { b : List Byte // b.length = 32 }

/-- `npub`. -/
abbrev Nonce := { b : List Byte // b.length = 12 }

/-- `PC_NOISE_TAGLEN`. -/
def tagLen : Nat := 16

/-- `PC_NOISE_MAXMSG`. -/
def maxMsg : Nat := 65535

/-- `PC_NOISE_MAXPT`. -/
def maxPt : Nat := maxMsg - tagLen

/-- `PC_NOISE_NONCE_LAST`; the value above it is the reserved one. -/
def nonceLast : Nat := 2 ^ 64 - 2

/-- The cryptographic primitives. A sealed text is longer than its plaintext by the tag. -/
structure Primitives where
  hash : List Byte → Key
  hmac : List Byte → List Byte → Key
  scalarmultBase : Key → Key
  scalarmult : Key → Key → Option Key
  aeadEncrypt : Key → Nonce → List Byte → List Byte → List Byte
  aeadDecrypt : Key → Nonce → List Byte → List Byte → Option (List Byte)
  length_aeadEncrypt : ∀ k n ad pt, (aeadEncrypt k n ad pt).length = pt.length + tagLen

/-- Decryption inverts encryption under the same key, nonce and associated data. -/
def Primitives.Inverts (p : Primitives) : Prop :=
  ∀ k n ad pt, p.aeadDecrypt k n ad (p.aeadEncrypt k n ad pt) = some pt

/-- Decryption refuses every nonce but that of the encryption. -/
def Primitives.BindsNonce (p : Primitives) : Prop :=
  ∀ k n n' ad pt, n' ≠ n → p.aeadDecrypt k n' ad (p.aeadEncrypt k n ad pt) = none

/-! ### The cipher state -/

/-- `struct pc_cipherstate`. -/
structure CipherState where
  k : Key
  n : BitVec 64
  hasKey : Bool
  deriving DecidableEq

def zeroKey : Key := ⟨List.replicate 32 0#8, by simp⟩

/-- A state that `memset` has cleared. -/
def CipherState.zero : CipherState := ⟨zeroKey, 0#64, false⟩

def csInitKey (k : Key) : CipherState := ⟨k, 0#64, true⟩

def nonce12 (n : BitVec 64) : Nonce :=
  ⟨List.replicate 4 0#8 ++ leBytes 8 n.toNat, by simp⟩

/-- `cs_encrypt`: the state after it, and the ciphertext unless it refuses. -/
def csEncrypt (p : Primitives) (cs : CipherState) (ad pt : List Byte) :
    CipherState × Option (List Byte) :=
  if pt.length > maxPt then (cs, none)
  else if cs.hasKey = false then (cs, some pt)
  else if cs.n.toNat > nonceLast then (cs, none)
  else ({ cs with n := cs.n + 1#64 }, some (p.aeadEncrypt cs.k (nonce12 cs.n) ad pt))

def csDecrypt (p : Primitives) (cs : CipherState) (ad ct : List Byte) :
    CipherState × Option (List Byte) :=
  if ct.length > maxMsg then (cs, none)
  else if cs.hasKey = false then (cs, some ct)
  else if cs.n.toNat > nonceLast then (cs, none)
  else
    match p.aeadDecrypt cs.k (nonce12 cs.n) ad ct with
    | none => (cs, none)
    | some pt => ({ cs with n := cs.n + 1#64 }, some pt)

def transportEncrypt (p : Primitives) (cs : CipherState) (pt : List Byte) :
    CipherState × Option (List Byte) :=
  csEncrypt p cs [] pt

def transportDecrypt (p : Primitives) (cs : CipherState) (ct : List Byte) :
    CipherState × Option (List Byte) :=
  if ct.length < tagLen then (cs, none) else csDecrypt p cs [] ct

variable {p : Primitives}

theorem csEncrypt_cases (p : Primitives) (cs : CipherState) (ad pt : List Byte) :
    csEncrypt p cs ad pt = (cs, none) ∧
        (maxPt < pt.length ∨ cs.hasKey = true ∧ nonceLast < cs.n.toNat) ∨
    csEncrypt p cs ad pt = (cs, some pt) ∧ cs.hasKey = false ∨
    csEncrypt p cs ad pt =
        ({ cs with n := cs.n + 1#64 }, some (p.aeadEncrypt cs.k (nonce12 cs.n) ad pt)) ∧
      cs.hasKey = true ∧ cs.n.toNat ≤ nonceLast ∧ pt.length ≤ maxPt := by
  unfold csEncrypt
  split_ifs with hlen hkey hn
  · exact .inl ⟨rfl, .inl hlen⟩
  · exact .inr (.inl ⟨rfl, hkey⟩)
  · exact .inl ⟨rfl, .inr ⟨by simpa using hkey, hn⟩⟩
  · exact .inr (.inr ⟨rfl, by simpa using hkey, by omega, by omega⟩)

theorem csDecrypt_cases (p : Primitives) (cs : CipherState) (ad ct : List Byte) :
    csDecrypt p cs ad ct = (cs, none) ∨
    csDecrypt p cs ad ct = (cs, some ct) ∧ cs.hasKey = false ∨
    ∃ pt, csDecrypt p cs ad ct = ({ cs with n := cs.n + 1#64 }, some pt) ∧
      cs.hasKey = true ∧ cs.n.toNat ≤ nonceLast ∧
      p.aeadDecrypt cs.k (nonce12 cs.n) ad ct = some pt := by
  unfold csDecrypt
  split_ifs with hlen hkey hn
  · exact .inl rfl
  · exact .inr (.inl ⟨rfl, hkey⟩)
  · exact .inl rfl
  · cases h : p.aeadDecrypt cs.k (nonce12 cs.n) ad ct with
    | none => exact .inl rfl
    | some pt => exact .inr (.inr ⟨pt, rfl, by simpa using hkey, by omega, rfl⟩)

variable {cs : CipherState} {pt : List Byte}

/-- A refused encryption leaves the state as it was. -/
theorem csEncrypt_refused {ad : List Byte} (h : (csEncrypt p cs ad pt).2 = none) :
    (csEncrypt p cs ad pt).1 = cs := by
  rcases csEncrypt_cases p cs ad pt with ⟨he, -⟩ | ⟨he, -⟩ | ⟨he, -⟩
  · rw [he]
  · rw [he]
  · rw [he] at h
    cases h

variable {ct : List Byte}

/-- A refused decryption leaves the state as it was. -/
theorem csDecrypt_refused {ad : List Byte} (h : (csDecrypt p cs ad ct).2 = none) :
    (csDecrypt p cs ad ct).1 = cs := by
  rcases csDecrypt_cases p cs ad ct with he | ⟨he, -⟩ | ⟨pt, he, -⟩
  · rw [he]
  · rw [he]
  · rw [he] at h
    cases h

theorem transportDecrypt_refused (h : (transportDecrypt p cs ct).2 = none) :
    (transportDecrypt p cs ct).1 = cs := by
  unfold transportDecrypt at *
  split_ifs at h ⊢ with hlen
  · rfl
  · exact csDecrypt_refused h

/-- The counter never wraps: it moves only below its last value. -/
theorem toNat_succ {n : BitVec 64} (h : n.toNat ≤ nonceLast) : (n + 1#64).toNat = n.toNat + 1 := by
  have hlast : nonceLast = 2 ^ 64 - 2 := rfl
  rw [toNat_add]
  simp only [toNat_ofNat]
  omega

theorem nonce12_injective {n m : BitVec 64} (h : nonce12 n = nonce12 m) : n = m := by
  have hbytes : leBytes 8 n.toNat = leBytes 8 m.toNat := by
    have := congrArg Subtype.val h
    exact append_cancel_left this
  have := congrArg leNat hbytes
  rw [leNat_leBytes_of_lt n.isLt, leNat_leBytes_of_lt m.isLt] at this
  exact eq_of_toNat_eq this

/-! ### Every key uses every nonce once -/

/-- What the code does with a cipher state. -/
inductive CsOp where
  | initKey (k : Key)
  | encrypt (ad pt : List Byte)
  | decrypt (ad ct : List Byte)

/-- A cipher state with its history: how many keys it was given, and under which of them each nonce
was used, by an encryption or by a decryption that was accepted. -/
structure CsRun where
  cs : CipherState
  keys : Nat
  used : List (Nat × BitVec 64)

def CsRun.start : CsRun := ⟨.zero, 0, []⟩

/-- The history after an operation that took the state from `cs` to `cs'`. -/
def CsRun.note (r : CsRun) (res : CipherState × Option (List Byte)) : CsRun :=
  { r with
    cs := res.1
    used := if r.cs.hasKey = true ∧ res.2.isSome = true then (r.keys, r.cs.n) :: r.used
      else r.used }

def CsRun.step (p : Primitives) (r : CsRun) : CsOp → Option CsRun
  | .initKey k => some { r with cs := csInitKey k, keys := r.keys + 1 }
  | .encrypt ad pt => some (r.note (csEncrypt p r.cs ad pt))
  | .decrypt ad ct => some (r.note (csDecrypt p r.cs ad ct))

/-- Nonces are used in order: those of the present key lie below the counter. -/
structure CsRun.Inv (r : CsRun) : Prop where
  nodup : r.used.Nodup
  not_last : ∀ u ∈ r.used, u.2.toNat ≤ nonceLast
  keys_le : ∀ u ∈ r.used, u.1 ≤ r.keys
  below : ∀ u ∈ r.used, u.1 = r.keys → u.2.toNat < r.cs.n.toNat

theorem CsRun.Inv.start : CsRun.start.Inv := by
  refine ⟨nodup_nil, ?_, ?_, ?_⟩ <;> simp [CsRun.start]

variable {r : CsRun}

theorem CsRun.Inv.used (h : r.Inv) (hn : r.cs.n.toNat ≤ nonceLast) : CsRun.Inv { r with
      cs := { r.cs with n := r.cs.n + 1#64 }
      used := (r.keys, r.cs.n) :: r.used } where
  nodup := by
    refine nodup_cons.mpr ⟨fun hmem => ?_, h.nodup⟩
    exact absurd (h.below _ hmem rfl) (by simp)
  not_last := forall_mem_cons.mpr ⟨hn, h.not_last⟩
  keys_le := forall_mem_cons.mpr ⟨le_rfl, h.keys_le⟩
  below := by
    intro u hu hk
    rw [toNat_succ hn]
    rcases mem_cons.mp hu with rfl | hu
    · exact lt_succ_self _
    · exact lt_succ_of_lt (h.below u hu hk)

theorem CsRun.Inv.step {r' : CsRun} {op : CsOp} (h : r.Inv) (hr : r.step p op = some r') :
    r'.Inv := by
  cases op with
  | initKey k =>
    cases hr
    refine ⟨h.nodup, h.not_last, fun u hu => le_succ_of_le (h.keys_le u hu), ?_⟩
    intro u hu hk
    have := h.keys_le u hu
    simp only at hk
    omega
  | encrypt ad pt =>
    cases hr
    rcases csEncrypt_cases p r.cs ad pt with ⟨he, -⟩ | ⟨he, hk⟩ | ⟨he, hk, hn, -⟩
    · simpa [note, he] using h
    · simpa [note, he, hk] using h
    · simpa [note, he, hk] using h.used hn
  | decrypt ad ct =>
    cases hr
    rcases csDecrypt_cases p r.cs ad ct with he | ⟨he, hk⟩ | ⟨pt, he, hk, hn, -⟩
    · simpa [note, he] using h
    · simpa [note, he, hk] using h
    · simpa [note, he, hk] using h.used hn

/-- Over any sequence of operations on a cipher state, each key it is given uses each nonce once at
most, and never the reserved one. -/
theorem used_once (p : Primitives) (ops : List CsOp) (hr : run (CsRun.step p) .start ops = some r) :
    r.used.Nodup ∧ ∀ u ∈ r.used, u.2.toNat ≤ nonceLast := by
  have hinv : r.Inv :=
    run_invariant (fun _ _ _ h _ hs => CsRun.Inv.step h hs) CsRun.Inv.start (along_true _ _ ops) hr
  exact ⟨hinv.nodup, hinv.not_last⟩

/-! ### Records in order -/

/-- The two ends of one direction, with what went over it: the records written, their plaintexts,
and the plaintexts the receiver has accepted. -/
structure Channel where
  snd : CipherState
  rcv : CipherState
  wire : List (List Byte)
  sent : List (List Byte)
  got : List (List Byte)

def Channel.start (cs : CipherState) : Channel := ⟨cs, cs, [], [], []⟩

/-- What can happen: a record is written, record number `i` is handed to the receiver (in turn or
not, again or not), or the receiver is handed anything else. -/
inductive Event where
  | write (pt : List Byte)
  | deliver (i : Nat)
  | present (ct : List Byte)

/-- The receiver is handed `ct`. -/
def Channel.take (p : Primitives) (ch : Channel) (ct : List Byte) : Channel :=
  match transportDecrypt p ch.rcv ct with
  | (_, none) => ch
  | (rcv, some pt) => { ch with rcv := rcv, got := ch.got ++ [pt] }

def Channel.step (p : Primitives) (ch : Channel) : Event → Option Channel
  | .write pt =>
    match transportEncrypt p ch.snd pt with
    | (_, none) => some ch
    | (snd, some ct) => some
      { ch with snd := snd, wire := ch.wire ++ [ct], sent := ch.sent ++ [pt] }
  | .deliver i => (ch.wire[i]?).map (ch.take p)
  | .present ct => some (ch.take p ct)

/-- The receiver refuses `ct`. -/
def Channel.Refuses (p : Primitives) (ch : Channel) (ct : List Byte) : Prop :=
  (transportDecrypt p ch.rcv ct).2 = none

/-- A step that hands the receiver nothing but the next record, or something it refuses. -/
def Channel.InTurn (p : Primitives) (ch : Channel) : Event → Prop
  | .write _ => True
  | .deliver i => i = ch.got.length ∨ ∀ ct, ch.wire[i]? = some ct → ch.Refuses p ct
  | .present ct => ch.Refuses p ct

/-- Both ends are at the same key, each at the nonce its count says, and what was accepted is what
was sent, from the front. -/
structure Channel.Synced (p : Primitives) (k : Key) (ch : Channel) : Prop where
  snd_key : ch.snd.k = k ∧ ch.snd.hasKey = true
  rcv_key : ch.rcv.k = k ∧ ch.rcv.hasKey = true
  snd_n : ch.snd.n.toNat = ch.sent.length
  rcv_n : ch.rcv.n.toNat = ch.got.length
  wire_len : ch.wire.length = ch.sent.length
  sealed : ∀ i pt, ch.sent[i]? = some pt → pt.length ≤ maxPt ∧ i ≤ nonceLast ∧
    ch.wire[i]? = some (p.aeadEncrypt k (nonce12 (BitVec.ofNat 64 i)) [] pt)
  got_eq : ch.got = ch.sent.take ch.got.length

namespace Channel.Synced

variable {k : Key} {ch ch' : Channel}

open Channel

theorem start (p : Primitives) (k : Key) : (Channel.start (csInitKey k)).Synced p k where
  snd_key := ⟨rfl, rfl⟩
  rcv_key := ⟨rfl, rfl⟩
  snd_n := rfl
  rcv_n := rfl
  wire_len := rfl
  sealed := by simp [Channel.start]
  got_eq := rfl

theorem got_le (h : ch.Synced p k) : ch.got.length ≤ ch.sent.length := by
  have := congrArg length h.got_eq
  rw [length_take] at this
  omega

theorem rcv_n_eq (h : ch.Synced p k) : ch.rcv.n = BitVec.ofNat 64 ch.got.length := by
  rw [← h.rcv_n, ofNat_toNat, setWidth_eq]

theorem snd_n_eq (h : ch.Synced p k) : ch.snd.n = BitVec.ofNat 64 ch.sent.length := by
  rw [← h.snd_n, ofNat_toNat, setWidth_eq]

/-- The next record is accepted, and decrypts to what was written. -/
theorem next (hp : p.Inverts) (h : ch.Synced p k) (hpt : ch.sent[ch.got.length]? = some pt) :
    transportDecrypt p ch.rcv (p.aeadEncrypt k (nonce12 (BitVec.ofNat 64 ch.got.length)) [] pt) =
      ({ ch.rcv with n := ch.rcv.n + 1#64 }, some pt) := by
  obtain ⟨hlen, hlast, -⟩ := h.sealed _ _ hpt
  have hct := p.length_aeadEncrypt k (nonce12 (BitVec.ofNat 64 ch.got.length)) [] pt
  have hmax : maxPt + tagLen = maxMsg := rfl
  have hdec : p.aeadDecrypt ch.rcv.k (nonce12 ch.rcv.n) []
      (p.aeadEncrypt k (nonce12 (BitVec.ofNat 64 ch.got.length)) [] pt) = some pt := by
    rw [h.rcv_key.1, h.rcv_n_eq]
    exact hp k _ [] pt
  unfold transportDecrypt csDecrypt
  rw [if_neg (by omega), if_neg (by omega), if_neg (by simp [h.rcv_key.2]),
    if_neg (by rw [h.rcv_n]; omega), hdec]

theorem wire_next (h : ch.Synced p k) (hct : ch.wire[ch.got.length]? = some ct) :
    ∃ pt, ch.sent[ch.got.length]? = some pt ∧
      ct = p.aeadEncrypt k (nonce12 (BitVec.ofNat 64 ch.got.length)) [] pt := by
  have hlt : ch.got.length < ch.sent.length := by
    rw [← h.wire_len]
    exact (List.getElem?_eq_some_iff.mp hct).1
  refine ⟨_, getElem?_eq_getElem hlt, ?_⟩
  have := (h.sealed _ _ (getElem?_eq_getElem hlt)).2.2
  exact some.inj (hct.symm.trans this)

/-- Handing over the next record keeps the two ends in step. -/
theorem take_next (hp : p.Inverts) (h : ch.Synced p k) (hpt : ch.sent[ch.got.length]? = some pt) :
    let ct := p.aeadEncrypt k (nonce12 (BitVec.ofNat 64 ch.got.length)) [] pt
    (ch.take p ct).got = ch.got ++ [pt] ∧ (ch.take p ct).Synced p k := by
  have hn : ch.rcv.n.toNat ≤ nonceLast := by
    rw [h.rcv_n]
    exact (h.sealed _ _ hpt).2.1
  dsimp only
  rw [take, h.next hp hpt]
  refine ⟨rfl, h.snd_key, h.rcv_key, h.snd_n, ?_, h.wire_len, h.sealed, ?_⟩
  · simp only [toNat_succ hn, h.rcv_n, length_append, length_singleton]
  · simp only [length_append, length_singleton, take_add_one, hpt, toList_some]
    rw [← h.got_eq]

theorem take_refused (h : ch.Refuses p ct) : ch.take p ct = ch := by
  unfold Refuses at h
  unfold take
  split
  · rfl
  · rename_i heq
    rw [heq] at h
    cases h

/-- A plaintext within the limit is sealed, as long as there is a nonce left. -/
theorem writes (h : ch.Synced p k) (hlen : pt.length ≤ maxPt) (hn : ch.sent.length ≤ nonceLast) :
    transportEncrypt p ch.snd pt = ({ ch.snd with n := ch.snd.n + 1#64 },
      some (p.aeadEncrypt k (nonce12 (BitVec.ofNat 64 ch.sent.length)) [] pt)) := by
  rw [← h.snd_key.1, ← h.snd_n_eq, transportEncrypt, csEncrypt, if_neg (by omega),
    if_neg (by simp [h.snd_key.2]), if_neg (by rw [h.snd_n]; omega)]

theorem write (h : ch.Synced p k) (hs : ch.step p (.write pt) = some ch') : ch'.Synced p k := by
  simp only [step, transportEncrypt] at hs
  rcases csEncrypt_cases p ch.snd [] pt with ⟨he, -⟩ | ⟨-, hk⟩ | ⟨he, -, hn, hlen⟩
  · rw [he] at hs
    cases hs
    exact h
  · rw [h.snd_key.2] at hk
    cases hk
  · rw [he] at hs
    cases hs
    have hgot := h.got_le
    refine ⟨h.snd_key, h.rcv_key, ?_, h.rcv_n, by simp [h.wire_len], ?_, ?_⟩
    · simp only [toNat_succ hn, h.snd_n, length_append, length_singleton]
    · intro i q hq
      rcases lt_or_ge i ch.sent.length with hi | hi
      · rw [List.getElem?_append_left hi] at hq
        rw [List.getElem?_append_left (by rw [h.wire_len]; exact hi)]
        exact h.sealed i q hq
      · obtain rfl : i = ch.sent.length := by
          have := (List.getElem?_eq_some_iff.mp hq).1
          simp only [length_append, length_singleton] at this
          omega
        obtain rfl : pt = q := by simpa using hq
        refine ⟨hlen, by rw [← h.snd_n]; exact hn, ?_⟩
        rw [← h.wire_len, getElem?_concat_length, h.wire_len, h.snd_key.1, h.snd_n_eq]
    · rw [take_append_of_le_length hgot]
      exact h.got_eq

theorem step (hp : p.Inverts) (h : ch.Synced p k) {ev : Event} (hok : ch.InTurn p ev)
    (hs : ch.step p ev = some ch') : ch'.Synced p k := by
  cases ev with
  | write pt => exact h.write hs
  | deliver i =>
    obtain ⟨ct, hct, rfl⟩ := map_eq_some_iff.mp hs
    rcases hok with rfl | href
    · obtain ⟨pt, hpt, rfl⟩ := h.wire_next hct
      exact (h.take_next hp hpt).2
    · rw [take_refused (href ct hct)]
      exact h
  | present ct =>
    cases hs
    rw [take_refused hok]
    exact h

/-- A record out of turn is refused when the cipher refuses a foreign nonce. -/
theorem refuses (hb : p.BindsNonce) (h : ch.Synced p k) {i : Nat} (hct : ch.wire[i]? = some ct)
    (hi : i ≠ ch.got.length) : ch.Refuses p ct := by
  have hlt : i < ch.sent.length := by
    rw [← h.wire_len]
    exact (List.getElem?_eq_some_iff.mp hct).1
  obtain ⟨-, hlast, hw⟩ := h.sealed _ _ (getElem?_eq_getElem hlt)
  have hnl : nonceLast = 2 ^ 64 - 2 := rfl
  have hne : nonce12 ch.rcv.n ≠ nonce12 (BitVec.ofNat 64 i) := by
    intro heq
    have := congrArg BitVec.toNat (nonce12_injective heq)
    rw [h.rcv_n, toNat_ofNat, mod_eq_of_lt (by omega)] at this
    exact hi this.symm
  obtain rfl := some.inj (hct.symm.trans hw)
  unfold Refuses transportDecrypt csDecrypt
  split_ifs
  · rfl
  · rfl
  · rename_i hk
    rw [h.rcv_key.2] at hk
    cases hk
  · rfl
  · rw [h.rcv_key.1, hb _ _ _ _ _ hne]

end Channel.Synced

/-- Every run in turn keeps the two ends in step. -/
theorem Channel.synced_run (hp : p.Inverts) (k : Key) {evs : List Event} {ch : Channel}
    (hturn : Along (step p) (InTurn p) (.start (csInitKey k)) evs)
    (hrun : run (step p) (.start (csInitKey k)) evs = some ch) : ch.Synced p k :=
  run_invariant (fun _ _ _ h hok hs => Synced.step hp h hok hs)
    (Synced.start p k) hturn hrun

/-- An event that hands over records of the other end only. -/
def Event.Genuine : Event → Prop
  | .present _ => False
  | _ => True

/-- Where the cipher refuses a foreign nonce, every step with genuine records is in turn. -/
theorem Channel.inTurn_of_genuine (hp : p.Inverts) (hb : p.BindsNonce) (k : Key) {evs : List Event}
    (hev : ∀ ev ∈ evs, ev.Genuine) :
    Along (step p) (InTurn p) (.start (csInitKey k)) evs := by
  have hturn : ∀ (ch : Channel) (ev : Event), ch.Synced p k → ev.Genuine → ch.InTurn p ev := by
    intro ch ev h hg
    cases ev with
    | write pt => trivial
    | deliver i =>
      by_cases hi : i = ch.got.length
      · exact .inl hi
      · exact .inr fun ct hct => h.refuses hb hct hi
    | present ct => exact hg.elim
  refine along_of_invariant (fun ch ev ch' h hg hs => ?_) hturn (Synced.start p k)
    (along_of_forall (step p) _ hev)
  exact Synced.step hp h (hturn ch ev h hg) hs

/-- The receiver accepts a genuine record exactly when it is the next one. -/
theorem Channel.accepts_iff (hp : p.Inverts) (hb : p.BindsNonce) {k : Key} {ch : Channel}
    (h : ch.Synced p k) {i : Nat} (hct : ch.wire[i]? = some ct) :
    (transportDecrypt p ch.rcv ct).2.isSome = true ↔ i = ch.got.length := by
  constructor
  · intro hsome
    by_contra hi
    rw [h.refuses hb hct hi] at hsome
    cases hsome
  · intro hi
    subst hi
    obtain ⟨pt, hpt, rfl⟩ := h.wire_next hct
    rw [h.next hp hpt]
    rfl

end Perfcached.Noise
