import Perfcached.Noise.Transport

/-!
# Perfcached.Noise.Handshake

The handshake of the encrypted channel, Noise NNpsk0 (`pc_noise_hkdf`, the `sym_*` functions,
`write_e`, `read_e` and the `pc_hs_*` functions of `src/pc_noise.c`), over any primitives.

The random bytes of `pc_hs_write_msg1` and `pc_hs_write_msg2` are arguments. The two parties run
the same tokens on the same symmetric state: after each message both have the chaining key, the
transcript hash and the cipher state of the other, so that both split into the same two cipher
states (`msg1_agrees`, `msg2_agrees`), from which the transport starts
(`Perfcached.Noise.Transport`).
-/

namespace Perfcached.Noise

open Bytes Machine List Option

/-- The key agreement commutes. -/
def Primitives.Commutes (p : Primitives) : Prop :=
  ∀ a b, p.scalarmult a (p.scalarmultBase b) = p.scalarmult b (p.scalarmultBase a)

/-! ### The symmetric state -/

def noiseName : List Byte := chars "Noise_NNpsk0_25519_ChaChaPoly_SHA256"

/-- `pc_noise_hkdf` with all three outputs; a caller takes the ones it asks for. -/
def noiseHkdf (p : Primitives) (ck : Key) (ikm : List Byte) : Key × Key × Key :=
  let temp := p.hmac ck ikm
  let o1 := p.hmac temp [1#8]
  let o2 := p.hmac temp (o1 ++ [2#8])
  let o3 := p.hmac temp (o2 ++ [3#8])
  (o1, o2, o3)

/-- `struct pc_symstate`. -/
structure SymState where
  ck : Key
  h : Key
  cs : CipherState

def symInit (p : Primitives) : SymState := ⟨p.hash noiseName, p.hash noiseName, .zero⟩

def symMixHash (p : Primitives) (ss : SymState) (d : List Byte) : SymState :=
  { ss with h := p.hash (ss.h ++ d) }

def symMixKey (p : Primitives) (ss : SymState) (ikm : List Byte) : SymState :=
  let (o1, o2, _) := noiseHkdf p ss.ck ikm
  { ss with ck := o1, cs := csInitKey o2 }

def symMixKeyAndHash (p : Primitives) (ss : SymState) (ikm : List Byte) : SymState :=
  let (o1, o2, o3) := noiseHkdf p ss.ck ikm
  { symMixHash p { ss with ck := o1 } o2 with cs := csInitKey o3 }

def symEncryptAndHash (p : Primitives) (ss : SymState) (pt : List Byte) :
    SymState × Option (List Byte) :=
  match csEncrypt p ss.cs ss.h pt with
  | (cs, none) => ({ ss with cs := cs }, none)
  | (cs, some ct) => (symMixHash p { ss with cs := cs } ct, some ct)

def symDecryptAndHash (p : Primitives) (ss : SymState) (ct : List Byte) :
    SymState × Option (List Byte) :=
  match csDecrypt p ss.cs ss.h ct with
  | (cs, none) => ({ ss with cs := cs }, none)
  | (cs, some pt) => (symMixHash p { ss with cs := cs } ct, some pt)

/-- `sym_split`: the initiator's direction first. -/
def symSplit (p : Primitives) (ss : SymState) : CipherState × CipherState :=
  let (o1, o2, _) := noiseHkdf p ss.ck []
  (csInitKey o1, csInitKey o2)

/-! ### The messages -/

/-- `struct pc_handshake`. -/
structure Handshake where
  ss : SymState
  ePriv : Key
  ePub : Key
  re : Key
  initiator : Bool

/-- `write_e`, with the private key in place; the public key goes out. -/
def writeE (p : Primitives) (hs : Handshake) : Handshake :=
  let pub := p.scalarmultBase hs.ePriv
  { hs with ePub := pub, ss := symMixKey p (symMixHash p hs.ss pub) pub }

def readE (p : Primitives) (hs : Handshake) (e : Key) : Handshake :=
  { hs with re := e, ss := symMixKey p (symMixHash p hs.ss e) e }

/-- `pc_hs_init_responder` and `pc_hs_init_initiator`. -/
def hsInit (p : Primitives) (initiator : Bool) (prologue : List Byte) : Handshake :=
  ⟨symMixHash p (symInit p) prologue, zeroKey, zeroKey, zeroKey, initiator⟩

def hsInitResponder (p : Primitives) (prologue : List Byte) : Handshake := hsInit p false prologue

def hsInitInitiator (p : Primitives) (prologue : List Byte) : Handshake := hsInit p true prologue

/-- `pc_hs_write_msg1`, with `e` for the random bytes. -/
def hsWriteMsg1 (p : Primitives) (hs : Handshake) (psk e : Key) (payload : List Byte) :
    Handshake × Option (List Byte) :=
  let hs := writeE p { hs with ss := symMixKeyAndHash p hs.ss psk, ePriv := e }
  match symEncryptAndHash p hs.ss payload with
  | (ss, none) => ({ hs with ss := ss }, none)
  | (ss, some ct) => ({ hs with ss := ss }, some (hs.ePub ++ ct))

/-- The public key in front of a message. -/
def frontKey (msg : List Byte) (h : 32 + tagLen ≤ msg.length) : Key :=
  ⟨msg.take 32, by rw [List.length_take]; omega⟩

/-- `pc_hs_read_msg1`: the payload, unless the message is refused. -/
def hsReadMsg1 (p : Primitives) (hs : Handshake) (psk : Key) (msg : List Byte) :
    Handshake × Option (List Byte) :=
  if h : 32 + tagLen ≤ msg.length then
    let hs := readE p { hs with ss := symMixKeyAndHash p hs.ss psk } (frontKey msg h)
    let (ss, payload) := symDecryptAndHash p hs.ss (msg.drop 32)
    ({ hs with ss := ss }, payload)
  else (hs, none)

/-- `pc_hs_write_msg2`: the message and the responder's sending and receiving states. -/
def hsWriteMsg2 (p : Primitives) (hs : Handshake) (e : Key) (payload : List Byte) :
    Handshake × Option (List Byte × CipherState × CipherState) :=
  let hs := writeE p { hs with ePriv := e }
  match p.scalarmult hs.ePriv hs.re with
  | none => (hs, none)
  | some dh =>
    match symEncryptAndHash p (symMixKey p hs.ss dh) payload with
    | (ss, none) => ({ hs with ss := ss }, none)
    | (ss, some ct) =>
      let (c1, c2) := symSplit p ss
      ({ hs with ss := ss }, some (hs.ePub ++ ct, c2, c1))

/-- `pc_hs_read_msg2`: the payload and the initiator's sending and receiving states. -/
def hsReadMsg2 (p : Primitives) (hs : Handshake) (msg : List Byte) :
    Handshake × Option (List Byte × CipherState × CipherState) :=
  if h : 32 + tagLen ≤ msg.length then
    let hs := readE p hs (frontKey msg h)
    match p.scalarmult hs.ePriv hs.re with
    | none => (hs, none)
    | some dh =>
      match symDecryptAndHash p (symMixKey p hs.ss dh) (msg.drop 32) with
      | (ss, none) => ({ hs with ss := ss }, none)
      | (ss, some payload) =>
        let (c1, c2) := symSplit p ss
        ({ hs with ss := ss }, some (payload, c1, c2))
  else (hs, none)

/-! ### The two sides agree -/

variable {p : Primitives}

/-- The symmetric state after a payload was sealed or opened under a fresh key. -/
def afterPayload (p : Primitives) (ss : SymState) (ct : List Byte) : SymState :=
  symMixHash p { ss with cs := { ss.cs with n := ss.cs.n + 1#64 } } ct

/-- The payload of a message, sealed under a key just mixed in. -/
def sealed (p : Primitives) (ss : SymState) (pt : List Byte) : List Byte :=
  p.aeadEncrypt ss.cs.k (nonce12 0#64) ss.h pt

variable {ss : SymState}

theorem symEncryptAndHash_fresh {k : Key} {pt : List Byte} (hcs : ss.cs = csInitKey k)
    (hlen : pt.length ≤ maxPt) :
    symEncryptAndHash p ss pt = (afterPayload p ss (sealed p ss pt), some (sealed p ss pt)) := by
  unfold symEncryptAndHash csEncrypt sealed
  rw [hcs, if_neg (by omega), if_neg (by simp [csInitKey]), if_neg (by simp [csInitKey])]
  simp [afterPayload, csInitKey, hcs]

theorem symDecryptAndHash_fresh (hp : p.Inverts) {k : Key} {pt : List Byte}
    (hcs : ss.cs = csInitKey k) (hlen : pt.length ≤ maxPt) :
    symDecryptAndHash p ss (sealed p ss pt) = (afterPayload p ss (sealed p ss pt), some pt) := by
  have hct := p.length_aeadEncrypt ss.cs.k (nonce12 0#64) ss.h pt
  have hmax : maxPt + tagLen = maxMsg := rfl
  have hinv := hp ss.cs.k (nonce12 0#64) ss.h pt
  unfold symDecryptAndHash csDecrypt sealed
  rw [hcs] at hct hinv ⊢
  rw [if_neg (by omega), if_neg (by simp [csInitKey]), if_neg (by simp [csInitKey])]
  simp only [csInitKey] at hinv ⊢
  rw [hinv]
  simp [afterPayload, csInitKey, hcs]

theorem frontKey_append (e : Key) (ct : List Byte) (h : 32 + tagLen ≤ (e ++ ct).length) :
    frontKey (e ++ ct) h = e := by
  apply Subtype.ext
  simp only [frontKey]
  rw [take_append_of_le_length (by rw [e.2]), take_of_length_le (by rw [e.2])]

theorem drop_front (e : Key) (ct : List Byte) : (e ++ ct : List Byte).drop 32 = ct := by
  rw [drop_append_of_le_length (by rw [e.2]), drop_of_length_le (by rw [e.2]), nil_append]

theorem length_message (e : Key) (ss : SymState) (pt : List Byte) :
    32 + tagLen ≤ (e ++ sealed p ss pt : List Byte).length := by
  rw [length_append, e.2, sealed, p.length_aeadEncrypt]
  omega

/-- The state both sides have once the tokens of the first message are processed. -/
def tokens1 (p : Primitives) (prologue : List Byte) (psk e : Key) : SymState :=
  let pub := p.scalarmultBase e
  symMixKey p (symMixHash p (symMixKeyAndHash p (symMixHash p (symInit p) prologue) psk) pub) pub

/-- The first message and what each side has after it. -/
theorem msg1_agrees (hp : p.Inverts) (prologue pay : List Byte) (psk e : Key)
    (hlen : pay.length ≤ maxPt) :
    let ss := tokens1 p prologue psk e
    let m := p.scalarmultBase e ++ sealed p ss pay
    let ss' := afterPayload p ss (sealed p ss pay)
    hsWriteMsg1 p (hsInitInitiator p prologue) psk e pay =
        (⟨ss', e, p.scalarmultBase e, zeroKey, true⟩, some m) ∧
      hsReadMsg1 p (hsInitResponder p prologue) psk m =
        (⟨ss', zeroKey, zeroKey, p.scalarmultBase e, false⟩, some pay) := by
  have hcs : (tokens1 p prologue psk e).cs = csInitKey _ := rfl
  constructor
  · simp only [hsWriteMsg1, writeE, hsInitInitiator, hsInit]
    rw [show symMixKey p _ _ = tokens1 p prologue psk e from rfl, symEncryptAndHash_fresh hcs hlen]
  · simp only [hsReadMsg1, readE, hsInitResponder, hsInit]
    rw [dif_pos (length_message _ _ _)]
    simp only [frontKey_append, drop_front]
    rw [show symMixKey p _ _ = tokens1 p prologue psk e from rfl,
      symDecryptAndHash_fresh hp hcs hlen]

/-- The state both sides have once the tokens of the second message are processed. -/
def tokens2 (p : Primitives) (ss : SymState) (e dh : Key) : SymState :=
  let pub := p.scalarmultBase e
  symMixKey p (symMixKey p (symMixHash p ss pub) pub) dh

/-- The second message: from one symmetric state, both sides split into the same cipher states. -/
theorem msg2_agrees (hp : p.Inverts) (hc : p.Commutes) {eI eR dh : Key} {pay : List Byte}
    (hlen : pay.length ≤ maxPt) (hdh : p.scalarmult eR (p.scalarmultBase eI) = some dh)
    (ePriv ePub re : Key) :
    ∃ m k₁ k₂, (hsWriteMsg2 p ⟨ss, ePriv, ePub, p.scalarmultBase eI, false⟩ eR pay).2 =
        some (m, csInitKey k₂, csInitKey k₁) ∧
      (hsReadMsg2 p ⟨ss, eI, p.scalarmultBase eI, re, true⟩ m).2 =
        some (pay, csInitKey k₁, csInitKey k₂) := by
  have hcs : (tokens2 p ss eR dh).cs = csInitKey _ := rfl
  let ss' := afterPayload p (tokens2 p ss eR dh) (sealed p (tokens2 p ss eR dh) pay)
  refine ⟨p.scalarmultBase eR ++ sealed p (tokens2 p ss eR dh) pay, (noiseHkdf p ss'.ck []).1,
    (noiseHkdf p ss'.ck []).2.1, ?_, ?_⟩
  · simp only [hsWriteMsg2, writeE, hdh]
    rw [show symMixKey p _ dh = tokens2 p ss eR dh from rfl, symEncryptAndHash_fresh hcs hlen]
    rfl
  · rw [hsReadMsg2, dif_pos (length_message _ _ _)]
    simp only [frontKey_append, drop_front, readE]
    rw [hc, hdh]
    simp only
    rw [show symMixKey p _ dh = tokens2 p ss eR dh from rfl, symDecryptAndHash_fresh hp hcs hlen]
    rfl

/-! ### The channel -/

/-- What a direction of the channel gives, from a cipher state that both its ends start from. -/
structure Delivers (p : Primitives) (cs : CipherState) : Prop where
  /-- A plaintext within the limit makes a record, for each nonce but the reserved one. -/
  writes : ∀ evs ch, Along (Channel.step p) (Channel.InTurn p) (.start cs) evs →
    run (Channel.step p) (.start cs) evs = some ch → ∀ pt, pt.length ≤ maxPt →
      ch.sent.length ≤ nonceLast → ∃ snd ct, transportEncrypt p ch.snd pt = (snd, some ct) ∧
        ct.length = pt.length + tagLen ∧ ch.step p (.write pt) =
          some { ch with snd := snd, wire := ch.wire ++ [ct], sent := ch.sent ++ [pt] }
  /-- Whatever else the receiver has refused on the way, what it accepted is what was written, from
  the front, and the next record decrypts to what was written next. -/
  in_order : ∀ evs ch, Along (Channel.step p) (Channel.InTurn p) (.start cs) evs →
    run (Channel.step p) (.start cs) evs = some ch →
      ch.got = ch.sent.take ch.got.length ∧ ch.wire.length = ch.sent.length ∧
      ∀ ct, ch.wire[ch.got.length]? = some ct →
        ∃ pt, ch.sent[ch.got.length]? = some pt ∧ (transportDecrypt p ch.rcv ct).2 = some pt
  /-- Where the cipher refuses a foreign nonce, records may be dropped, repeated or swapped in any
  way: a record is accepted exactly when it is the next one. -/
  only_next : p.BindsNonce → ∀ evs ch, (∀ ev ∈ evs, ev.Genuine) →
    run (Channel.step p) (.start cs) evs = some ch → ch.got = ch.sent.take ch.got.length ∧
      ∀ i ct, ch.wire[i]? = some ct →
        ((transportDecrypt p ch.rcv ct).2.isSome = true ↔ i = ch.got.length)

theorem delivers (hp : p.Inverts) (k : Key) : Delivers p (csInitKey k) where
  writes := by
    intro evs ch hturn hrun pt hlen hn
    have hsealed := (Channel.synced_run hp k hturn hrun).writes hlen hn
    exact ⟨_, _, hsealed, p.length_aeadEncrypt _ _ _ _, by rw [Channel.step, hsealed]⟩
  in_order := by
    intro evs ch hturn hrun
    have h := Channel.synced_run hp k hturn hrun
    refine ⟨h.got_eq, h.wire_len, fun ct hct => ?_⟩
    obtain ⟨pt, hpt, rfl⟩ := h.wire_next hct
    exact ⟨pt, hpt, by rw [h.next hp hpt]⟩
  only_next := by
    intro hb evs ch hev hrun
    have h := Channel.synced_run hp k (Channel.inTurn_of_genuine hp hb k hev) hrun
    exact ⟨h.got_eq, fun i ct hct => Channel.accepts_iff hp hb h hct⟩

/-- **The encrypted channel delivers records once and in order.** Both handshake reads return the
payload written, and both sides end with the same cipher state for each direction, unless the key
agreement refuses the two keys and no second message is written. Each direction then makes a record
of every plaintext within the limits and delivers its records in order; no cipher state uses a nonce
twice under one key, or the reserved one; and a refusal leaves the cipher state as it was. -/
theorem channel_delivers (p : Primitives) (hp : p.Inverts) (hc : p.Commutes) (psk eI eR : Key)
    (prologue pay₁ pay₂ : List Byte) (h₁ : pay₁.length ≤ maxPt) (h₂ : pay₂.length ≤ maxPt) :
    (∃ I R m₁, hsWriteMsg1 p (hsInitInitiator p prologue) psk eI pay₁ = (I, some m₁) ∧
      hsReadMsg1 p (hsInitResponder p prologue) psk m₁ = (R, some pay₁) ∧
      ((p.scalarmult eR (p.scalarmultBase eI) = none ∧ (hsWriteMsg2 p R eR pay₂).2 = none) ∨
        ∃ m₂ c₁ c₂, (hsWriteMsg2 p R eR pay₂).2 = some (m₂, c₂, c₁) ∧
          (hsReadMsg2 p I m₂).2 = some (pay₂, c₁, c₂) ∧ Delivers p c₁ ∧ Delivers p c₂)) ∧
    (∀ ops r, run (CsRun.step p) .start ops = some r →
      r.used.Nodup ∧ ∀ u ∈ r.used, u.2.toNat ≠ 2 ^ 64 - 1) ∧
    (∀ cs ad pt, (csEncrypt p cs ad pt).2 = none → (csEncrypt p cs ad pt).1 = cs) ∧
    (∀ cs ad ct, (csDecrypt p cs ad ct).2 = none → (csDecrypt p cs ad ct).1 = cs) ∧
    (∀ cs ct, (transportDecrypt p cs ct).2 = none → (transportDecrypt p cs ct).1 = cs) := by
  refine ⟨?_, ?_, fun _ _ _ h => csEncrypt_refused h, fun _ _ _ h => csDecrypt_refused h,
    fun _ _ h => transportDecrypt_refused h⟩
  · obtain ⟨hw, hr⟩ := msg1_agrees hp prologue pay₁ psk eI h₁
    refine ⟨_, _, _, hw, hr, ?_⟩
    cases hdh : p.scalarmult eR (p.scalarmultBase eI) with
    | none => exact .inl ⟨rfl, by simp only [hsWriteMsg2, writeE, hdh]⟩
    | some dh =>
      obtain ⟨m₂, k₁, k₂, hw₂, hr₂⟩ := msg2_agrees hp hc h₂ hdh zeroKey zeroKey zeroKey
      exact .inr ⟨m₂, _, _, hw₂, hr₂, delivers hp k₁, delivers hp k₂⟩
  · intro ops r hr
    obtain ⟨hnodup, hlast⟩ := used_once p ops hr
    refine ⟨hnodup, fun u hu => ?_⟩
    have := hlast u hu
    have hnl : nonceLast = 2 ^ 64 - 2 := rfl
    omega

/-- Primitives with all the properties asked for: the tag is the nonce, and the shared key is the
exclusive or of the two keys. -/
def plainPrimitives : Primitives where
  hash := fun _ => zeroKey
  hmac := fun _ _ => zeroKey
  scalarmultBase := id
  scalarmult := fun a b => some ⟨a.1.zipWith (· ^^^ ·) b.1, by simp [a.2, b.2]⟩
  aeadEncrypt := fun _ n _ pt => pt ++ (n.1 ++ List.replicate 4 0#8)
  aeadDecrypt := fun _ n _ ct =>
    if ct.drop (ct.length - 16) = n.1 ++ List.replicate 4 0#8 then some (ct.take (ct.length - 16))
    else none
  length_aeadEncrypt := fun _ n _ pt => by simp [n.2, tagLen]

theorem plainPrimitives_inverts : plainPrimitives.Inverts := by
  intro k n ad pt
  simp [plainPrimitives, n.2]

theorem plainPrimitives_commutes : plainPrimitives.Commutes := by
  intro a b
  simp only [plainPrimitives, id_eq, some.injEq, Subtype.mk.injEq]
  exact zipWith_comm_of_comm BitVec.xor_comm

theorem plainPrimitives_bindsNonce : plainPrimitives.BindsNonce := by
  intro k n n' ad pt hne
  have hne' : n.1 ≠ n'.1 := fun h => hne (Subtype.ext h.symm)
  simp [plainPrimitives, n.2, hne']

/-- Two records, of which the second comes first and both come twice. -/
def plainEvents : List Event :=
  [.write [3#8], .write [4#8], .deliver 1, .deliver 0, .deliver 0, .deliver 1, .deliver 1]

theorem channel_delivers_plain : ∃ I R m₁ m₂ c₁ c₂ ch,
      hsWriteMsg1 plainPrimitives (hsInitInitiator plainPrimitives []) zeroKey zeroKey [1#8] =
        (I, some m₁) ∧
      hsReadMsg1 plainPrimitives (hsInitResponder plainPrimitives []) zeroKey m₁ =
        (R, some [1#8]) ∧
      (hsWriteMsg2 plainPrimitives R zeroKey [2#8]).2 = some (m₂, c₂, c₁) ∧
      (hsReadMsg2 plainPrimitives I m₂).2 = some ([2#8], c₁, c₂) ∧
      run (Channel.step plainPrimitives) (.start c₁) plainEvents = some ch ∧
      ch.sent = [[3#8], [4#8]] ∧ ch.got = [[3#8], [4#8]] ∧
      ∀ i ct, ch.wire[i]? = some ct →
        ((transportDecrypt plainPrimitives ch.rcv ct).2.isSome = true ↔ i = 2) := by
  obtain ⟨⟨I, R, m₁, hw₁, hr₁, h₂⟩, -⟩ := channel_delivers plainPrimitives plainPrimitives_inverts
    plainPrimitives_commutes zeroKey zeroKey zeroKey [] [1#8] [2#8] (by decide) (by decide)
  obtain ⟨m₂, c₁, c₂, hw₂, hr₂, hd, -⟩ := h₂.resolve_left fun h => nomatch h.1
  obtain rfl : csInitKey zeroKey = c₁ := by
    cases hw₁
    cases hr₁
    cases hw₂
    rfl
  exact ⟨I, R, m₁, m₂, _, c₂, _, hw₁, hr₁, hw₂, hr₂, rfl, rfl, rfl,
    (hd.only_next plainPrimitives_bindsNonce plainEvents _ (by simp [plainEvents, Event.Genuine])
      rfl).2⟩

end Perfcached.Noise
