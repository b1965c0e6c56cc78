import Mathlib
import Perfcached.Store.ResizeDelete

/-!
# Perfcached.Store.ResizeWrites

SETs and reads of a key while its collection is resized.

Of the old table's record and the new one's, the greater version never goes down: what
`drain_forget` drops is at or below what the new table has. A SET of the new table carries the old
one's record over before it stamps, and one of the old table stamps above the record there, so that
a SET that begins after another has completed is stamped above it; and the last pass of the drain
leaves nothing behind in the old table.

A read looks at the new table, then at the old one. A record that moves between the two looks, from
the old table into the new one, is in neither when it is looked for: the read does not find a key
that was SET before it began, or answers the older value it saw first. A request that resolved the
old table before the swap finds nothing there once the drain has dropped the record. None of this
happens where `drain_forget` drops a record of the old table only while no request counts on it
(`Resizing.Undisturbed`).
-/

namespace Perfcached.Resize

open Bytes Machine List Option Nat

/-! ### Scope -/

/-- No deletes and no deadlines, and the last pass of the drain begins once the requests on the
old table have answered. -/
def Resizing.Scope (s : Resizing) : Act → Prop
  | .beginDel _ => False
  | .beginSet _ _ expires => expires = 0
  | .close => s.calm = true
  | _ => True

/-- The request counts on what the old table holds: it resolved that table and has still to look at
it, or it is a read that has looked at the new table and goes on to the old one. -/
def Req.relies : Req → Bool
  | .set _ _ _ .old _ .resolved | .set _ _ _ .old _ .storing => true
  | .get _ .old _ .resolved => true
  | .get _ .new _ (.looked _) | .get _ .new _ .missed | .get _ .new _ (.hit _)
  | .get _ .new _ (.newer _) => true
  | _ => false

/-- The version up to which the step drops the old table's record, if it is the remove of a
`drain_forget`. -/
def Resizing.forgets (s : Resizing) : Act → Option Nat
  | .copy _ =>
    match s.copier with
    | .forget (.drop ver) => some ver
    | _ => none
  | .next i _ =>
    match s.reqs[i]? with
    | some (.set _ _ _ _ _ (.forget _ (.drop ver))) => some ver
    | _ => none
  | _ => none

/-- `drain_forget` drops a record only while no request counts on it. -/
def Resizing.Undisturbed (k : Key) (s : Resizing) (a : Act) : Prop :=
  ∀ ver ∈ s.forgets a, ∀ r ∈ s.old.lookup k, r.ver ≤ ver → ∀ q ∈ s.reqs, q.relies = false
  deriving Decidable

instance (s : Resizing) : DecidablePred s.Scope := fun a => by
  unfold Resizing.Scope
  split <;> infer_instance

/-! ### What a request knows -/

def verOf (o : Option Rec) : Nat := (o.map Rec.ver).getD 0

/-- The versions are at or below `v`. -/
def Upto (prior : List Nat) (v : Nat) : Prop := ∀ w ∈ prior, w ≤ v

/-- The version a SET has stored, with its value. -/
def Req.wrote : Req → Option (Nat × List Byte)
  | .set v _ _ _ _ (.forget (some ver) _) => some (ver, v)
  | .set v _ _ _ _ (.done (some ver)) => some (ver, v)
  | _ => none

/-- The versions of the SETs that had completed when the request began. -/
def Req.prior : Req → List Nat
  | .set _ _ _ _ prior _ => prior
  | .get _ _ prior _ => prior
  | .del .. => []

def Req.recs : Req → List Rec
  | .get _ _ _ (.looked r) => r.toList
  | .get _ _ _ (.hit r) => [r]
  | .get _ _ _ (.newer r) => [r]
  | .get _ _ _ (.done r) => r.toList
  | _ => []

/-- A version about to be dropped from the old table is one the new table has reached. -/
def Forget.Ok (hN : Nat) (on : Side) : Forget → Prop
  | .load => True
  | .getver => on = .new
  | .drop ver => on = .new ∧ ver ≤ hN

/-- Where the versions of a request's `prior` are, when the old table's record is at `hO` and the
new one's at `hN`. -/
def Req.Ok (hO hN : Nat) : Req → Prop
  | .set _ expires _ on prior pc =>
    expires = 0 ∧
      match pc with
      | .resolved => Upto prior (if on = .old then hO else max hO hN)
      | .carrying => on = .new ∧ Upto prior (max hO hN)
      | .fetched nver _ => on = .new ∧ Upto prior (max hO hN) ∧ nver ≤ hN
      | .storing => Upto prior (if on = .old then hO else hN)
      | .forget ver f =>
        (∀ w ∈ ver, 1 ≤ w ∧ w ≤ max hO hN ∧ ∀ v ∈ prior, v < w) ∧ f.Ok hN on
      | .done ver => ∀ w ∈ ver, 1 ≤ w ∧ w ≤ max hO hN ∧ ∀ v ∈ prior, v < w
  | .get _ on prior pc =>
    match pc with
    | .resolved => Upto prior (if on = .old then hO else max hO hN)
    | .looked r => Upto prior (if on = .old then verOf r else max hO (verOf r))
    | .missed => on = .new ∧ Upto prior hO
    | .hit r => on = .new ∧ Upto prior (max hO r.ver)
    | .newer _ => on = .new ∧ Upto prior hO
    | .again => on = .new ∧ Upto prior hN
    | .done r => Upto prior (verOf r)
  | .del .. => False

theorem Upto.mono {prior : List Nat} {v v' : Nat} (h : Upto prior v) (hle : v ≤ v') :
    Upto prior v' :=
  fun w hw => le_trans (h w hw) hle

variable {on : Side} {f : Forget}

theorem Forget.Ok.mono {hN hN' : Nat} (h : f.Ok hN on) (hle : hN ≤ hN') : f.Ok hN' on := by
  cases f with
  | load => trivial
  | getver => exact h
  | drop ver => exact ⟨h.1, le_trans h.2 hle⟩

variable {q : Req}

/-- The new table's version grows, and so does the old one's where the request counts on it. -/
theorem Req.Ok.change {hO hN hO' hN' : Nat} (h : q.Ok hO hN) (hmax : max hO hN ≤ max hO' hN')
    (hnew : hN ≤ hN') (hold : q.relies = true → hO ≤ hO') : q.Ok hO' hN' := by
  have hset : ∀ {prior : List Nat} {ver : Option Nat},
      (∀ w ∈ ver, 1 ≤ w ∧ w ≤ max hO hN ∧ ∀ v ∈ prior, v < w) →
        ∀ w ∈ ver, 1 ≤ w ∧ w ≤ max hO' hN' ∧ ∀ v ∈ prior, v < w := by
    intro prior ver h w hw
    obtain ⟨hpos, hle, hlt⟩ := h w hw
    exact ⟨hpos, le_trans hle hmax, hlt⟩
  cases q with
  | del => exact h
  | set v expires tid on prior pc =>
    refine ⟨h.1, ?_⟩
    have h := h.2
    cases pc with
    | resolved =>
      cases on with
      | old => exact Upto.mono h (hold rfl)
      | new => exact Upto.mono h hmax
    | carrying => exact ⟨h.1, h.2.mono hmax⟩
    | fetched nver at_ => exact ⟨h.1, h.2.1.mono hmax, le_trans h.2.2 hnew⟩
    | storing =>
      cases on with
      | old => exact Upto.mono h (hold rfl)
      | new => exact Upto.mono h hnew
    | forget ver f => exact ⟨hset h.1, h.2.mono hnew⟩
    | done ver => exact hset h
  | get now on prior pc =>
    cases pc with
    | resolved =>
      cases on with
      | old => exact Upto.mono h (hold rfl)
      | new => exact Upto.mono h hmax
    | looked r =>
      cases on with
      | old => exact h
      | new => exact Upto.mono h (max_le_max (hold rfl) le_rfl)
    | missed | newer =>
      obtain ⟨rfl, h⟩ := h
      exact ⟨rfl, h.mono (hold rfl)⟩
    | hit r =>
      obtain ⟨rfl, h⟩ := h
      exact ⟨rfl, h.mono (max_le_max (hold rfl) le_rfl)⟩
    | again => exact ⟨h.1, h.2.mono hnew⟩
    | done r => exact h

theorem Req.Ok.mono {hO hN hO' hN' : Nat} (h : q.Ok hO hN) (hold : hO ≤ hO') (hnew : hN ≤ hN') :
    q.Ok hO' hN' :=
  h.change (max_le_max hold hnew) hnew fun _ => hold

/-! ### The stores -/

variable {r : Rec} {t : Table}

section Stores

variable {A : Arena} {k : Key}

/-- A plain record without a deadline, as a SET stores it. -/
structure Plain (k : Key) (r : Rec) : Prop where
  expires : r.expires = 0
  rflags : r.rflags = 0#8
  storable : Storable k r.val

theorem Plain.expired (h : Plain k r) (now : Nat) : r.expired now = false := by
  simp [Rec.expired, h.expires]

theorem Plain.shortened (h : Plain k r) (now : Nat) : shortenedFl now r 0 = 0#8 := by
  simp [shortenedFl, h.expired, h.rflags]

theorem Plain.emitVal (h : Plain k r) : r.emitVal = r.val := by
  simp [Rec.emitVal, h.rflags]

theorem fetchCore_plain (h : ∀ r ∈ t.lookup k, Plain k r) (now : Nat) :
    fetchCore k now t = t.lookup k := by
  unfold fetchCore
  cases hl : t.lookup k with
  | none => rfl
  | some r => simp [filter_some, (h r hl).expired now]

/-- A SET's store: refused for its size, or the record is stamped above the one it replaces. -/
theorem htStoreEx_plain (hA : ∀ n ≤ cellMax, A.alloc n = true) (h : ∀ r ∈ t.lookup k, Plain k r)
    (now clock : Nat) (v : List Byte) :
    htStoreEx A now clock t k v 0 0#8 =
      if Storable k v then
        (.ok, t.insert k ⟨v, 0, 0#8, verLocal clock (t.lookup k)⟩, clock + 1)
      else (.tooBig, t, clock) := by
  by_cases hst : Storable k v
  · rw [htStoreEx, storeBody_of_storable hst, if_pos hst]
    cases hl : t.lookup k with
    | none => simp [hA _ hst.size]
    | some r => simp [hA _ hst.size, (h r hl).shortened]
  · have hbig : 0xFFFF < k.length ∨ cellMax < recSize k v := by
      by_contra hno
      exact hst ⟨by omega, by omega⟩
    rw [htStoreEx, storeBody, if_pos hbig, if_neg hst]

/-- Of a record and a copy, the newer. -/
def newest (o : Option Rec) (r : Rec) : Rec :=
  match o with
  | some old => if r.ver ≤ old.ver then old else r
  | none => r

theorem newest_cases (o : Option Rec) (r : Rec) : some (newest o r) = o ∨ newest o r = r := by
  cases o with
  | none => exact .inr rfl
  | some old =>
    by_cases hle : r.ver ≤ old.ver
    · exact .inl (by simp [newest, hle])
    · exact .inr (by simp [newest, hle])

theorem newest_ver (o : Option Rec) (r : Rec) : (newest o r).ver = max (verOf o) r.ver := by
  cases o with
  | none => simp [newest, verOf]
  | some old =>
    simp only [newest, verOf, map_some, getD_some]
    split <;> omega

/-- The copy of a plain record into the new table. -/
theorem Resizing.lookup_storeCopy (hA : ∀ n ≤ cellMax, A.alloc n = true) {s : Resizing}
    (hr : Plain k r) (h : ∀ r ∈ s.new.lookup k, Plain k r) (now : Nat) :
    (s.storeCopy A k now r).new.lookup k = some (newest (s.new.lookup k) r) := by
  have hflags : r.rflags &&& (fPassive ||| fCarry) = 0#8 := by simp [hr.rflags]
  have hstore := htStoreVer_roomy hr.storable (hA _ hr.storable.size) now s.clocks.shared s.new 0
    0#8 r.ver
  rw [htStoreVer] at hstore
  simp only [Resizing.storeCopy, hr.emitVal, hr.expires, hflags, hstore]
  have hrec : (⟨r.val, 0, 0#8, r.ver⟩ : Rec) = r := by
    obtain ⟨v, expires, rflags, ver⟩ := r
    have hexp : expires = 0 := hr.expires
    have hfl : rflags = 0#8 := hr.rflags
    rw [hexp, hfl]
  cases hl : s.new.lookup k with
  | none => simp [newest, hrec]
  | some old =>
    by_cases hle : r.ver ≤ old.ver
    · simp [newest, hle, hl]
    · simp [newest, hle, (h old hl).shortened, hrec]

end Stores

namespace Resizing

/-! ### The invariant -/

/-- Some SET has stored `v` at `ver`. -/
def Wrote (s : Resizing) (ver : Nat) (v : List Byte) : Prop :=
  ∃ q ∈ s.reqs, q.wrote = some (ver, v)

/-- The record is one that a SET has stored. -/
def Ours (k : Key) (s : Resizing) (r : Rec) : Prop := Plain k r ∧ s.Wrote r.ver r.val

def hO (k : Key) (s : Resizing) : Nat := verOf (s.old.lookup k)

def hN (k : Key) (s : Resizing) : Nat := verOf (s.new.lookup k)

/-- How far the pass has come with draining the key, once it has seen it. -/
def Drained (k : Key) (s : Resizing) : Prop :=
  match s.copier with
  | .rest => s.old.lookup k = none
  | .held r => s.hO k ≤ r.ver
  | .forget (.drop ver) => s.hO k ≤ ver
  | .forget _ => s.hO k ≤ s.hN k ∧ 1 ≤ s.hN k

/-- Every record in the tables, in the copier's hand or seen by a read is a SET's. -/
structure Known (k : Key) (s : Resizing) : Prop where
  table : ∀ x, ∀ r ∈ (s.table x).lookup k, s.Ours k r
  copier : ∀ r, s.copier = .held r → s.Ours k r
  reads : ∀ q ∈ s.reqs, ∀ r ∈ q.recs, s.Ours k r

/-- What each phase of the resize knows of the two tables and of the requests. -/
structure Placed (k : Key) (s : Resizing) : Prop where
  copierIn : s.CopierIn
  idle : s.phase = .idle → s.new.lookup k = none
  early : s.phase.live = .old →
    s.hN k ≤ s.hO k ∧ (∀ r, s.copier = .held r → r.ver ≤ s.hO k) ∧ ∀ q ∈ s.reqs, q.on = .old
  dropping : ∀ f, s.copier = .forget f → f.Ok (s.hN k) .new ∧ (f = .load ∨ s.phase = .swapped)
  calm : s.phase = .swapped → s.calm = true → s.oldQuiet = true ∧ (s.seen = true → s.Drained k)
  late : s.phase = .closing ∨ s.phase = .ended → s.oldQuiet = true ∧ s.old.lookup k = none

/-- The invariant. -/
structure Inv (k : Key) (s : Resizing) : Prop where
  known : s.Known k
  placed : s.Placed k
  reqs : ∀ q ∈ s.reqs, q.Ok (s.hO k) (s.hN k)
  priors : ∀ q ∈ s.reqs, ∀ w ∈ q.prior, 1 ≤ w
  finished : ∀ w ∈ s.finished, 1 ≤ w ∧ w ≤ max (s.hO k) (s.hN k)

theorem inv_start {k : Key} (ht : t.lookup k = none) (c : Clocks) :
    (start t c).Inv k where
  known :=
    { table := by
        intro x r hr
        cases x <;> simp [start, Resizing.table, ht] at hr
      copier := nofun
      reads := nofun }
  placed :=
    { copierIn := .inl rfl
      idle := fun _ => rfl
      early := fun _ => ⟨zero_le _, nofun, nofun⟩
      dropping := nofun
      calm := nofun
      late := fun h => by simp [start] at h }
  reqs := nofun
  priors := nofun
  finished := nofun

variable {ver : Nat}

section Keep

variable {k : Key} {s s' : Resizing}

theorem Ours.mono (h : s.Ours k r) (hwrote : ∀ ver v, s.Wrote ver v → s'.Wrote ver v) :
    s'.Ours k r :=
  ⟨h.1, hwrote _ _ h.2⟩

theorem oldQuiet_iff : s.oldQuiet = true ↔ ∀ q ∈ s.reqs, (q.running && q.on = .old) = false := by
  simp only [oldQuiet, List.all_eq_true, Bool.not_eq_true']

/-- A request that has taken a step, or begun. -/
structure Fresh (k : Key) (s s' : Resizing) (q : Req) : Prop where
  ok : q.Ok (s'.hO k) (s'.hN k)
  prior : ∀ w ∈ q.prior, 1 ≤ w
  recs : ∀ r ∈ q.recs, s'.Ours k r
  early : s.phase.live = .old → q.on = .old
  quiet : s.phase.live = .new → s.oldQuiet = true → (q.running && q.on = .old) = false

/-- What has been drained stays so while the old table takes nothing. -/
theorem Drained.mono (h : s.Drained k) (hcopier : s'.copier = s.copier)
    (hnone : s.old.lookup k = none → s'.old.lookup k = none) (hO : s'.hO k ≤ s.hO k)
    (hN : s.hN k ≤ s'.hN k) : s'.Drained k := by
  unfold Drained at h ⊢
  rw [hcopier]
  split at h
  · exact hnone h
  · exact le_trans hO h
  · exact le_trans hO h
  · exact ⟨le_trans hO (le_trans h.1 hN), le_trans h.2 hN⟩

/-- A step that has the versions grow, with what the phase then knows. -/
theorem Inv.grow (h : s.Inv k) (hwrote : ∀ ver v, s.Wrote ver v → s'.Wrote ver v)
    (hreqs : ∀ q ∈ s'.reqs, q ∈ s.reqs ∨ s.Fresh k s' q)
    (hver : ∀ x, verOf ((s.table x).lookup k) ≤ verOf ((s'.table x).lookup k))
    (hrec : ∀ x, ∀ r ∈ (s'.table x).lookup k, s'.Ours k r)
    (hheld : ∀ r, s'.copier = .held r → s'.Ours k r)
    (hfin : ∀ w ∈ s'.finished, w ∈ s.finished ∨ 1 ≤ w ∧ w ≤ max (s'.hO k) (s'.hN k))
    (hplaced : s'.Placed k) : s'.Inv k := by
  have hO : s.hO k ≤ s'.hO k := hver .old
  have hN : s.hN k ≤ s'.hN k := hver .new
  refine ⟨⟨hrec, hheld, fun q hq => ?_⟩, hplaced, fun q hq => ?_, fun q hq => ?_, fun w hw => ?_⟩
  · rcases hreqs q hq with hmem | hfresh
    · exact fun r hr => (h.known.reads q hmem r hr).mono hwrote
    · exact hfresh.recs
  · rcases hreqs q hq with hmem | hfresh
    · exact (h.reqs q hmem).mono hO hN
    · exact hfresh.ok
  · rcases hreqs q hq with hmem | hfresh
    · exact h.priors q hmem
    · exact hfresh.prior
  · rcases hfin w hw with hmem | hfresh
    · obtain ⟨hpos, hle⟩ := h.finished w hmem
      exact ⟨hpos, by omega⟩
    · exact hfresh

/-- A step of a request, or its begin, that has the versions grow. -/
theorem Inv.request (h : s.Inv k) (hsame : s'.phase = s.phase ∧ s'.copier = s.copier ∧
      s'.seen = s.seen ∧ s'.calm = s.calm) (hwrote : ∀ ver v, s.Wrote ver v → s'.Wrote ver v)
    (hreqs : ∀ q ∈ s'.reqs, q ∈ s.reqs ∨ s.Fresh k s' q)
    (hold : s.oldQuiet = true → s'.old.lookup k = s.old.lookup k)
    (hnew : s.phase.live = .old → s'.new.lookup k = s.new.lookup k)
    (hver : ∀ x, verOf ((s.table x).lookup k) ≤ verOf ((s'.table x).lookup k))
    (hrec : ∀ x, ∀ r ∈ (s'.table x).lookup k, s'.Ours k r)
    (hfin : ∀ w ∈ s'.finished, w ∈ s.finished ∨ 1 ≤ w ∧ w ≤ max (s'.hO k) (s'.hN k)) :
    s'.Inv k := by
  obtain ⟨hphase, hcopier, hseen, hcalm⟩ := hsame
  have hO : s.hO k ≤ s'.hO k := hver .old
  have hN : s.hN k ≤ s'.hN k := hver .new
  have hquiet : s.phase.live = .new → s.oldQuiet = true → s'.oldQuiet = true := by
    intro hlive hq
    refine oldQuiet_iff.mpr fun q hmem => ?_
    rcases hreqs q hmem with hold | hfresh
    · exact oldQuiet_iff.mp hq q hold
    · exact hfresh.quiet hlive hq
  refine h.grow hwrote hreqs hver hrec
    (fun r hr => (h.known.copier r (hcopier ▸ hr)).mono hwrote) hfin ⟨?_, ?_, ?_, ?_, ?_, ?_⟩
  · have hin := h.placed.copierIn
    simpa only [CopierIn, hcopier, hphase] using hin
  · intro hidle
    rw [hphase] at hidle
    rw [hnew (by rw [hidle]; rfl)]
    exact h.placed.idle hidle
  · intro hlive
    rw [hphase] at hlive
    obtain ⟨hle, hheld, hon⟩ := h.placed.early hlive
    have hsame : s'.hN k = s.hN k := by rw [Resizing.hN, Resizing.hN, hnew hlive]
    refine ⟨by omega, fun r hr => le_trans (hheld r (hcopier ▸ hr)) hO, fun q hq => ?_⟩
    rcases hreqs q hq with hmem | hfresh
    · exact hon q hmem
    · exact hfresh.early hlive
  · intro f hf
    obtain ⟨hok, hin⟩ := h.placed.dropping f (hcopier ▸ hf)
    exact ⟨hok.mono hN, hphase ▸ hin⟩
  · intro hsw hc
    obtain ⟨hq, hdr⟩ := h.placed.calm (hphase ▸ hsw) (hcalm ▸ hc)
    have hlive : s.phase.live = .new := by rw [← hphase, hsw]; rfl
    exact ⟨hquiet hlive hq, fun hs => (hdr (hseen ▸ hs)).mono hcopier (hold hq).trans
      (by rw [Resizing.hO, Resizing.hO, hold hq]) hN⟩
  · intro hlate
    obtain ⟨hq, hnone⟩ := h.placed.late (hphase ▸ hlate)
    have hlive : s.phase.live = .new := by
      rcases hlate with hp | hp <;> rw [← hphase, hp] <;> rfl
    exact ⟨hquiet hlive hq, (hold hq).trans hnone⟩

/-- A step of the resize's own that leaves the requests, and does not have the versions go down. -/
theorem Inv.resize (h : s.Inv k) (hreqs : s'.reqs = s.reqs)
    (hfin : s'.finished = s.finished) (hold : s'.old.lookup k = s.old.lookup k)
    (hN : s.hN k ≤ s'.hN k) (hrecN : ∀ r ∈ s'.new.lookup k, s.Ours k r)
    (hcopier : ∀ r, s'.copier = .held r → s.Ours k r) (hplaced : s'.Placed k) : s'.Inv k := by
  have hwrote : ∀ ver v, s.Wrote ver v → s'.Wrote ver v := by
    intro ver v hw
    rwa [Wrote, hreqs]
  refine h.grow hwrote (fun q hq => .inl (hreqs ▸ hq)) (fun x => ?_) (fun x r hr => ?_)
    (fun r hr => (hcopier r hr).mono hwrote) (fun w hw => .inl (hfin ▸ hw)) hplaced
  · cases x with
    | old => exact le_of_eq (congrArg verOf hold.symm)
    | new => exact hN
  · cases x with
    | old => exact (h.known.table .old r (hold ▸ hr)).mono hwrote
    | new => exact (hrecN r hr).mono hwrote

/-- The remove of a `drain_forget`: what goes has a version that the new table has reached. -/
theorem Inv.drop (h : s.Inv k) (hver : ver ≤ s.hN k) (hlive : s.phase.live = .new)
    (hrel : ∀ r ∈ s.old.lookup k, r.ver ≤ ver → ∀ q ∈ s.reqs, q.relies = false)
    (ht : t.lookup k = (s.old.lookup k).filter fun r => ver < r.ver) :
    Inv k { s with old := t } := by
  obtain ⟨hle, hcase⟩ : hO k { s with old := t } ≤ s.hO k ∧ (s.hO k ≤ hO k { s with old := t } ∨
      s.hO k ≤ s.hN k ∧ ∀ q ∈ s.reqs, q.relies = false) := by
    unfold Resizing.hO
    dsimp only
    rw [ht]
    cases hl : s.old.lookup k with
    | none => exact ⟨le_rfl, .inl le_rfl⟩
    | some r =>
      by_cases hlt : ver < r.ver
      · simp [filter_some, hlt]
      · have hgone : (some r).filter (fun r => decide (ver < r.ver)) = none := by
          simp [filter_some, hlt]
        rw [hgone]
        exact ⟨zero_le _, .inr ⟨le_trans (not_lt.mp hlt) hver, hrel r hl (not_lt.mp hlt)⟩⟩
  have hmax : max (s.hO k) (s.hN k) ≤ max (hO k { s with old := t }) (s.hN k) := by
    rcases hcase with hsame | ⟨hgone, -⟩ <;> omega
  refine ⟨⟨fun x r hr => ?_, h.known.copier, h.known.reads⟩,
    ⟨h.placed.copierIn, h.placed.idle, fun hearly => ?_, h.placed.dropping, fun hsw hc => ?_,
      fun hlate => ?_⟩, fun q hq => (h.reqs q hq).change hmax le_rfl fun hq' => ?_, h.priors,
    fun w hw => ⟨(h.finished w hw).1, le_trans (h.finished w hw).2 hmax⟩⟩
  · cases x with
    | old => exact h.known.table .old r (mem_filter_iff.mp (ht ▸ hr)).1
    | new => exact h.known.table .new r hr
  · cases hearly.symm.trans hlive
  · obtain ⟨hquiet, hdr⟩ := h.placed.calm hsw hc
    exact ⟨hquiet, fun hs => (hdr hs).mono rfl (fun hnone => by simp [ht, hnone]) hle le_rfl⟩
  · obtain ⟨hquiet, hnone⟩ := h.placed.late hlate
    exact ⟨hquiet, by simp [ht, hnone]⟩
  · refine hcase.resolve_right fun hgone => ?_
    rw [hgone.2 q hq] at hq'
    cases hq'

theorem lookup_drop (clock : Nat) (t : Table) (k : Key) (ver : Nat) :
    (htRemoveBelow clock t k (ver + 1)).table.lookup k =
      (t.lookup k).filter fun r => ver < r.ver := by
  rw [htRemoveBelow, if_neg (succ_ne_zero ver), lookup_removeImpl, if_pos rfl]
  simp only [not_under_succ]

end Keep

/-! ### The resize's steps -/

variable {tid now : Nat} {v : List Byte}

section Resize

variable {ed : Edition} {A : Arena} {k : Key} {s s' : Resizing}

section

variable (h : s.Inv k)
include h

theorem Inv.start (hstep : s.step ed A k .start = some s') : s'.Inv k := by
  obtain ⟨hidle, hstep⟩ := ite_none_right_eq_some.mp hstep
  cases hstep
  have hnone := h.placed.idle hidle
  have hN : s.hN k = 0 := by simp [hN, hnone, verOf]
  obtain ⟨-, -, hon⟩ := h.placed.early (by rw [hidle]; rfl)
  refine h.resize rfl rfl rfl (by rw [hN]; exact zero_le _) (fun r hr => ?_) nofun
    ⟨.inl rfl, nofun, fun _ => ⟨zero_le _, nofun, hon⟩,
      nofun, nofun, fun hp => ?_⟩
  · simp at hr
  · simp at hp

theorem Inv.walk (hstep : s.step ed A k .walk = some s') : s'.Inv k := by
  obtain ⟨⟨hin, hrest⟩, hstep⟩ := ite_none_right_eq_some.mp hstep
  cases hstep
  cases hl : s.old.lookup k with
  | none =>
    refine h.resize rfl rfl rfl le_rfl (h.known.table .new) nofun
      ⟨.inl rfl, h.placed.idle, fun hlive => ?_, nofun, fun hsw hc => ?_,
        h.placed.late⟩
    · obtain ⟨hle, -, hon⟩ := h.placed.early hlive
      exact ⟨hle, nofun, hon⟩
    · exact ⟨(h.placed.calm hsw hc).1, fun _ => hl⟩
  | some r =>
    have hO : s.hO k = r.ver := by rw [hO, hl]; rfl
    refine h.resize rfl rfl rfl le_rfl (h.known.table .new) (fun r' hr => ?_)
      ⟨.inr hin, h.placed.idle, fun hlive => ?_, nofun, fun hsw hc => ?_,
        h.placed.late⟩
    · cases hr
      exact h.known.table .old r hl
    · obtain ⟨hle, -, hon⟩ := h.placed.early hlive
      refine ⟨hle, fun r' hr => ?_, hon⟩
      cases hr
      exact le_of_eq hO.symm
    · exact ⟨(h.placed.calm hsw hc).1, fun _ => le_of_eq hO⟩

theorem Inv.endPass (hstep : s.step ed A k .endPass = some s') : s'.Inv k := by
  obtain ⟨-, hstep⟩ := ite_none_right_eq_some.mp hstep
  cases hstep
  exact h.resize rfl rfl rfl le_rfl (h.known.table .new) h.known.copier
    ⟨h.placed.copierIn, h.placed.idle, h.placed.early, h.placed.dropping,
      fun _ hc => ⟨hc, nofun⟩, h.placed.late⟩

theorem Inv.swap (hstep : s.step ed A k .swap = some s') : s'.Inv k := by
  obtain ⟨⟨-, hdone, -⟩, hstep⟩ := ite_none_right_eq_some.mp hstep
  have hrest := rest_of_passDone hdone
  cases hstep
  refine h.resize rfl rfl rfl le_rfl (h.known.table .new) h.known.copier
    ⟨.inl hrest, nofun, nofun, fun f hf => ?_,
      fun _ hc => ⟨hc, nofun⟩, fun hp => ?_⟩
  · cases hrest.symm.trans hf
  · simp at hp

theorem Inv.close (hscope : s.Scope .close) (hstep : s.step ed A k .close = some s') :
    s'.Inv k := by
  obtain ⟨⟨hsw, hdone, -⟩, hstep⟩ := ite_none_right_eq_some.mp hstep
  have hrest := rest_of_passDone hdone
  have hseen : s.seen = true := by
    simp only [passDone, Bool.and_eq_true] at hdone
    exact hdone.1
  obtain ⟨hq, hdr⟩ := h.placed.calm hsw hscope
  have hnone : s.old.lookup k = none := by
    have := hdr hseen
    simpa only [Drained, hrest] using this
  cases hstep
  refine h.resize rfl rfl rfl le_rfl (h.known.table .new) h.known.copier
    ⟨.inl hrest, by simp, by simp [Phase.live], fun f hf => ?_, by simp,
      fun _ => ⟨hq, hnone⟩⟩
  cases hrest.symm.trans hf

theorem Inv.finish (hstep : s.step ed A k .finish = some s') : s'.Inv k := by
  obtain ⟨hclosing, hstep⟩ := ite_none_right_eq_some.mp hstep
  obtain ⟨hq, hnone⟩ := h.placed.late (.inl hclosing)
  have hrest : s.copier = .rest := h.placed.copierIn.resolve_right (by simp [hclosing])
  cases hstep
  refine h.resize rfl rfl hnone.symm le_rfl (h.known.table .new) h.known.copier
    ⟨.inl hrest, nofun, nofun, fun f hf => ?_,
      nofun, fun _ => ⟨hq, rfl⟩⟩
  cases hrest.symm.trans hf

theorem Inv.elsewhere {n m : Nat} (hstep : s.step ed A k (.elsewhere tid n m) = some s') :
    s'.Inv k := by
  cases hstep
  exact h.resize rfl rfl rfl le_rfl (h.known.table .new) h.known.copier
    ⟨h.placed.copierIn, h.placed.idle, h.placed.early, h.placed.dropping, h.placed.calm,
      h.placed.late⟩

theorem Inv.wrote (hw : s.Wrote ver v) : 1 ≤ ver ∧ ver ≤ max (s.hO k) (s.hN k) := by
  obtain ⟨q, hq, hwrote⟩ := hw
  have hok := h.reqs q hq
  unfold Req.wrote at hwrote
  split at hwrote
  · cases hwrote
    obtain ⟨hpos, hle, -⟩ := hok.2.1 _ rfl
    exact ⟨hpos, hle⟩
  · cases hwrote
    obtain ⟨hpos, hle, -⟩ := hok.2 _ rfl
    exact ⟨hpos, hle⟩
  · cases hwrote

end

theorem htGetver_zero (t : Table) (k : Key) : htGetver 0 t k = (t.lookup k).map Rec.ver := by
  unfold htGetver
  cases t.lookup k with
  | none => rfl
  | some r =>
    have hlive : r.expired 0 = false := by
      simp only [Rec.expired, Bool.and_eq_false_iff, decide_eq_false_iff_not]
      omega
    simp [hlive]

/-- The version `drain_forget` drops up to is the new table's. -/
theorem forget_getver (h : (s.forget k .new .getver).2 = some f) : f = .drop (s.hN k) := by
  simp only [forget, htGetver_zero, table] at h
  cases hl : s.new.lookup k with
  | none => simp [hl] at h
  | some r =>
    simp only [hl, map_some] at h
    split at h
    · cases h
    · cases h
      simp [hN, hl, verOf]

theorem forget_getver_none (h : (s.forget k .new .getver).2 = none) : s.hN k = 0 := by
  simp only [forget, htGetver_zero, table] at h
  cases hl : s.new.lookup k with
  | none => simp [hN, hl, verOf]
  | some r =>
    simp only [hl, map_some] at h
    split at h
    · simpa [hN, hl, verOf]
    · cases h

theorem forget_getver_old (ht : Side) : (s.forget k ht .getver).1 = s.old := by
  simp only [forget]
  split <;> rfl

/-- The copier moves on, and leaves the tables. -/
theorem Inv.recopier (h : s.Inv k) (c : Copier)
    (hin : c = .rest ∨ s.phase = .filling ∨ s.phase = .swapped) (hheld : ∀ r, c ≠ .held r)
    (hdrop : ∀ f, c = .forget f → f.Ok (s.hN k) .new ∧ (f = .load ∨ s.phase = .swapped))
    (hdr : s.phase = .swapped → s.calm = true → s.seen = true →
      Drained k { s with copier := c }) :
    Inv k { s with copier := c } := by
  refine h.resize rfl rfl rfl le_rfl (h.known.table .new) (fun r hr => absurd hr (hheld r))
    ⟨hin, h.placed.idle, fun hlive => ?_, hdrop, fun hsw hc => ?_, h.placed.late⟩
  · obtain ⟨hle, -, hon⟩ := h.placed.early hlive
    exact ⟨hle, fun r hr => absurd hr (hheld r), hon⟩
  · exact ⟨(h.placed.calm hsw hc).1, hdr hsw hc⟩

/-- The new table with the copy of a SET's record. -/
theorem Inv.storeCopy (hA : ∀ n ≤ cellMax, A.alloc n = true) (h : s.Inv k) (hr : s.Ours k r)
    (now : Nat) : (s.storeCopy A k now r).hN k = max (s.hN k) r.ver ∧
      ∀ x ∈ (s.storeCopy A k now r).new.lookup k, s.Ours k x := by
  have hlook := lookup_storeCopy hA hr.1 (fun r hr => (h.known.table .new r hr).1) now
  refine ⟨?_, fun x hx => ?_⟩
  · rw [hN, hlook]
    exact newest_ver _ r
  · rw [hlook, mem_some_iff] at hx
    rcases newest_cases (s.new.lookup k) r with hc | hc
    · exact h.known.table .new x (hx ▸ hc.symm)
    · rw [← hx, hc]
      exact hr

theorem Inv.copied (hA : ∀ n ≤ cellMax, A.alloc n = true) (h : s.Inv k)
    (hr : s.copier = .held r) (now : Nat) :
    Inv k { s.storeCopy A k now r with copier := .forget .load } := by
  have hours := h.known.copier r hr
  have hpos := (h.wrote hours.2).1
  have hin : s.phase = .filling ∨ s.phase = .swapped :=
    h.placed.copierIn.resolve_left (by simp [hr])
  obtain ⟨hN, hrecs⟩ := h.storeCopy hA hours now
  change Resizing.hN k { s.storeCopy A k now r with copier := .forget .load } = _ at hN
  refine h.resize rfl rfl rfl (by omega) hrecs nofun
    ⟨.inr hin, fun hidle => ?_, fun hlive => ?_, fun f hf => ?_, fun hsw hc => ?_, fun hlate => ?_⟩
  · have hidle : s.phase = .idle := hidle
    simp [hidle] at hin
  · obtain ⟨hle, hheld, hon⟩ := h.placed.early hlive
    exact ⟨hN ▸ Nat.max_le.mpr ⟨hle, hheld r hr⟩, nofun, hon⟩
  · cases hf
    exact ⟨trivial, .inl rfl⟩
  · obtain ⟨hq, hdr⟩ := h.placed.calm hsw hc
    refine ⟨hq, fun hs => ?_⟩
    have hle : s.hO k ≤ r.ver := by simpa only [Drained, hr] using hdr hs
    exact ⟨by rw [hN]; exact le_trans hle (le_max_right _ _),
      by rw [hN]; exact le_trans hpos (le_max_right _ _)⟩
  · have hlate : s.phase = .closing ∨ s.phase = .ended := hlate
    rcases hlate with hp | hp <;> simp [hp] at hin

theorem Inv.copy (hA : ∀ n ≤ cellMax, A.alloc n = true) (h : s.Inv k)
    (hok : s.Undisturbed k (.copy now)) (hstep : s.copy ed A k now = some s') : s'.Inv k := by
  have hin := fun hbusy => h.placed.copierIn.resolve_left hbusy
  unfold Resizing.copy at hstep
  split at hstep
  · cases hstep
  · rename_i r hr
    have hlive := (h.known.copier r hr).1.expired now
    simp only [hlive, Bool.false_eq_true, if_false, some.injEq] at hstep
    subst hstep
    exact h.copied hA hr now
  · rename_i f hf
    have hphase := hin (by simp [hf])
    obtain ⟨hfok, hload⟩ := h.placed.dropping f hf
    cases hstep
    have hdr : s.phase = .swapped → s.calm = true → s.seen = true → s.Drained k :=
      fun hsw hc => (h.placed.calm hsw hc).2
    simp only [Drained, hf] at hdr
    cases f with
    | load =>
      by_cases hsw : s.phase = .swapped
      · have hdrains : s.phase.drains .new = true := by simp [Phase.drains, hsw]
        simp only [forget, hdrains, if_true]
        refine h.recopier (.forget .getver) (.inr hphase) (by simp) (fun f hf => ?_) hdr
        cases hf
        exact ⟨rfl, .inr hsw⟩
      · have hdrains : s.phase.drains .new = false := by simp [Phase.drains, hsw]
        simp only [forget, hdrains, Bool.false_eq_true, if_false]
        exact h.recopier .rest (.inl rfl) (by simp) (by simp) fun hsw' => absurd hsw' hsw
    | getver =>
      have hsw : s.phase = .swapped := hload.resolve_left (by simp)
      rw [forget_getver_old]
      cases hget : (s.forget k .new .getver).2 with
      | some f =>
        cases forget_getver hget
        refine h.recopier (.forget (.drop (s.hN k))) (.inr hphase) (by simp)
          (fun f hf => ?_) fun hsw hc hs => (hdr hsw hc hs).1
        cases hf
        exact ⟨⟨rfl, le_rfl⟩, .inr hsw⟩
      | none =>
        refine h.recopier .rest (.inl rfl) (by simp) (by simp) fun hsw hc hs => ?_
        -- a drain that has seen the key has put it in the new table
        have hpos := (hdr hsw hc hs).2
        have hzero := forget_getver_none hget
        omega
    | drop ver =>
      have hsw : s.phase = .swapped := hload.resolve_left (by simp)
      have hrel := hok ver (by simp [forgets, hf])
      have ht := lookup_drop s.clocks.shared s.old k ver
      have hinv := h.drop hfok.2 (by rw [hsw]; rfl) hrel ht
      refine hinv.recopier .rest (.inl rfl) (by simp) (by simp) fun hsw hc hs => ?_
      have hle : s.hO k ≤ ver := hdr hsw hc hs
      refine ht.trans ?_
      cases hl : s.old.lookup k with
      | none => rfl
      | some r =>
        have hnot : ¬ ver < r.ver := by simpa [hO, hl, verOf] using hle
        simp [filter_some, hnot]

end Resize

/-! ### The requests -/

section Requests

variable {ed : Edition} {A : Arena} {k : Key} {s s' : Resizing}

theorem Inv.begin (h : s.Inv k) (hon : q.on = s.phase.live) (hok : q.Ok (s.hO k) (s.hN k))
    (hprior : q.prior = s.finished) (hrecs : q.recs = []) :
    Inv k { s with reqs := s.reqs ++ [q] } := by
  have hwrote : ∀ ver v, s.Wrote ver v → Wrote { s with reqs := s.reqs ++ [q] } ver v := by
    rintro ver v ⟨x, hx, hw⟩
    exact ⟨x, mem_append_left _ hx, hw⟩
  refine h.request ⟨rfl, rfl, rfl, rfl⟩ hwrote (fun x hx => ?_) (fun _ => rfl) (fun _ => rfl)
    (fun _ => le_rfl) (fun x r hr => (h.known.table x r hr).mono hwrote) fun w hw => .inl hw
  rcases mem_append.mp hx with hx | hx
  · exact .inl hx
  · obtain rfl := mem_singleton.mp hx
    refine .inr ⟨hok, fun w hw => ?_, fun r hr => ?_, fun hlive => hon.trans hlive,
      fun hlive _ => ?_⟩
    · exact (h.finished w (hprior ▸ hw)).1
    · simp [hrecs] at hr
    · simp [hon, hlive]

theorem Inv.upto_finished (h : s.Inv k) :
    Upto s.finished (if s.phase.live = .old then s.hO k else max (s.hO k) (s.hN k)) := by
  intro w hw
  have hle := (h.finished w hw).2
  split
  · rename_i hlive
    have := (h.placed.early hlive).1
    omega
  · exact hle

variable {i : Nat}

section

variable (h : s.Inv k) {q' : Req} (hq : s.reqs[i]? = some q) (hrun : q.running = true)
  (hon : q'.on = q.on) (hprior : q'.prior = q.prior) (hwrote : q.wrote = none ∨ q'.wrote = q.wrote)
include h hq hrun hon hprior hwrote

/-- A request takes a step that may put a record in the table it resolved. -/
theorem Inv.stepped {t : Table} {clocks : Clocks} {fin : List Nat}
    (hs' : s' = { s.put t q.on with clocks := clocks, reqs := s.reqs.set i q', finished := fin })
    (hok : q'.Ok (s'.hO k) (s'.hN k)) (hrecs : ∀ r ∈ q'.recs, s.Ours k r)
    (hver : verOf ((s.table q.on).lookup k) ≤ verOf (t.lookup k))
    (hrec : ∀ r ∈ t.lookup k, s.Ours k r ∨ s'.Ours k r)
    (hfin : ∀ w ∈ fin, w ∈ s.finished ∨ 1 ≤ w ∧ w ≤ max (s'.hO k) (s'.hN k)) :
    s'.Inv k := by
  have hmem := mem_of_getElem? hq
  have hlt : i < s.reqs.length := (List.getElem?_eq_some_iff.mp hq).1
  obtain ⟨hreqs, hfin', hsame⟩ : s'.reqs = s.reqs.set i q' ∧ s'.finished = fin ∧
      s'.phase = s.phase ∧ s'.copier = s.copier ∧ s'.seen = s.seen ∧ s'.calm = s.calm := by
    rw [hs']
    cases q.on <;> exact ⟨rfl, rfl, rfl, rfl, rfl, rfl⟩
  have hw : ∀ ver v, s.Wrote ver v → s'.Wrote ver v := by
    rintro ver v ⟨x, hx, hxw⟩
    rw [Wrote, hreqs]
    obtain ⟨j, hj⟩ := getElem?_of_mem hx
    by_cases hji : i = j
    · subst hji
      cases hq.symm.trans hj
      refine ⟨q', mem_set hlt q', ?_⟩
      rcases hwrote with hnone | hsame
      · cases hnone.symm.trans hxw
      · exact hsame.trans hxw
    · exact ⟨x, mem_of_getElem? (by rwa [getElem?_set_ne hji]), hxw⟩
  have hfresh : ∀ x ∈ s'.reqs, x ∈ s.reqs ∨ s.Fresh k s' x := by
    intro x hx
    rw [hreqs] at hx
    rcases mem_or_eq_of_mem_set hx with hx | rfl
    · exact .inl hx
    · refine .inr ⟨hok, hprior ▸ h.priors q hmem, fun r hr => (hrecs r hr).mono hw,
        fun hlive => hon.trans ((h.placed.early hlive).2.2 q hmem), fun _ hquiet => ?_⟩
      have hno := oldQuiet_iff.mp hquiet q hmem
      rw [hrun, Bool.true_and] at hno
      rw [hon, hno, Bool.and_false]
  have htable : ∀ x, s'.table x = if x = q.on then t else s.table x := by
    intro x
    rw [hs']
    cases q.on <;> cases x <;> rfl
  have hother : ∀ x, x ≠ q.on → (s'.table x).lookup k = (s.table x).lookup k := fun x hx => by
    rw [htable, if_neg hx]
  refine h.request hsame hw hfresh (fun hquiet => hother .old fun hside => ?_)
    (fun hlive => hother .new fun hside => ?_) (fun x => ?_) (fun x r hr => ?_) (hfin' ▸ hfin)
  · have hno := oldQuiet_iff.mp hquiet q hmem
    simp [hrun, ← hside] at hno
  · cases hside.trans ((h.placed.early hlive).2.2 q hmem)
  · rw [htable]
    split
    · rename_i hx
      exact hx ▸ hver
    · exact le_rfl
  · rw [htable] at hr
    split at hr
    · exact (hrec r hr).elim (·.mono hw) id
    · exact (h.known.table x r hr).mono hw

/-- A request takes a step that leaves the tables. -/
theorem Inv.quietly (hok : q'.Ok (s.hO k) (s.hN k)) (hrecs : ∀ r ∈ q'.recs, s.Ours k r)
    {fin : List Nat} (hfin : ∀ w ∈ fin, w ∈ s.finished ∨ 1 ≤ w ∧ w ≤ max (s.hO k) (s.hN k)) :
    Inv k { s with reqs := s.reqs.set i q', finished := fin } := by
  have hs' : { s with reqs := s.reqs.set i q', finished := fin } =
      { s.put (s.table q.on) q.on with
        clocks := s.clocks, reqs := s.reqs.set i q', finished := fin } := by
    cases q.on <;> rfl
  exact h.stepped hq hrun hon hprior hwrote hs' hok hrecs le_rfl
    (fun r hr => .inl (h.known.table _ r hr)) hfin

end

/-- A SET that has not stored takes a step that leaves the tables. -/
theorem Inv.setQuietly (h : s.Inv k) {prior : List Nat} {pc pc' : SetPc}
    (hq : s.reqs[i]? = some (.set v 0 tid on prior pc))
    (hrun : (Req.set v 0 tid on prior pc).running = true)
    (hwrote : (Req.set v 0 tid on prior pc).wrote = none)
    (hok : (Req.set v 0 tid on prior pc').Ok (s.hO k) (s.hN k)) :
    Inv k { s with reqs := s.reqs.set i (.set v 0 tid on prior pc') } := by
  refine h.quietly hq hrun ?_ ?_ (.inl hwrote) hok nofun fun _ hw => .inl hw
  · rfl
  · rfl

theorem verOf_some (r : Rec) : verOf (some r) = r.ver := rfl

/-- Once the swap is behind and nothing is drained, the old table has nothing. -/
theorem Inv.hO_of_not_drains (h : s.Inv k) (hq : q ∈ s.reqs) (hon : q.on = .new)
    (hdrains : s.phase.drains .new = false) : s.hO k = 0 := by
  have hlate : s.phase = .closing ∨ s.phase = .ended := by
    cases hp : s.phase with
    | idle | filling =>
      cases hon.symm.trans ((h.placed.early (by rw [hp]; rfl)).2.2 q hq)
    | swapped => simp [Phase.drains, hp] at hdrains
    | closing => exact .inl rfl
    | ended => exact .inr rfl
  simp [hO, (h.placed.late hlate).2, verOf]

theorem Inv.fetch (h : s.Inv k) (now : Nat) (x : Side) :
    fetchCore k now (s.table x) = (s.table x).lookup k :=
  fetchCore_plain (fun r hr => (h.known.table x r hr).1) now

theorem Inv.getNext (h : s.Inv k) {prior : List Nat} {pc pc' : GetPc}
    (hq : s.reqs[i]? = some (.get now on prior pc)) (hstep : s.getNext k now on pc = some pc') :
    (Req.get now on prior pc').Ok (s.hO k) (s.hN k) ∧
      ∀ r ∈ (Req.get now on prior pc').recs, s.Ours k r := by
  have hmem := mem_of_getElem? hq
  have hok := h.reqs _ hmem
  have hrecs := h.known.reads _ hmem
  have hfetchO := h.fetch now .old
  cases pc with
  | resolved =>
    simp only [Resizing.getNext, h.fetch, some.injEq] at hstep
    subst hstep
    refine ⟨?_, fun r hr => h.known.table _ r (mem_toList.mp hr)⟩
    cases on with
    | old | new => exact hok
  | looked r =>
    simp only [Resizing.getNext] at hstep
    split at hstep
    · rename_i hdrains
      obtain rfl : on = .new := by
        simp only [Phase.drains, decide_eq_true_eq] at hdrains
        exact hdrains.2
      cases r with
      | none =>
        cases hstep
        exact ⟨⟨rfl, Upto.mono hok (by simp [verOf])⟩, by simp [Req.recs]⟩
      | some r =>
        cases hstep
        exact ⟨⟨rfl, hok⟩, hrecs⟩
    · rename_i hdrains
      cases hstep
      refine ⟨?_, hrecs⟩
      cases on with
      | old => exact hok
      | new =>
        -- the drain has ended, and the old table has nothing
        have hzero := h.hO_of_not_drains hmem rfl (by simpa using hdrains)
        exact Upto.mono hok (by simp [hzero])
  | missed =>
    cases hstep
    simp only [table] at hfetchO
    rw [hfetchO]
    exact ⟨hok.2, fun r hr => h.known.table .old r (mem_toList.mp hr)⟩
  | hit r =>
    simp only [Resizing.getNext, table] at hstep hfetchO
    rw [hfetchO] at hstep
    obtain ⟨rfl, hle⟩ := hok
    cases hl : s.old.lookup k with
    | none =>
      simp only [hl] at hstep
      cases hstep
      refine ⟨hle.mono ?_, hrecs⟩
      simp [hO, hl, verOf]
    | some ro =>
      have hO : s.hO k = ro.ver := by rw [hO, hl, verOf_some]
      simp only [hl] at hstep
      split at hstep
      · cases hstep
        refine ⟨⟨rfl, hle.mono (by omega)⟩, fun r' hr => ?_⟩
        obtain rfl := mem_singleton.mp hr
        exact h.known.table .old _ hl
      · cases hstep
        exact ⟨hle.mono (by rw [verOf_some]; omega), hrecs⟩
  | newer ro =>
    simp only [Resizing.getNext, table] at hstep hfetchO
    rw [hfetchO] at hstep
    obtain ⟨rfl, hle⟩ := hok
    have hro := (hrecs ro (mem_singleton_self ro)).1
    cases hl : s.old.lookup k with
    | none =>
      simp only [hl] at hstep
      cases hstep
      refine ⟨⟨rfl, hle.mono ?_⟩, by simp [Req.recs]⟩
      simp [hO, hl, verOf]
    | some r =>
      have hr := (h.known.table .old r hl).1
      -- plain records answer alike, so that the read ends here
      have hrc : hitRc r = hitRc ro := by simp [hitRc, Rec.isInt, hr.rflags, hro.rflags]
      simp only [hl, hrc, if_true] at hstep
      cases hstep
      refine ⟨hle.mono ?_, fun r' hr' => ?_⟩
      · rw [hO, hl]
      · obtain rfl := mem_singleton.mp hr'
        exact h.known.table .old _ hl
  | again =>
    simp only [Resizing.getNext, h.fetch, some.injEq] at hstep
    subst hstep
    obtain ⟨rfl, hle⟩ := hok
    exact ⟨hle, fun r hr => h.known.table _ r (mem_toList.mp hr)⟩
  | done r => cases hstep

variable {x : Resizing × SetPc}

theorem Inv.stored (hA : ∀ n ≤ cellMax, A.alloc n = true) (h : s.Inv k) {prior : List Nat}
    (hq : s.reqs[i]? = some (.set v 0 tid on prior .storing))
    (hstep : s.setNext ed A k now v 0 tid on .storing = some x) :
    Inv k { x.1 with
      reqs := s.reqs.set i (.set v 0 tid on prior x.2), finished := s.finished } := by
  have hmem := mem_of_getElem? hq
  have hlt : i < s.reqs.length := (List.getElem?_eq_some_iff.mp hq).1
  have hok := (h.reqs _ hmem).2
  have hplain : ∀ r ∈ (s.table on).lookup k, Plain k r := fun r hr => (h.known.table _ r hr).1
  simp only [setNext, htStoreEx_plain hA hplain] at hstep
  by_cases hst : Storable k v
  · simp only [hst, if_true, lookup_insert, some.injEq] at hstep
    subst hstep
    -- the version is above the record it replaces, and that is above what had completed
    have hupto : Upto prior (verOf ((s.table on).lookup k)) := by
      cases on with
      | old | new => exact hok
    have hpos : 1 ≤ verLocal (s.clocks.base ed tid) ((s.table on).lookup k) :=
      lt_of_le_of_lt (zero_le _) (verLocal_gt_clock _ _)
    have hgrow : verOf ((s.table on).lookup k) <
        verLocal (s.clocks.base ed tid) ((s.table on).lookup k) := by
      cases (s.table on).lookup k with
      | none => exact lt_of_le_of_lt (zero_le _) (verLocal_gt_clock _ _)
      | some r => exact verLocal_gt_old _ r
    generalize verLocal (s.clocks.base ed tid) ((s.table on).lookup k) = ver at hpos hgrow ⊢
    have habove : ∀ w ∈ prior, w < ver := fun w hw => lt_of_le_of_lt (hupto w hw) hgrow
    have hmem' : Req.set v 0 tid on prior (.forget (some ver) .load) ∈
        s.reqs.set i (.set v 0 tid on prior (.forget (some ver) .load)) := mem_set hlt _
    refine h.stepped hq rfl ?_ ?_ (.inl rfl) rfl ?_ (forall_mem_nil _) ?_ (fun r hr => .inr ?_)
      fun w hw => .inl hw
    · rfl
    · rfl
    · refine ⟨rfl, fun w hw => ?_, trivial⟩
      cases hw
      refine ⟨hpos, ?_, habove⟩
      cases on with
      | old => exact le_max_of_le_left (by simp [hO, put, verOf])
      | new => exact le_max_of_le_right (by simp [hN, put, verOf])
    · rw [AList.lookup_insert]
      exact le_of_lt hgrow
    · obtain rfl : (⟨v, 0, 0#8, ver⟩ : Rec) = r := by simpa using hr
      exact ⟨⟨rfl, rfl, hst⟩, _, hmem', rfl⟩
  · simp only [hst, if_false, reduceCtorEq, some.injEq] at hstep
    subst hstep
    exact h.setQuietly hq rfl rfl ⟨rfl, by simp, trivial⟩

/-- A SET carries the old table's record over. -/
theorem Inv.carried (hA : ∀ n ≤ cellMax, A.alloc n = true) (h : s.Inv k) {nver at_ : Nat}
    {prior : List Nat} (hq : s.reqs[i]? = some (.set v 0 tid on prior (.fetched nver at_)))
    (hstep : s.setNext ed A k now v 0 tid on (.fetched nver at_) = some x) :
    Inv k { x.1 with
      reqs := s.reqs.set i (.set v 0 tid on prior x.2), finished := s.finished } := by
  have hmem := mem_of_getElem? hq
  obtain ⟨-, rfl, hle, hnver⟩ := h.reqs _ hmem
  -- where nothing is carried, the new table has the greater version
  have hquiet : s.hO k ≤ s.hN k → Inv k { s with
        reqs := s.reqs.set i (.set v 0 tid .new prior .storing), finished := s.finished } := by
    intro hver
    exact h.setQuietly hq rfl rfl ⟨rfl, hle.mono (Nat.max_le.mpr ⟨hver, le_rfl⟩)⟩
  simp only [setNext] at hstep
  cases hl : s.old.lookup k with
  | none =>
    simp only [hl] at hstep
    cases hstep
    exact hquiet (by simp [hO, hl, verOf])
  | some r =>
    have hO : s.hO k = r.ver := by rw [hO, hl, verOf_some]
    have hours := h.known.table .old r hl
    simp only [hl, hours.1.expired, true_and] at hstep
    split at hstep
    · cases hstep
      obtain ⟨hN, hrecs⟩ := h.storeCopy hA hours at_
      refine h.stepped hq rfl ?_ ?_ (.inl rfl) rfl ?_ (forall_mem_nil _) ?_
        (fun x hx => .inl (hrecs x hx)) fun w hw => .inl hw
      · rfl
      · rfl
      · exact ⟨rfl, hle.mono (le_trans (by omega) (le_of_eq hN.symm))⟩
      · exact le_trans (le_max_left _ _) (le_of_eq hN.symm)
    · cases hstep
      exact hquiet (by omega)

section

variable (h : s.Inv k) {prior : List Nat} {ver : Option Nat}
  (hq : s.reqs[i]? = some (.set v 0 tid on prior (.forget ver f)))
include h hq

/-- A SET that has stored moves on in `drain_forget`, or answers. -/
theorem Inv.movedOn (f' : Option Forget) (hf' : ∀ x ∈ f', x.Ok (s.hN k) on) :
    Inv k { s with
      reqs := s.reqs.set i (.set v 0 tid on prior (.after ver f'))
      finished := (SetPc.after ver f').note s.finished } := by
  obtain ⟨-, hver, -⟩ := h.reqs _ (mem_of_getElem? hq)
  cases f' with
  | some x =>
    refine h.quietly hq rfl ?_ ?_ (.inr ?_) ?_ ?_ fun w hw => .inl hw
    · rfl
    · rfl
    · cases ver <;> rfl
    · exact ⟨rfl, hver, hf' x rfl⟩
    · exact nofun
  | none =>
    refine h.quietly hq rfl ?_ ?_ (.inr ?_) ?_ ?_ fun w hw => ?_
    · rfl
    · rfl
    · cases ver <;> rfl
    · exact ⟨rfl, hver⟩
    · exact nofun
    · cases ver with
      | none => exact .inl hw
      | some ver =>
        rcases mem_append.mp hw with hw | hw
        · exact .inl hw
        · obtain ⟨hpos, hle, -⟩ := hver ver rfl
          exact .inr (mem_singleton.mp hw ▸ ⟨hpos, hle⟩)

/-- A step of a SET's `drain_forget`. -/
theorem Inv.forgotten (hok : s.Undisturbed k (.next i now)) :
    Inv k { s with
      old := (s.forget k on f).1
      reqs := s.reqs.set i (.set v 0 tid on prior (.after ver (s.forget k on f).2))
      finished := (SetPc.after ver (s.forget k on f).2).note s.finished } := by
  have hmem := mem_of_getElem? hq
  obtain ⟨-, -, hfok⟩ := h.reqs _ hmem
  cases f with
  | load =>
    refine h.movedOn hq _ fun x hx => ?_
    simp only [forget, mem_def, ite_none_right_eq_some, some.injEq] at hx
    obtain ⟨hdrains, rfl⟩ := hx
    simp only [Phase.drains, decide_eq_true_eq] at hdrains
    exact hdrains.2
  | getver =>
    obtain rfl : on = .new := hfok
    rw [forget_getver_old]
    refine h.movedOn hq _ fun x hx => ?_
    rw [forget_getver hx]
    exact ⟨rfl, le_rfl⟩
  | drop w =>
    obtain ⟨rfl, hw⟩ := hfok
    have hlive : s.phase.live = .new := by
      cases hside : s.phase.live with
      | new => rfl
      | old => cases (h.placed.early hside).2.2 _ hmem
    have hrel := hok w (by simp [forgets, hq])
    have hinv := h.drop hw hlive hrel (lookup_drop s.clocks.shared s.old k w)
    exact hinv.movedOn hq none (by simp)

end

section

variable (hA : ∀ n ≤ cellMax, A.alloc n = true) (h : s.Inv k)
include hA h

theorem Inv.setNext {expires : Nat} {prior : List Nat} {pc : SetPc}
    (hq : s.reqs[i]? = some (.set v expires tid on prior pc)) (hok : s.Undisturbed k (.next i now))
    (hstep : s.setNext ed A k now v expires tid on pc = some x) :
    Inv k { x.1 with
      reqs := s.reqs.set i (.set v expires tid on prior x.2)
      finished := x.2.note s.finished } := by
  have hmem := mem_of_getElem? hq
  obtain ⟨rfl, hpc⟩ := h.reqs _ hmem
  cases pc with
  | resolved =>
    simp only [Resizing.setNext] at hstep
    split at hstep
    · cases hstep
      exact h.setQuietly hq rfl rfl ⟨rfl, by simp, trivial⟩
    · cases hstep
      by_cases hdrains : s.phase.drains on = true
      · obtain rfl : on = .new := by
          simp only [Phase.drains, decide_eq_true_eq] at hdrains
          exact hdrains.2
        rw [if_pos hdrains]
        exact h.setQuietly hq rfl rfl ⟨rfl, rfl, hpc⟩
      · rw [if_neg hdrains]
        refine h.setQuietly hq rfl rfl ⟨rfl, ?_⟩
        cases on with
        | old => exact hpc
        | new =>
          have hzero := h.hO_of_not_drains hmem rfl (by simpa using hdrains)
          exact Upto.mono hpc (by simp [hzero])
  | carrying =>
    obtain ⟨rfl, hle⟩ := hpc
    simp only [setNext, h.fetch, some.injEq] at hstep
    subst hstep
    exact h.setQuietly hq rfl rfl ⟨rfl, rfl, hle, le_rfl⟩
  | fetched nver at_ =>
    have hnote : x.2.note s.finished = s.finished := by
      simp only [Resizing.setNext] at hstep
      split at hstep
      · split at hstep <;> cases hstep <;> rfl
      · cases hstep
        rfl
    rw [hnote]
    exact h.carried hA hq hstep
  | storing =>
    have hnote : x.2.note s.finished = s.finished := by
      simp only [Resizing.setNext] at hstep
      split at hstep <;> cases hstep <;> rfl
    rw [hnote]
    exact h.stored hA hq hstep
  | forget ver f =>
    cases hstep
    exact h.forgotten hq hok
  | done => cases hstep

theorem Inv.next (hok : s.Undisturbed k (.next i now)) (hstep : s.next ed A k i now = some s') :
    s'.Inv k := by
  unfold Resizing.next at hstep
  split at hstep
  · rename_i hq
    obtain ⟨x, hx, rfl⟩ := map_eq_some_iff.mp hstep
    exact h.setNext hA hq hok hx
  · rename_i pc hq
    obtain ⟨pc', hx, rfl⟩ := map_eq_some_iff.mp hstep
    obtain ⟨hok', hrecs⟩ := h.getNext hq hx
    refine h.quietly hq ?_ ?_ ?_ (.inl rfl) hok' hrecs fun w hw => .inl hw
    · cases pc with
      | done => cases hx
      | resolved | looked | missed | hit | newer | again => rfl
    · rfl
    · rfl
  · rename_i hq
    exact (h.reqs _ (mem_of_getElem? hq)).elim
  · cases hstep

theorem Inv.step {a : Act} (hok : s.Scope a ∧ s.Undisturbed k a)
    (hstep : s.step ed A k a = some s') :
    s'.Inv k := by
  cases a with
  | start => exact h.start hstep
  | walk => exact h.walk hstep
  | copy now => exact h.copy hA hok.2 hstep
  | endPass => exact h.endPass hstep
  | swap => exact h.swap hstep
  | close => exact h.close hok.1 hstep
  | finish => exact h.finish hstep
  | beginSet tid v expires =>
    cases hstep
    exact h.begin rfl ⟨hok.1, h.upto_finished⟩ rfl rfl
  | beginGet now =>
    cases hstep
    exact h.begin rfl h.upto_finished rfl rfl
  | beginDel tid => exact hok.1.elim
  | next i now => exact h.next hA hok.2 hstep
  | elsewhere tid n m => exact h.elsewhere hstep

end

end Requests

/-! ### The latest write -/

/-- The SETs that have stored, the version and the value of each. -/
def written (s : Resizing) : List (Nat × List Byte) := s.reqs.filterMap Req.wrote

section Latest

variable {k : Key} {s : Resizing}

theorem mem_written : (ver, v) ∈ s.written ↔ s.Wrote ver v := by
  simp only [written, mem_filterMap, Wrote]

/-- A SET is stamped above what had completed when it began. -/
theorem Inv.prior_lt (h : s.Inv k) (hq : q ∈ s.reqs) {w : Nat × List Byte}
    (hw : w ∈ q.wrote) {v : Nat} (hv : v ∈ q.prior) : v < w.1 := by
  have hok := h.reqs q hq
  unfold Req.wrote at hw
  split at hw
  · cases hw
    exact (hok.2.1 _ rfl).2.2 v hv
  · cases hw
    exact (hok.2 _ rfl).2.2 v hv
  · cases hw

/-- A read answers what had completed when it began, or something above it. -/
theorem Inv.answered (h : s.Inv k) {prior : List Nat} {answer : Option Rec}
    (hg : .get now on prior (.done answer) ∈ s.reqs) (hne : prior ≠ []) :
    ∃ r, answer = some r ∧ (r.ver, r.val) ∈ s.written ∧ ∀ v ∈ prior, v ≤ r.ver := by
  have hok : Upto prior (verOf answer) := h.reqs _ hg
  obtain ⟨w, hw⟩ := exists_mem_of_ne_nil prior hne
  have hpos := h.priors _ hg w hw
  have hle := hok w hw
  cases answer with
  | none =>
    simp only [verOf, map_none, getD_none] at hle
    omega
  | some r =>
    refine ⟨r, rfl, mem_written.mpr ?_, hok⟩
    exact (h.known.reads _ hg r (mem_singleton_self r)).2

/-- Once the resize is over the new table has the greatest version. -/
theorem Inv.greatest (h : s.Inv k) (hended : s.phase = .ended) (hne : s.written ≠ []) :
    ∃ r, s.new.lookup k = some r ∧ (r.ver, r.val) ∈ s.written ∧ ∀ w ∈ s.written, w.1 ≤ r.ver := by
  have hO : s.hO k = 0 := by simp [hO, (h.placed.late (.inr hended)).2, verOf]
  have hle : ∀ w ∈ s.written, 1 ≤ w.1 ∧ w.1 ≤ s.hN k := by
    intro w hw
    have := h.wrote (mem_written.mp hw)
    omega
  obtain ⟨w, hw⟩ := exists_mem_of_ne_nil _ hne
  cases hl : s.new.lookup k with
  | none =>
    have := hle w hw
    simp only [hN, hl, verOf, map_none, getD_none] at this
    omega
  | some r =>
    have hN : s.hN k = r.ver := by rw [hN, hl, verOf_some]
    refine ⟨r, rfl, mem_written.mpr (h.known.table .new r hl).2, fun w hw => ?_⟩
    exact hN ▸ (hle w hw).2

end Latest

end Resizing

/-- **A resize keeps the latest write.** In every run of a resize with SETs and reads of the key in
which `drain_forget` drops a record of the old table only while no request counts on it:

* once the resize is over, the live table holds a SET of the greatest version, and no SET began
  after one of that version had completed;
* at every moment a SET is stamped above every SET that had completed when it began;
* a read answers a SET's value, of a version at or above every SET's that had completed when the
  read began. -/
theorem resize_keeps_latest (ed : Edition) (A : Arena) (hA : ∀ n ≤ cellMax, A.alloc n = true)
    (k : Key) (t : Table) (ht : t.lookup k = none) (c : Clocks) (as : List Act) (s : Resizing)
    (hok : Along (Resizing.step ed A k) (fun s a => s.Scope a ∧ s.Undisturbed k a)
      (Resizing.start t c) as)
    (hrun : run (Resizing.step ed A k) (Resizing.start t c) as = some s) :
    (s.phase = .ended → s.written ≠ [] →
      ∃ r, (s.table s.phase.live).lookup k = some r ∧ (r.ver, r.val) ∈ s.written ∧
        (∀ w ∈ s.written, w.1 ≤ r.ver) ∧
        ∀ q ∈ s.reqs, q.wrote ≠ none → r.ver ∉ q.prior) ∧
    (∀ q ∈ s.reqs, ∀ w ∈ q.wrote, ∀ v ∈ q.prior, v < w.1) ∧
    (∀ now on prior answer, .get now on prior (.done answer) ∈ s.reqs → prior ≠ [] →
      ∃ r, answer = some r ∧ (r.ver, r.val) ∈ s.written ∧ ∀ v ∈ prior, v ≤ r.ver) := by
  have h : s.Inv k :=
    run_invariant (fun _ _ _ hI hok hs => hI.step hA hok hs) (Resizing.inv_start ht c) hok hrun
  refine ⟨fun hended hne => ?_, fun q hq w hw v hv => h.prior_lt hq hw hv,
    fun now on prior answer hg hne => h.answered hg hne⟩
  obtain ⟨r, hr, hmem, hmax⟩ := h.greatest hended hne
  refine ⟨r, by rw [hended]; exact hr, hmem, hmax, fun q hq hset hprior => ?_⟩
  obtain ⟨w, hw⟩ := ne_none_iff_exists'.mp hset
  have hlt := h.prior_lt hq hw hprior
  have hle := hmax w (mem_filterMap.mpr ⟨q, hq, hw⟩)
  omega

/-- A key is SET, copied and SET again before the swap; a read of the new table then finds the
newer value in the old one, and the drain moves it. -/
def setAcrossSwap : List Act :=
  [.beginSet 0 [1#8] 0, .next 0 0, .next 0 0, .next 0 0, .start, .walk, .copy 0, .copy 0, .endPass,
    .walk, .copy 0, .copy 0, .beginSet 1 [2#8] 0, .next 1 0, .next 1 0, .next 1 0, .swap,
    .beginGet 0, .next 2 0, .next 2 0, .next 2 0, .next 2 0, .walk, .copy 0, .copy 0, .copy 0,
    .copy 0, .endPass, .walk, .close, .finish]

theorem resize_keeps_latest_across_swap :
    ∃ s, run (Resizing.step .standalone vastArena []) (Resizing.start ∅ ⟨0, fun _ => 0⟩)
        setAcrossSwap = some s ∧
      s.phase = .ended ∧ s.written = [(1, [1#8]), (2, [2#8])] ∧
      .get 0 .new [1, 2] (.done (some ⟨[2#8], 0, 0#8, 2⟩)) ∈ s.reqs ∧
      ∃ r, (s.table s.phase.live).lookup [] = some r ∧ (r.ver, r.val) ∈ s.written ∧
        (∀ w ∈ s.written, w.1 ≤ r.ver) ∧ ∀ q ∈ s.reqs, q.wrote ≠ none → r.ver ∉ q.prior := by
  have hA : ∀ n ≤ cellMax, vastArena.alloc n = true := fun _ _ => rfl
  refine ⟨_, rfl, rfl, by decide, by decide, ?_⟩
  exact (resize_keeps_latest .standalone vastArena hA [] ∅ rfl ⟨0, fun _ => 0⟩ setAcrossSwap _
    (by decide) rfl).1 rfl (by decide)

/-- A key is SET once the last pass before the swap has come by it. A read that begins after the
SET has completed looks at the new table; the drain moves the record from the old table to the new
one; the read looks at the old table. -/
def movedBetweenLooks : List Act :=
  [.start, .walk, .endPass, .walk, .beginSet 0 [] 0, .next 0 0, .next 0 0, .next 0 0, .swap,
    .beginGet 0, .next 1 0, .walk, .copy 0, .copy 0, .copy 0, .copy 0, .next 1 0, .next 1 0]

/-- The read answers that there is no such key. -/
theorem read_misses_moved_key : Along (Resizing.step .clustered vastArena []) Resizing.Scope
        (Resizing.start ∅ ⟨0, fun _ => 0⟩) movedBetweenLooks ∧
      ∃ s, run (Resizing.step .clustered vastArena []) (Resizing.start ∅ ⟨0, fun _ => 0⟩)
          movedBetweenLooks = some s ∧
        s.finished = [1] ∧ .get 0 .new [1] (.done none) ∈ s.reqs :=
  ⟨by decide, _, rfl, by decide, by decide⟩

end Perfcached.Resize
