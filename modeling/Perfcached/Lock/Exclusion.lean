import Perfcached.Lock.Slock
import Perfcached.Lib.Machine

/-!
# Perfcached.Lock.Exclusion

What the lock scripts give each other.

A lock is a map from tokens to expiries. `Edits` says what a script does to it, and `lkEdit_outcome`
that the array the source edits does the same. Two ghost readings of a history say until when a
token holds the lock for writing and for reading; the invariant ties them to the map: while the
time has not come the token is a member with that expiry, and with `__write__` beside it and no one
else where it writes.
-/

namespace Perfcached.Lock

open Bytes List Option Bool

/-! ### A lock as a map -/

abbrev Held := List Byte → Option Nat

/-- What a script that answers true does to a lock. -/
def Edits (script : Script) (e : Nat) (t : List Byte) (h h' : Held) : Prop :=
  match script with
  | .save =>
    ((h t).isSome = true → (h lkWrite).isSome = true ∨ ∀ u, u ≠ t → h u = none) ∧
      (h t = none → ∀ u, h u = none) ∧
      ∀ u, h' u = if u = lkWrite then some e else if u = t then some e else h u
  | .read =>
    (h t = none → h lkWrite = none) ∧
      ∀ u, h' u = if u = lkWrite then none else if u = t then some e else h u
  | .refresh =>
    (h t).isSome = true ∧
      ∀ u, h' u = if u = lkWrite then (h u).map fun _ => e else if u = t then some e else h u
  | .release =>
    (h t).isSome = true ∧ ∀ u, h' u = if u = lkWrite then none else if u = t then none else h u
  | .held => (h t).isSome = true ∧ ∀ u, h' u = h u
  | .probe | .unknown => False

/-- The lock a script starts from: the scripts that trim see the unexpired members only. -/
def trimmed (script : Script) (now : Nat) (h : Held) : Held := fun u =>
  if script.trims then (h u).filter fun e => decide (now < e) else h u

variable {m : List LkM}

theorem lkStart_spec (script : Script) (now : Nat) (hm : Members m) :
    let s := if script.trims then lkTrim m now else (m, false)
    Members s.1 ∧ (∀ u, expOf s.1 u = trimmed script now (expOf m) u) ∧
      (s.2 = false → ∀ u, expOf s.1 u = expOf m u) := by
  by_cases htrims : script.trims = true
  · simp only [htrims, if_true]
    obtain ⟨hmem, hexp, hsame⟩ := lkTrim_spec hm now
    refine ⟨hmem, fun u => ?_, hsame⟩
    rw [hexp u, trimmed, if_pos htrims]
  · simp only [htrims, false_eq_true, if_false]
    refine ⟨hm, fun u => ?_, fun _ _ => trivial⟩
    rw [trimmed, if_neg htrims]

/-- What a script comes to: the new array, and that the answer and the store go with it. -/
structure Outcome (script : Script) (e : Nat) (t : List Byte) (h h₀ : Held)
    (o : List LkM × Bool × Bool) : Prop where
  members : Members o.1
  answered : o.2.2 = true → Edits script e t h₀ (expOf o.1)
  refused : o.2.2 = false → ∀ u, expOf o.1 u = h₀ u
  kept : o.2.1 = false → ∀ u, expOf o.1 u = h u

variable {script : Script}

section Scripts

variable {e : Nat} {t : List Byte} {m : List LkM} {h h₀ : Held} {changed : Bool}

theorem Outcome.refusal (hm : Members m) (hstart : ∀ u, expOf m u = h₀ u)
    (hkept : changed = false → ∀ u, expOf m u = h u) :
    Outcome script e t h h₀ (m, changed, false) :=
  ⟨hm, fun h => absurd h false_ne_true, fun _ => hstart, hkept⟩

theorem Outcome.answer (hm : Members m) (hedits : Edits script e t h₀ (expOf m)) :
    Outcome script e t h h₀ (m, true, true) :=
  ⟨hm, fun _ => hedits, fun h => absurd h.symm false_ne_true,
    fun h => absurd h.symm false_ne_true⟩

theorem save_edits (hm : Members m) (he : e < 2 ^ 64) (ht : t.length < 2 ^ 16)
    (hfree : ¬ (if (lkFind m t).isSome = true then (lkFind m lkWrite).isNone = true ∧ m.length > 1
      else m.length > 0)) :
    ∃ m₁ m₂, lkSet m t e = some m₁ ∧ lkSet m₁ lkWrite e = some m₂ ∧ Members m₂ ∧
      Edits .save e t (expOf m) (expOf m₂) := by
  rw [isSome_lkFind, ← not_isSome, isSome_lkFind] at hfree
  have halone : (expOf m t).isSome = true →
      (expOf m lkWrite).isSome = true ∨ ∀ u, u ≠ t → expOf m u = none := by
    intro hti
    rw [if_pos hti, not_and_or] at hfree
    rcases hfree with hwi | hlen
    · exact .inl (isSome_iff_ne_none.mpr (by simpa using hwi))
    · refine .inr fun u hu => ?_
      by_contra hother
      exact hlen (length_gt_one_of_other hti hu (isSome_iff_ne_none.mpr hother))
  have hempty : expOf m t = none → ∀ u, expOf m u = none := by
    intro hti u
    rw [if_neg (by simp [hti]), length_pos_iff_expOf, not_exists] at hfree
    simpa using hfree u
  -- one member at the most where a new one comes in, so there is room
  have hroom : (expOf m t).isSome = true ∧ (expOf m lkWrite).isSome = true ∨ m.length ≤ 1 := by
    by_cases hti : (expOf m t).isSome = true
    · rw [if_pos hti, not_and_or] at hfree
      rcases hfree with hwi | hlen
      · exact .inl ⟨hti, isSome_iff_ne_none.mpr (by simpa using hwi)⟩
      · exact .inr (by omega)
    · rw [if_neg hti] at hfree
      exact .inr (by omega)
  have hmax : (1 : Nat) + 1 < lkMax := by decide
  obtain ⟨m₁, h₁⟩ : ∃ m₁, lkSet m t e = some m₁ :=
    lkSet_isSome (hroom.imp And.left fun h => by omega)
  obtain ⟨hm₁, hexp₁⟩ := lkSet_spec hm he ht h₁
  have hlen₁ : m₁.length ≤ m.length + 1 := lkSet_length h₁
  obtain ⟨m₂, h₂⟩ : ∃ m₂, lkSet m₁ lkWrite e = some m₂ := by
    refine lkSet_isSome (hroom.imp (fun h => ?_) fun h => by omega)
    rw [hexp₁]
    split
    · rfl
    · exact h.2
  obtain ⟨hm₂, hexp₂⟩ := lkSet_spec hm₁ he (by decide) h₂
  refine ⟨m₁, m₂, h₁, h₂, hm₂, halone, hempty, fun u => ?_⟩
  rw [hexp₂, hexp₁]

theorem refresh_edits (hm : Members m) (he : e < 2 ^ 64) (hw : t ≠ lkWrite)
    (hmember : (expOf m t).isSome = true) :
    let m₁ := Slots.update LkM.tok t (fun x => { x with exp := e }) m
    let m₂ := if (lkFind m lkWrite).isSome = true then
      Slots.update LkM.tok lkWrite (fun x => { x with exp := e }) m₁ else m₁
    Members m₂ ∧ Edits .refresh e t (expOf m) (expOf m₂) := by
  have hm₁ := members_update (t := t) hm he
  have hexp₁ := fun u => expOf_update (e := e) u hmember
  intro m₁ m₂
  simp only [m₂, m₁, isSome_lkFind]
  by_cases hwi : (expOf m lkWrite).isSome = true
  · rw [if_pos hwi]
    refine ⟨members_update hm₁ he, hmember, fun u => ?_⟩
    have hwi₁ : (expOf (Slots.update LkM.tok t (fun x => { x with exp := e }) m) lkWrite).isSome =
        true := by
      rw [hexp₁, if_neg (Ne.symm hw)]
      exact hwi
    rw [expOf_update u hwi₁, hexp₁]
    split
    · rename_i hu
      obtain ⟨w, hw⟩ := isSome_iff_exists.mp hwi
      rw [hu, hw, map_some]
    · rfl
  · rw [if_neg hwi]
    refine ⟨hm₁, hmember, fun u => ?_⟩
    rw [hexp₁]
    by_cases hu : u = lkWrite
    · have hnone : expOf m u = none := by
        rw [hu]
        simpa using hwi
      rw [if_pos hu, if_neg (by rw [hu]; exact Ne.symm hw), hnone, map_none]
    · rw [if_neg hu]

end Scripts

variable {e : Nat} {t : List Byte}

/-- **The array does what the map does.** -/
theorem lkEdit_outcome {now : Nat} (hm : Members m) (he : e < 2 ^ 64) (ht : t.length < 2 ^ 16)
    (hw : t ≠ lkWrite) :
    Outcome script e t (expOf m) (trimmed script now (expOf m)) (lkEdit script now e t m) := by
  obtain ⟨hs, hstart, hkept⟩ := lkStart_spec script now hm
  rw [lkEdit]
  generalize (if script.trims = true then lkTrim m now else (m, false)) = s at hs hstart hkept
  obtain ⟨m₀, changed⟩ := s
  have hrefuse : Outcome script e t (expOf m) (trimmed script now (expOf m)) (m₀, changed, false) :=
    Outcome.refusal hs hstart hkept
  rw [← funext hstart] at hrefuse ⊢
  cases script with
  | save =>
    simp only
    by_cases hbusy : (if (lkFind m₀ t).isSome = true then
        (lkFind m₀ lkWrite).isNone = true ∧ m₀.length > 1 else m₀.length > 0)
    · rw [if_pos hbusy]
      exact hrefuse
    · rw [if_neg hbusy]
      obtain ⟨m₁, m₂, h₁, h₂, hm₂, hedits⟩ := save_edits hs he ht hbusy
      rw [h₁]
      simp only
      rw [h₂]
      exact Outcome.answer hm₂ hedits
  | read =>
    simp only
    split
    · exact hrefuse
    · rename_i hfree
      rw [← not_isSome, isSome_lkFind, isSome_lkFind] at hfree
      cases h₁ : lkSet m₀ t e with
      | none => exact hrefuse
      | some m₁ =>
        obtain ⟨hm₁, hexp₁⟩ := lkSet_spec hs he ht h₁
        obtain ⟨hm₂, hexp₂⟩ := lkRem_spec (t := lkWrite) hm₁
        refine Outcome.answer hm₂ ⟨fun hti => ?_, fun u => by rw [hexp₂, hexp₁]⟩
        simpa [hti] using hfree
  | refresh =>
    simp only
    split
    · exact hrefuse
    · rename_i hmember
      rw [← not_isSome, isSome_lkFind] at hmember
      obtain ⟨hm₂, hedits⟩ := refresh_edits hs he hw
        (isSome_iff_ne_none.mpr (by simpa using hmember))
      exact Outcome.answer hm₂ hedits
  | release =>
    simp only
    split
    · exact hrefuse
    · rename_i hmember
      rw [← not_isSome, isSome_lkFind] at hmember
      obtain ⟨hm₁, hexp₁⟩ := lkRem_spec (t := t) hs
      obtain ⟨hm₂, hexp₂⟩ := lkRem_spec (t := lkWrite) hm₁
      refine Outcome.answer hm₂ ⟨?_, fun u => by rw [hexp₂, hexp₁]⟩
      exact isSome_iff_ne_none.mpr (by simpa using hmember)
  | held =>
    refine ⟨hs, fun hti => ⟨?_, fun _ => rfl⟩, fun _ _ => rfl, hkept⟩
    rwa [← isSome_lkFind]
  | probe | unknown => exact hrefuse

/-! ### Runs -/

/-- One call: the time on the one clock, the script with its arguments, the tick counter, the
version a store stamps and the failures around the call. -/
structure Call where
  time : Nat
  script : Script
  tok : List Byte
  ttl : Nat
  nowArg : Int
  ticks : Nat
  ver : Nat
  noBuffer : Bool
  fetchFails : Bool
  storeFails : Bool

def Call.env (c : Call) : Env := ⟨c.time, c.ticks, c.noBuffer, c.fetchFails, c.storeFails⟩

/-- What a call answers and does, the record being there until a script drops it. -/
def Call.exec (c : Call) (cell : Option Rec) : Except String Bool × Effect :=
  slockLocal c.env cell c.script c.nowArg c.ttl c.tok

def Call.apply (c : Call) (cell : Option Rec) : Effect → Option Rec
  | .keep => cell
  | .drop => none
  | .store val expires => some ⟨val, expires, fLock, c.ver⟩

/-- The key, the time of the last call and the calls with their answers, the last one first. -/
structure World where
  cell : Option Rec
  clock : Nat
  log : List (Call × Except String Bool)

def World.init : World := ⟨none, 0, []⟩

/-- What a holder may call: with a token that is not the marker, at a time that has not gone back
and stands for now, and with a sum with the time to live that fits 64 bits. -/
def Call.Legal (s : World) (c : Call) : Prop :=
  s.clock ≤ c.time ∧ c.tok ≠ lkWrite ∧ (c.nowArg < 0 ∨ c.nowArg = c.time) ∧ c.time + c.ttl < 2 ^ 64
  deriving Decidable

def World.step (s : World) (c : Call) : Option World :=
  if c.Legal s then
    some ⟨c.apply s.cell (c.exec s.cell).2, c.time, (c, (c.exec s.cell).1) :: s.log⟩
  else none

def membersOf (cell : Option Rec) : List LkM :=
  match cell with
  | none => []
  | some r => (lkParse r.val).getD []

/-- What a script of its own that answers true makes of a token's write lock: a SAVE takes it until
`e`, a REFRESH puts it off, a READ and a RELEASE end it. -/
def Script.writes (script : Script) (e : Nat) (old : Option Nat) : Option Nat :=
  match script with
  | .save => some e
  | .refresh => old.map fun _ => e
  | .read | .release => none
  | .held | .probe | .unknown => old

/-- And of its read lock, which a SAVE turns into a write lock. -/
def Script.reads (script : Script) (e : Nat) (old : Option Nat) : Option Nat :=
  match script with
  | .read => some e
  | .refresh => old.map fun _ => e
  | .save | .release => none
  | .held | .probe | .unknown => old

/-- Until when `t` holds the lock for writing. -/
def writeUntil (t : List Byte) : List (Call × Except String Bool) → Option Nat
  | [] => none
  | (c, .ok true) :: log =>
    if c.tok = t then c.script.writes (c.time + c.ttl) (writeUntil t log) else writeUntil t log
  | _ :: log => writeUntil t log

/-- Until when `t` holds the lock for reading. -/
def readUntil (t : List Byte) : List (Call × Except String Bool) → Option Nat
  | [] => none
  | (c, .ok true) :: log =>
    if c.tok = t then c.script.reads (c.time + c.ttl) (readUntil t log) else readUntil t log
  | _ :: log => readUntil t log

/-! ### The leases -/

/-- What the lock owes to the history. -/
structure Leases (h : Held) (clock : Nat) (log : List (Call × Except String Bool)) : Prop where
  excl : ∀ w, h lkWrite = some w →
    ∃ t, t ≠ lkWrite ∧ h t = some w ∧ ∀ u, u ≠ t → u ≠ lkWrite → h u = none
  writer : ∀ t e, t ≠ lkWrite → writeUntil t log = some e →
    h t = some e ∧ h lkWrite = some e ∨ h t = none ∧ e ≤ clock
  reader : ∀ t e, t ≠ lkWrite → readUntil t log = some e → h t = some e ∨ h t = none ∧ e ≤ clock

variable {u : List Byte}

section Lease

variable {h h' : Held} {clock now : Nat} {log : List (Call × Except String Bool)}

theorem Leases.later (hl : Leases h clock log) (hnow : clock ≤ now) : Leases h now log where
  excl := hl.excl
  writer t e ht hu := (hl.writer t e ht hu).imp_right fun ⟨hnone, hle⟩ => ⟨hnone, hle.trans hnow⟩
  reader t e ht hu := (hl.reader t e ht hu).imp_right fun ⟨hnone, hle⟩ => ⟨hnone, hle.trans hnow⟩

def unexpired (now : Nat) (h : Held) : Held := fun u => (h u).filter fun e => decide (now < e)

theorem unexpired_of_some (now : Nat) (hu : h u = some e) :
    unexpired now h u = some e ∧ now < e ∨ unexpired now h u = none ∧ e ≤ now := by
  rw [unexpired, hu]
  by_cases he : now < e
  · exact .inl ⟨filter_some_pos (decide_eq_true he), he⟩
  · exact .inr ⟨filter_some_neg (decide_eq_false he), Nat.le_of_not_lt he⟩

theorem unexpired_of_none (hu : h u = none) : unexpired now h u = none := by
  rw [unexpired, hu, filter_none]

section

variable (hl : Leases h now log)
include hl

theorem Leases.unexpired : Leases (Lock.unexpired now h) now log where
  excl w hw := by
    obtain ⟨hwrite, hlt⟩ := filter_eq_some_iff.mp hw
    obtain ⟨t, ht, hexp, hothers⟩ := hl.excl w hwrite
    refine ⟨t, ht, ?_, fun u hu huw => unexpired_of_none (hothers u hu huw)⟩
    -- both carry the expiry `w`, so both stay
    rw [Lock.unexpired, hexp]
    exact filter_some_pos hlt
  writer t e ht hu := by
    rcases hl.writer t e ht hu with ⟨hheld, hwrite⟩ | ⟨hnone, hle⟩
    · rcases unexpired_of_some now hheld with ⟨hstay, hlt⟩ | hgone
      · exact .inl ⟨hstay, (unexpired_of_some now hwrite).elim And.left fun hgone => by omega⟩
      · exact .inr hgone
    · exact .inr ⟨unexpired_of_none hnone, hle⟩
  reader t e ht hu := by
    rcases hl.reader t e ht hu with hheld | ⟨hnone, hle⟩
    · exact (unexpired_of_some now hheld).imp And.left id
    · exact .inr ⟨unexpired_of_none hnone, hle⟩

theorem Leases.trimmed (script : Script) : Leases (Lock.trimmed script now h) now log := by
  by_cases htrims : script.trims = true
  · have heq : Lock.trimmed script now h = Lock.unexpired now h :=
      funext fun u => by rw [Lock.trimmed, if_pos htrims]; rfl
    rw [heq]
    exact hl.unexpired
  · have heq : Lock.trimmed script now h = h := funext fun u => by rw [Lock.trimmed, if_neg htrims]
    rw [heq]
    exact hl

/-- A lock whose members are all over may go. -/
theorem Leases.dropped (hover : ∀ u e, h u = some e → e ≤ now) :
    Leases (fun _ => none) now log where
  excl w hw := by cases hw
  writer t e ht hu := by
    rcases hl.writer t e ht hu with ⟨hheld, -⟩ | ⟨-, hle⟩
    · exact .inr ⟨rfl, hover t e hheld⟩
    · exact .inr ⟨rfl, hle⟩
  reader t e ht hu := by
    rcases hl.reader t e ht hu with hheld | ⟨-, hle⟩
    · exact .inr ⟨rfl, hover t e hheld⟩
    · exact .inr ⟨rfl, hle⟩

theorem Leases.relog {log' : List (Call × Except String Bool)}
    (hwrite : ∀ t, writeUntil t log' = writeUntil t log)
    (hread : ∀ t, readUntil t log' = readUntil t log) : Leases h now log' :=
  ⟨hl.excl, fun t e ht hu => hl.writer t e ht (hwrite t ▸ hu),
    fun t e ht hu => hl.reader t e ht (hread t ▸ hu)⟩

theorem Leases.unanswered (c : Call) {a : Except String Bool} (ha : a ≠ .ok true) :
    Leases h now ((c, a) :: log) := by
  rcases a with msg | _ | _
  · exact hl.relog (fun _ => rfl) fun _ => rfl
  · exact hl.relog (fun _ => rfl) fun _ => rfl
  · exact absurd rfl ha

theorem Leases.probed (c : Call) (hc : c.script = .probe) (a : Except String Bool) :
    Leases h now ((c, a) :: log) := by
  rcases a with msg | _ | _
  · exact hl.relog (fun _ => rfl) fun _ => rfl
  · exact hl.relog (fun _ => rfl) fun _ => rfl
  · refine hl.relog (fun t => ?_) fun t => ?_
    · rw [writeUntil, hc]
      exact ite_self _
    · rw [readUntil, hc]
      exact ite_self _

end

theorem Edits.other (hedits : Edits script e t h h') (hu : u ≠ t) (hw : u ≠ lkWrite) :
    h' u = h u := by
  cases script with
  | save => rw [hedits.2.2, if_neg hw, if_neg hu]
  | read | refresh | release => rw [hedits.2, if_neg hw, if_neg hu]
  | held => exact hedits.2 u
  | probe | unknown => exact hedits.elim

section

variable (hl : Leases h clock log)
include hl

section

variable (ht : t ≠ lkWrite)
include ht

theorem Leases.alone (hheld : (h t).isSome = true) (hwrite : (h lkWrite).isSome = true) (hu : u ≠ t)
    (hw : u ≠ lkWrite) : h u = none := by
  obtain ⟨w, hwrite⟩ := isSome_iff_exists.mp hwrite
  obtain ⟨p, -, -, hothers⟩ := hl.excl w hwrite
  have htp : t = p := by
    by_contra hne
    rw [hothers t hne ht] at hheld
    cases hheld
  exact hothers u (htp ▸ hu) hw

/-- **No SAVE beside another member.** -/
theorem Leases.save_alone (hedits : Edits .save e t h h') (hu : u ≠ t) (hw : u ≠ lkWrite) :
    h u = none := by
  obtain ⟨hmember, hnew, -⟩ := hedits
  cases hti : h t with
  | none => exact hnew hti u
  | some e' =>
    have hti' : (h t).isSome = true := by rw [hti]; rfl
    rcases hmember hti' with hwrite | hothers
    · exact hl.alone ht hti' hwrite hu hw
    · exact hothers u hu

/-- **Nothing beside another writer.** -/
theorem Leases.no_edit (hu : u ≠ lkWrite) (hne : u ≠ t) (hheld : (h u).isSome = true)
    (hwrite : (h lkWrite).isSome = true) : ¬ Edits script e t h h' := by
  intro hedits
  have hti : h t = none := hl.alone hu hheld hwrite (Ne.symm hne) ht
  have hnot : ¬ (h t).isSome = true := by rw [hti]; exact false_ne_true
  cases script with
  | save =>
    rw [hedits.2.1 hti u] at hheld
    cases hheld
  | read =>
    rw [hedits.1 hti] at hwrite
    cases hwrite
  | refresh | release | held => exact hnot hedits.1
  | probe | unknown => exact hedits.elim

theorem Leases.edited_excl (hedits : Edits script e t h h') (w : Nat) (hw : h' lkWrite = some w) :
    ∃ t, t ≠ lkWrite ∧ h' t = some w ∧ ∀ u, u ≠ t → u ≠ lkWrite → h' u = none := by
  cases script with
  | save =>
    rw [hedits.2.2, if_pos rfl] at hw
    refine ⟨t, ht, by rw [hedits.2.2, if_neg ht, if_pos rfl, hw], fun u hu huw => ?_⟩
    rw [hedits.other hu huw]
    exact hl.save_alone ht hedits hu huw
  | refresh =>
    rw [hedits.2, if_pos rfl] at hw
    obtain ⟨w', hwrite, rfl⟩ := map_eq_some_iff.mp hw
    refine ⟨t, ht, by rw [hedits.2, if_neg ht, if_pos rfl], fun u hu huw => ?_⟩
    rw [hedits.other hu huw]
    exact hl.alone ht hedits.1 (by rw [hwrite]; rfl) hu huw
  | read | release =>
    rw [hedits.2, if_pos rfl] at hw
    cases hw
  | held =>
    rw [hedits.2] at hw
    obtain ⟨p, hp, hexp, hothers⟩ := hl.excl w hw
    exact ⟨p, hp, by rw [hedits.2, hexp], fun u hu huw => by rw [hedits.2, hothers u hu huw]⟩
  | probe | unknown => exact hedits.elim

end

section

variable {new : Nat} (ht : t ≠ lkWrite) (hedits : Edits script e t h h')
include ht hedits

theorem Leases.own_writer (hnew : script.writes e (writeUntil t log) = some new) :
    h' t = some new ∧ h' lkWrite = some new ∨ h' t = none ∧ new ≤ clock := by
  cases script with
  | save =>
    cases hnew
    exact .inl ⟨by rw [hedits.2.2, if_neg ht, if_pos rfl], by rw [hedits.2.2, if_pos rfl]⟩
  | refresh =>
    obtain ⟨old, hold, rfl⟩ := map_eq_some_iff.mp hnew
    rcases hl.writer t old ht hold with ⟨-, hwrite⟩ | ⟨hnone, -⟩
    · refine .inl ⟨by rw [hedits.2, if_neg ht, if_pos rfl], ?_⟩
      rw [hedits.2, if_pos rfl, hwrite, map_some]
    · have hmember := hedits.1
      rw [hnone] at hmember
      cases hmember
  | read | release => cases hnew
  | held =>
    rw [hedits.2, hedits.2]
    exact hl.writer t new ht hnew
  | probe | unknown => exact hedits.elim

theorem Leases.own_reader (hnew : script.reads e (readUntil t log) = some new) :
    h' t = some new ∨ h' t = none ∧ new ≤ clock := by
  cases script with
  | read =>
    cases hnew
    exact .inl (by rw [hedits.2, if_neg ht, if_pos rfl])
  | refresh =>
    obtain ⟨old, -, rfl⟩ := map_eq_some_iff.mp hnew
    exact .inl (by rw [hedits.2, if_neg ht, if_pos rfl])
  | save | release => cases hnew
  | held =>
    rw [hedits.2]
    exact hl.reader t new ht hnew
  | probe | unknown => exact hedits.elim

end

/-- **An answer of true keeps the leases.** -/
theorem Leases.edited (c : Call) (hc : c.tok ≠ lkWrite)
    (hedits : Edits c.script (c.time + c.ttl) c.tok h h') :
    Leases h' clock ((c, .ok true) :: log) where
  excl := hl.edited_excl hc hedits
  writer t e ht hu := by
    rw [writeUntil] at hu
    by_cases htok : c.tok = t
    · rw [if_pos htok] at hu
      subst htok
      exact hl.own_writer ht hedits hu
    · rw [if_neg htok] at hu
      rcases hl.writer t e ht hu with ⟨hheld, hwrite⟩ | ⟨hnone, hle⟩
      · refine absurd hedits (hl.no_edit hc ht (Ne.symm htok) ?_ ?_)
        · rw [hheld]; rfl
        · rw [hwrite]; rfl
      · exact .inr ⟨by rw [hedits.other (Ne.symm htok) ht, hnone], hle⟩
  reader t e ht hu := by
    rw [readUntil] at hu
    by_cases htok : c.tok = t
    · rw [if_pos htok] at hu
      subst htok
      exact hl.own_reader ht hedits hu
    · rw [if_neg htok] at hu
      rw [hedits.other (Ne.symm htok) ht]
      exact hl.reader t e ht hu

end

end Lease

/-! ### The calls -/

/-- The key is read as an array. -/
def Reads (cell : Option Rec) (m : List LkM) : Prop :=
  cell = none ∧ m = [] ∨ ∃ r, cell = some r ∧ r.rflags = fLock ∧ lkParse r.val = some m

theorem Reads.membersOf {cell : Option Rec} (h : Reads cell m) : membersOf cell = m := by
  rcases h with ⟨rfl, rfl⟩ | ⟨r, rfl, -, hparse⟩
  · rfl
  · simp only [Lock.membersOf, hparse, getD_some]

/-- What the end of a call leaves: the array in the key, or nothing where all is over; an error
changes nothing. -/
theorem slockStore_spec (c : Call) {cell : Option Rec} {m' : List LkM} {changed : Bool} (res : Bool)
    (hcell : Reads cell m) (hm : Members m) (hm' : Members m')
    (hkept : changed = false → ∀ u, expOf m' u = expOf m u) :
    let out := slockStore c.env cell.isSome m' changed res
    (∃ msg, out.1 = .error msg) ∧ out.2 = .keep ∨
      out.1 = .ok res ∧ (∀ val expires, out.2 = .store val expires → lkParse val = some m') ∧
        ∃ m'', Reads (c.apply cell out.2) m'' ∧ Members m'' ∧ ((∀ u, expOf m'' u = expOf m' u) ∨
            m'' = [] ∧ ∀ u e, expOf m' u = some e → e ≤ c.time) := by
  have hempty : m'.length = 0 → ∀ u, expOf [] u = expOf m' u := by
    intro hlen u
    rw [length_eq_zero_iff.mp hlen]
  have hnone : cell.isSome = false → cell = none := by simp
  have hparse := lkParse_lkBytes hm'.packed
  simp only [slockStore]
  split
  · -- the array is empty and the key goes
    rename_i hdrop
    exact .inr ⟨rfl, by simp, [], .inl ⟨rfl, rfl⟩, Members.nil, .inl (hempty hdrop.2.2)⟩
  · rename_i hdrop
    split
    · split
      · -- all is over
        rename_i hover
        have hgone : ∀ u e, expOf m' u = some e → e ≤ c.time := fun u e hu =>
          le_trans (le_latest (mem_of_expOf hu)) hover
        cases hsome : cell.isSome with
        | true => exact .inr ⟨rfl, by simp, [], .inl ⟨rfl, rfl⟩, Members.nil, .inr ⟨rfl, hgone⟩⟩
        | false =>
          exact .inr ⟨rfl, by simp, [], .inl ⟨hnone hsome, rfl⟩, Members.nil, .inr ⟨rfl, hgone⟩⟩
      · split
        · exact .inl ⟨⟨_, rfl⟩, rfl⟩
        · split
          · exact .inl ⟨⟨_, rfl⟩, rfl⟩
          · refine .inr ⟨rfl, fun val expires h => ?_, m', .inr ⟨_, rfl, rfl, hparse⟩, hm',
              .inl fun _ => rfl⟩
            cases h
            exact hparse
    · rename_i hstore
      cases hchanged : changed with
      | false => exact .inr ⟨rfl, by simp, m, hcell, hm, .inl fun u => (hkept hchanged u).symm⟩
      | true =>
        -- nothing to store for a key that is not there
        have hlen : m'.length = 0 := by
          by_contra hne
          exact hstore ⟨hchanged, Nat.pos_of_ne_zero hne⟩
        have habsent : cell.isSome = false := by
          by_contra hne
          exact hdrop ⟨hchanged, (not_eq_false _).mp hne, hlen⟩
        exact .inr ⟨rfl, by simp, [], .inl ⟨hnone habsent, rfl⟩, Members.nil, .inl (hempty hlen)⟩

/-- The array a legal call leaves. -/
def Call.edit (c : Call) (m : List LkM) : List LkM × Bool × Bool :=
  lkEdit c.script c.time (c.time + c.ttl) c.tok m

variable {s : World} {c : Call}

/-- **A legal call.** It fails and changes nothing, or it answers what the edit of the array answers
and the key is then read as the new array, or as none where all its members are over. -/
theorem exec_spec (hc : c.Legal s) (hcell : Reads s.cell m) (hm : Members m) :
    ((c.exec s.cell).1 ≠ .ok true ∨ c.script = .probe) ∧ (c.exec s.cell).2 = .keep ∨
      (c.exec s.cell).1 = .ok (c.edit m).2.2 ∧
        Outcome c.script (c.time + c.ttl) c.tok (expOf m) (trimmed c.script c.time (expOf m))
          (c.edit m) ∧
        (∀ val expires, (c.exec s.cell).2 = .store val expires → lkParse val = some (c.edit m).1) ∧
        ∃ m', Reads (c.apply s.cell (c.exec s.cell).2) m' ∧ Members m' ∧
          ((∀ u, expOf m' u = expOf (c.edit m).1 u) ∨
            m' = [] ∧ ∀ u e, expOf (c.edit m).1 u = some e → e ≤ c.time) := by
  obtain ⟨-, htok, hnow, hsum⟩ := hc
  have hnow' : (if c.nowArg ≥ 0 then c.nowArg.toNat else c.time) = c.time := by
    rcases hnow with hneg | heq
    · rw [if_neg (by omega)]
    · rw [heq]
      simp
  have hexp : (((c.time : Int) + (c.ttl : Int)) % 2 ^ 64).toNat = c.time + c.ttl := by omega
  simp only [Call.exec, slockLocal, show c.env.wall = c.time from rfl, hnow', hexp]
  split
  · exact .inl ⟨.inr ‹_›, rfl⟩
  split
  · exact .inl ⟨.inl (by simp), rfl⟩
  split
  · exact .inl ⟨.inl (by simp), rfl⟩
  rename_i hlen
  split
  · exact .inl ⟨.inl (by simp), rfl⟩
  have hout : Outcome c.script (c.time + c.ttl) c.tok (expOf m) (trimmed c.script c.time (expOf m))
      (c.edit m) := by
    refine lkEdit_outcome hm hsum ?_ htok
    simp only [lkTokMax] at hlen
    omega
  have hstore := slockStore_spec c (c.edit m).2.2 hcell hm hout.members hout.kept
  rcases hcell with ⟨hnone, rfl⟩ | ⟨r, hsome, hflags, hparse⟩
  · rw [hnone] at hstore ⊢
    simp only at hstore ⊢
    split
    · exact .inl ⟨.inl (by simp), rfl⟩
    · rcases hstore with ⟨⟨msg, herr⟩, hkeep⟩ | ⟨hok, hleft⟩
      · exact .inl ⟨.inl (fun h => by cases herr.symm.trans h), hkeep⟩
      · exact .inr ⟨hok, hout, hleft⟩
  · rw [hsome] at hstore ⊢
    simp only [hflags, hparse] at hstore ⊢
    rw [if_neg (by decide), if_neg (by decide)]
    split
    · exact .inl ⟨.inl (by simp), rfl⟩
    · rcases hstore with ⟨⟨msg, herr⟩, hkeep⟩ | ⟨hok, hleft⟩
      · exact .inl ⟨.inl (fun h => by cases herr.symm.trans h), hkeep⟩
      · exact .inr ⟨hok, hout, hleft⟩

/-- What holds after every run. -/
structure Inv (s : World) : Prop where
  cell : ∃ m, Reads s.cell m ∧ Members m
  leases : Leases (expOf (membersOf s.cell)) s.clock s.log

theorem Inv.init : Inv World.init where
  cell := ⟨[], .inl ⟨rfl, rfl⟩, Members.nil⟩
  leases := ⟨nofun, nofun, nofun⟩

theorem Inv.step {s' : World} (hI : Inv s) (hstep : s.step c = some s') : Inv s' := by
  rw [World.step, ite_none_right_eq_some, some.injEq] at hstep
  obtain ⟨hc, rfl⟩ := hstep
  obtain ⟨m, hcell, hm⟩ := hI.cell
  have hl : Leases (expOf m) c.time s.log := hcell.membersOf ▸ hI.leases.later hc.1
  rcases exec_spec hc hcell hm with ⟨hans, hkeep⟩ | ⟨hans, hout, -, m', hcell', hm', hleft⟩
  · -- nothing is changed, and no lease
    rw [hkeep]
    refine ⟨⟨m, hcell, hm⟩, ?_⟩
    rw [show membersOf (c.apply s.cell .keep) = m from hcell.membersOf]
    rcases hans with hans | hprobe
    · exact hl.unanswered c hans
    · exact hl.probed c hprobe _
  · refine ⟨⟨m', hcell', hm'⟩, ?_⟩
    rw [hcell'.membersOf]
    have hedit : Leases (expOf (c.edit m).1) c.time ((c, (c.exec s.cell).1) :: s.log) := by
      rw [hans]
      cases hres : (c.edit m).2.2 with
      | true => exact (hl.trimmed c.script).edited c hc.2.1 (hout.answered hres)
      | false =>
        rw [funext (hout.refused hres)]
        exact (hl.trimmed c.script).unanswered c (by simp)
    rcases hleft with hsame | ⟨rfl, hover⟩
    · rw [funext hsame]
      exact hedit
    · exact hedit.dropped hover

theorem Inv.run {cs : List Call} (hrun : Machine.run World.step World.init cs = some s) : Inv s :=
  Machine.run_invariant (fun _ _ _ hI _ hstep => hI.step hstep) Inv.init
    (Machine.along_true _ _ _) hrun

/-- A call that answers true edits the unexpired members, where its script trims. -/
theorem edits_of_answer (hc : c.Legal s) (hcell : Reads s.cell m) (hm : Members m)
    (hprobe : c.script ≠ .probe) (hans : (c.exec s.cell).1 = .ok true) :
    Edits c.script (c.time + c.ttl) c.tok (trimmed c.script c.time (expOf m))
      (expOf (c.edit m).1) := by
  rcases exec_spec hc hcell hm with ⟨hno, -⟩ | ⟨hres, hout, -⟩
  · exact absurd hno (by simp [hans, hprobe])
  · rw [hans, Except.ok.injEq] at hres
    exact hout.answered hres.symm

/-- A lease that is not over survives a trim. -/
theorem trimmed_of_lt {now : Nat} {h : Held} (hu : h u = some e) (hlt : now < e) :
    trimmed script now h u = some e := by
  rw [trimmed]
  split
  · rw [hu]
    exact filter_some_pos (decide_eq_true hlt)
  · exact hu

/-- **The lock scripts give exclusion.** After any run of legal calls on a key:

* no token is twice a member, and beside `__write__` there is exactly one other member, with the
  same expiry;
* a call for another token than one that holds the lock for writing, before that lease is over, does
  not answer true to SAVE or READ;
* nor to SAVE before another token's read lease is over;
* and `lk_parse` of what a call stores gives back the members it wrote. -/
theorem lock_scripts_exclude (cs : List Call) (s : World)
    (hrun : Machine.run World.step World.init cs = some s) :
    (((membersOf s.cell).map LkM.tok).Nodup ∧
      ∀ w ∈ membersOf s.cell, w.tok = lkWrite →
        ∃ x ∈ membersOf s.cell, x.tok ≠ lkWrite ∧ x.exp = w.exp ∧
          ∀ y ∈ membersOf s.cell, y = x ∨ y = w) ∧
    ∀ c : Call, c.Legal s →
      (∀ t e, t ≠ lkWrite → t ≠ c.tok → writeUntil t s.log = some e → c.time < e →
        c.script = .save ∨ c.script = .read → (c.exec s.cell).1 ≠ .ok true) ∧
      (∀ t e, t ≠ lkWrite → t ≠ c.tok → readUntil t s.log = some e → c.time < e →
        c.script = .save → (c.exec s.cell).1 ≠ .ok true) ∧
      ∀ val expires, (c.exec s.cell).2 = .store val expires →
        lkParse val = some (c.edit (membersOf s.cell)).1 := by
  have hI := Inv.run hrun
  obtain ⟨m, hcell, hm⟩ := hI.cell
  have hl := hI.leases
  rw [hcell.membersOf] at hl ⊢
  refine ⟨⟨hm.nodup, fun w hw hwt => ?_⟩, fun c hc => ⟨?_, ?_, ?_⟩⟩
  · obtain ⟨t, ht, hexp, hothers⟩ := hl.excl w.exp (hwt ▸ expOf_of_mem hm hw)
    have hx := mem_of_expOf hexp
    refine ⟨_, hx, ht, rfl, fun y hy => ?_⟩
    by_cases hyt : y.tok = t
    · exact .inl (inj_on_of_nodup_map hm.nodup hy hx hyt)
    · refine .inr (inj_on_of_nodup_map hm.nodup hy hw ?_)
      by_contra hyw
      have hnone := hothers y.tok hyt (fun h => hyw (h.trans hwt.symm))
      rw [expOf_of_mem hm hy] at hnone
      cases hnone
  · intro t e ht hne hlease hlt hscript hans
    have hedits := edits_of_answer hc hcell hm (by rcases hscript with h | h <;> simp [h]) hans
    have hl' := (hl.later hc.1).trimmed c.script
    rcases hl.writer t e ht hlease with ⟨hheld, hwrite⟩ | ⟨-, hle⟩
    · refine hl'.no_edit hc.2.1 ht hne ?_ ?_ hedits
      · rw [trimmed_of_lt hheld hlt]; rfl
      · rw [trimmed_of_lt hwrite hlt]; rfl
    · have hmono := hc.1
      omega
  · intro t e ht hne hlease hlt hscript hans
    have hedits := edits_of_answer hc hcell hm (by simp [hscript]) hans
    have hl' := (hl.later hc.1).trimmed c.script
    rcases hl.reader t e ht hlease with hheld | ⟨-, hle⟩
    · rw [hscript] at hedits hl'
      have hnone := hl'.save_alone hc.2.1 hedits hne ht
      rw [trimmed_of_lt hheld hlt] at hnone
      cases hnone
    · have hmono := hc.1
      omega
  · intro val expires hstore
    rcases exec_spec hc hcell hm with ⟨-, hkeep⟩ | ⟨-, -, hparse, -⟩
    · rw [hkeep] at hstore
      cases hstore
    · exact hparse val expires hstore

def call (time : Nat) (script : Script) (tok : String) (ttl : Nat) : Call :=
  ⟨time, script, chars tok, ttl, -1, 0, 0, false, false, false⟩

/-- A writer of one second, and another client that comes a little earlier than that. -/
theorem lock_scripts_exclude_writer :
    ∃ s, Machine.run World.step World.init [call 5 .save "a" 1000] = some s ∧
      writeUntil (chars "a") s.log = some 1005 ∧
      ((call 1004 .save "b" 1000).exec s.cell).1 ≠ .ok true := by
  refine ⟨_, rfl, by decide, ?_⟩
  exact ((lock_scripts_exclude [call 5 .save "a" 1000] _ rfl).2 (call 1004 .save "b" 1000)
    (by decide)).1 (chars "a") 1005 (by decide) (by decide) (by decide) (by decide) (.inl rfl)

end Perfcached.Lock
