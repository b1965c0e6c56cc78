import Mathlib.Tactic.Common

/-!
# Perfcached.Lib.Framing

Reading frames from a stream that arrives in pieces.

A framer looks at the bytes that are there and says to wait for more, to refuse the stream, or
which frame is in front and how long it is. The reader hands each frame on, drops it from its
buffer and looks again. Where the framer is stable (a verdict on some bytes is its verdict on those
bytes with more behind them), what the reader does depends on the stream only and not on the pieces
(`feedAll_eq`). The predicate `Good` on the rest of the stream leaves room for a framer that is
stable on some streams only.
-/

namespace Perfcached.Framing

open List

universe u v w

inductive Verdict (α : Type v) where
  | wait
  | refuse
  | frame (a : α) (n : Nat)
  deriving DecidableEq

/-- The frame is passed through `f`. -/
def Verdict.map {α : Type v} {γ : Type w} (f : α → γ) : Verdict α → Verdict γ
  | .wait => .wait
  | .refuse => .refuse
  | .frame a n => .frame (f a) n

/-- A reader: the state behind it, how much of the stream it has passed, what it holds, and whether
it has given up. -/
structure Reader (σ : Type w) (β : Type u) where
  st : σ
  passed : Nat
  buf : List β
  refused : Bool

variable {α : Type v} {β : Type u} {σ : Type w}

def Reader.start (st : σ) : Reader σ β := ⟨st, 0, [], false⟩

/-- More bytes in the buffer. -/
def Reader.more (r : Reader σ β) (q : List β) : Reader σ β := { r with buf := r.buf ++ q }

def Reader.seen (r : Reader σ β) : σ × Nat × Bool := (r.st, r.passed, r.refused)

section

variable (look : List β → Verdict α) (act : σ → α → σ × Bool)

/-- Frames are handed on for as long as there are any. A frame takes a byte at least, so that the
length of the buffer is fuel enough. -/
def drain : Nat → Reader σ β → Reader σ β
  | 0, r => r
  | n + 1, r =>
    if r.buf.isEmpty then r
    else
      match look r.buf with
      | .wait => r
      | .refuse => { r with refused := true }
      | .frame a k =>
        match act r.st a with
        | (st, false) => { r with st := st, refused := true }
        | (st, true) => drain n ⟨st, r.passed + k, r.buf.drop k, false⟩

/-- A piece of the stream arrives. -/
def feed (r : Reader σ β) (q : List β) : Reader σ β :=
  if r.refused then r else drain look act (r.buf ++ q).length (r.more q)

/-- The whole stream, piece by piece. -/
def feedAll (r : Reader σ β) (qs : List (List β)) : Reader σ β := qs.foldl (feed look act) r

/-- A reader that has not given up and what draining it ends with. -/
inductive Drains : Reader σ β → Reader σ β → Prop
  | idle {r} : r.refused = false → (r.buf = [] ∨ look r.buf = .wait) → Drains r r
  | refuse {r} : r.refused = false → r.buf ≠ [] → look r.buf = .refuse →
      Drains r { r with refused := true }
  | stop {r a k st} : r.refused = false → r.buf ≠ [] → look r.buf = .frame a k →
      act r.st a = (st, false) → Drains r { r with st := st, refused := true }
  | next {r r' a k st} : r.refused = false → r.buf ≠ [] → look r.buf = .frame a k →
      act r.st a = (st, true) → Drains ⟨st, r.passed + k, r.buf.drop k, false⟩ r' → Drains r r'

/-- A frame is never empty, and never longer than what is there. -/
def Bounded : Prop := ∀ p a k, look p = .frame a k → 0 < k ∧ k ≤ p.length

/-- On the streams that are good, a verdict stands when more arrives, and what follows a frame is
good again. -/
structure Stable (Good : List β → Prop) : Prop where
  frame : ∀ p q a k, p ≠ [] → look p = .frame a k → look (p ++ q) = .frame a k
  refuse : ∀ p q, p ≠ [] → Good (p ++ q) → look p = .refuse → look (p ++ q) = .refuse
  rest : ∀ s a k, Good s → look s = .frame a k → Good (s.drop k)

variable {look act}

variable {r : Reader σ β}

theorem drains_drain (hb : Bounded look) {n : Nat} (hr : r.refused = false)
    (hn : r.buf.length ≤ n) : Drains look act r (drain look act n r) := by
  induction n generalizing r with
  | zero => exact .idle hr (.inl (length_eq_zero_iff.mp (by omega)))
  | succ n ih =>
    rw [drain]
    by_cases hbuf : r.buf = []
    · rw [if_pos (by simp [hbuf])]
      exact .idle hr (.inl hbuf)
    rw [if_neg (by simp [hbuf])]
    cases hlook : look r.buf with
    | wait => exact .idle hr (.inr hlook)
    | refuse => exact .refuse hr hbuf hlook
    | frame a k =>
      rcases hact : act r.st a with ⟨st, go⟩
      simp only [hact]
      cases go with
      | false => exact .stop hr hbuf hlook hact
      | true =>
        obtain ⟨hpos, hle⟩ := hb _ _ _ hlook
        refine .next hr hbuf hlook hact (ih rfl ?_)
        simp only [length_drop]
        omega

theorem drains_feed (act : σ → α → σ × Bool) (hb : Bounded look) (hr : r.refused = false)
    (q : List β) : Drains look act (r.more q) (feed look act r q) := by
  rw [feed, if_neg (by simp [hr])]
  exact drains_drain hb hr (Nat.le_refl _)

theorem Drains.det {r₁ r₂ : Reader σ β} (h₁ : Drains look act r r₁) (h₂ : Drains look act r r₂) :
    r₁ = r₂ := by
  induction h₁ with
  | idle hr hidle =>
    cases h₂ with
    | idle => rfl
    | refuse | stop | next => simp_all
  | refuse hr hne hlook =>
    cases h₂ with
    | idle _ hidle => simp_all
    | refuse => rfl
    | stop | next => simp_all
  | stop hr hne hlook hact =>
    cases h₂ with
    | idle | refuse => simp_all
    | stop _ _ hlook' hact' =>
      rw [hlook] at hlook'
      cases hlook'
      rw [hact] at hact'
      cases hact'
      rfl
    | next _ _ hlook' hact' =>
      rw [hlook] at hlook'
      cases hlook'
      rw [hact] at hact'
      cases hact'
  | next hr hne hlook hact _ ih =>
    cases h₂ with
    | idle | refuse => simp_all
    | stop _ _ hlook' hact' =>
      rw [hlook] at hlook'
      cases hlook'
      rw [hact] at hact'
      cases hact'
    | next _ _ hlook' hact' hrest =>
      rw [hlook] at hlook'
      cases hlook'
      rw [hact] at hact'
      cases hact'
      exact ih hrest

variable {r' : Reader σ β}

/-- A reader that has drained and not given up would drain to itself. -/
theorem Drains.settled (h : Drains look act r r') (hr : r'.refused = false) :
    Drains look act r' r' := by
  induction h with
  | idle hr' hidle => exact .idle hr' hidle
  | refuse | stop => cases hr
  | next _ _ _ _ _ ih => exact ih hr

variable {Good : List β → Prop}

section

variable (hb : Bounded look) (hs : Stable look Good)
include hb hs

/-- A reader that gives up on its bytes gives up at the same place with more behind them. -/
theorem Drains.more_refused (h : Drains look act r r') (q : List β) (hgood : Good (r.buf ++ q))
    (hr : r'.refused = true) : ∃ r'', Drains look act (r.more q) r'' ∧ r''.seen = r'.seen := by
  induction h with
  | idle hr' _ => simp_all
  | @refuse r hr' hne hlook =>
    exact ⟨_, .refuse hr' (by simp [Reader.more, hne]) (hs.refuse _ _ hne hgood hlook), rfl⟩
  | @stop r a k st hr' hne hlook hact =>
    exact ⟨_, .stop hr' (by simp [Reader.more, hne]) (hs.frame _ _ _ _ hne hlook) hact, rfl⟩
  | @next r r' a k st hr' hne hlook hact _ ih =>
    have hle := (hb _ _ _ hlook).2
    have hlook' := hs.frame _ q _ _ hne hlook
    have hgood' : Good (r.buf.drop k ++ q) := by
      have := hs.rest _ _ _ hgood hlook'
      rwa [drop_append_of_le_length hle] at this
    obtain ⟨r'', hd, hseen⟩ := ih hgood' hr
    refine ⟨r'', .next hr' (by simp [Reader.more, hne]) hlook' hact ?_, hseen⟩
    simpa only [Reader.more, drop_append_of_le_length hle] using hd

/-- A reader that waits goes on from where it is when more arrives. -/
theorem Drains.more_waiting {r'' : Reader σ β} (h : Drains look act r r') (q : List β)
    (hr : r'.refused = false) (h' : Drains look act (r'.more q) r'') :
    Drains look act (r.more q) r'' := by
  induction h with
  | idle => exact h'
  | refuse | stop => cases hr
  | @next r r' a k st hr' hne hlook hact _ ih =>
    have hle := (hb _ _ _ hlook).2
    refine .next hr' (by simp [Reader.more, hne]) (hs.frame _ q _ _ hne hlook) hact ?_
    simpa only [Reader.more, drop_append_of_le_length hle] using ih hr h'

/-- The rest of a good stream is good once the reader has drained what is there. -/
theorem Drains.good (h : Drains look act r r') (q : List β) (hgood : Good (r.buf ++ q)) :
    Good (r'.buf ++ q) := by
  induction h with
  | idle | refuse | stop => exact hgood
  | @next r r' a k st hr' hne hlook hact _ ih =>
    refine ih ?_
    have := hs.rest _ _ _ hgood (hs.frame _ q _ _ hne hlook)
    rwa [drop_append_of_le_length (hb _ _ _ hlook).2] at this

end

theorem feedAll_refused (hr : r.refused = true) (qs : List (List β)) :
    feedAll look act r qs = r := by
  induction qs with
  | nil => rfl
  | cons q qs ih =>
    have hfeed : feed look act r q = r := by rw [feed, if_pos hr]
    rw [feedAll, foldl_cons, hfeed]
    exact ih

/-- From a reader that waits, the pieces of a good stream give what the stream gives at once. -/
theorem feedAll_eq_feed (hb : Bounded look) (hs : Stable look Good) (qs : List (List β))
    (hr : Drains look act r r) (hrefused : r.refused = false) (hgood : Good (r.buf ++ qs.flatten)) :
    (feedAll look act r qs).seen = (feed look act r qs.flatten).seen := by
  induction qs generalizing r with
  | nil =>
    have h := drains_feed act hb hrefused []
    have hmore : r.more [] = r := by simp [Reader.more]
    rw [hmore] at h
    rw [flatten_nil, h.det hr]
    rfl
  | cons q qs ih =>
    have hfirst := drains_feed act hb hrefused q
    have hwhole := drains_feed act hb hrefused (q ++ qs.flatten)
    have hmore : (r.more q).more qs.flatten = r.more (q ++ qs.flatten) := by simp [Reader.more]
    rw [flatten_cons, ← append_assoc] at hgood
    rw [flatten_cons, feedAll, foldl_cons]
    change (feedAll look act (feed look act r q) qs).seen = _
    cases hgave : (feed look act r q).refused with
    | true =>
      obtain ⟨r'', hd, hseen⟩ := hfirst.more_refused hb hs qs.flatten hgood hgave
      rw [hmore] at hd
      rw [feedAll_refused hgave, hwhole.det hd, hseen]
    | false =>
      rw [ih (hfirst.settled hgave) hgave (hfirst.good hb hs _ hgood)]
      have hd := hfirst.more_waiting hb hs qs.flatten hgave (drains_feed act hb hgave _)
      rw [hmore] at hd
      rw [hwhole.det hd]

/-- **The pieces do not matter.** A reader that starts on a good stream sees the same, and gives up
at the same place, however the stream is cut. -/
theorem feedAll_eq (hb : Bounded look) (hs : Stable look Good) (st : σ) (qs : List (List β))
    (hgood : Good qs.flatten) :
    (feedAll look act (.start st) qs).seen = (feed look act (.start st) qs.flatten).seen :=
  feedAll_eq_feed hb hs qs (.idle rfl (.inl rfl)) rfl (by simpa [Reader.start] using hgood)

end

end Perfcached.Framing
