import Mathlib
import Perfcached.Lib.Circular
import Perfcached.Lib.Machine

/-!
# Perfcached.Pending.Queue

The completion queues (`src/clpend.c`).

The answer to a parked request is posted to the queue of the worker that parked it: a ring of as
many entries as the table of parked requests has slots, with two ints that only grow. While fewer
than `2 ^ 31` completions were accepted in the life of the process it is a bounded queue that gives
out what it accepted in order (`completions_in_order`). After that `tail` is negative, and so is the
remainder that is taken for an index (`post_outside_array`).
-/

namespace Perfcached.Pending

open Machine Circular List Option

variable {α : Type}

def pendDefault : Int := 8192

/-- `PEND_LIMIT`: the slot's index rides in 16 bits of the handle. -/
def pendLimit : Int := 2 ^ 16

def pendMin : Int := 64

/-- `clpend_init`: how many slots there are. -/
def clpendInit (cap : Int) : Nat :=
  let cap := if cap ≤ 0 then pendDefault else cap
  let cap := if pendLimit < cap then pendLimit else cap
  let cap := if cap < pendMin then pendMin else cap
  cap.toNat

theorem clpendInit_bounds (asked : Int) : 64 ≤ clpendInit asked ∧ clpendInit asked ≤ 2 ^ 16 := by
  simp only [clpendInit, pendDefault, pendLimit, pendMin]
  omega

/-- What an `int` holds: 32 bits. -/
def int32 (x : Int) : Int := x.bmod (2 ^ 32)

variable {n : Nat}

theorem int32_of_nat (h : n < 2 ^ 31) : int32 n = n :=
  Int.bmod_eq_of_le (by omega) (by omega)

theorem int32_succ (h : n + 1 < 2 ^ 31) : int32 ((n : Int) + 1) = (n + 1 : Nat) := by
  rw [← Int.natCast_succ, int32_of_nat h]

/-- Past the greatest `int` comes the least. -/
theorem int32_wrap : int32 (2 ^ 31 : Nat) = -2 ^ 31 := by decide

/-- `struct cqueue`. -/
structure Cqueue (α : Type) where
  q : Nat → α
  head : Int
  tail : Int

/-- `x % cap` as an index, if the array has it. -/
def index (cap : Nat) (x : Int) : Option Nat :=
  if 0 ≤ x.tmod cap ∧ x.tmod cap < cap then some (x.tmod cap).toNat else none

variable {cap : Nat}

theorem index_of_nat (hcap : 0 < cap) (n : Nat) : index cap n = some (n % cap) := by
  have hlt := Nat.mod_lt n hcap
  rw [index, ← Int.ofNat_tmod, if_pos ⟨by omega, by omega⟩]
  rfl

/-- `clpend_cq_post` under the queue's lock, and whether there was room; none where it would write
outside of the array. -/
def clpendCqPost (cap : Nat) (q : Cqueue α) (d : α) : Option (Cqueue α × Bool) :=
  if int32 (q.tail - q.head) < cap then
    (index cap q.tail).map fun i =>
      (⟨fun j => if j = i then d else q.q j, q.head, int32 (q.tail + 1)⟩, true)
  else some (q, false)

/-- `clpend_cq_drain` under the queue's lock, with room for so many more; none where it would read
outside of the array. -/
def clpendCqDrain (cap : Nat) : Nat → Cqueue α → Option (Cqueue α × List α)
  | 0, q => some (q, [])
  | max + 1, q =>
    if q.head = q.tail then some (q, [])
    else
      (index cap q.head).bind fun i =>
        (clpendCqDrain cap max { q with head := int32 (q.head + 1) }).map fun r =>
          (r.1, q.q i :: r.2)

/-! ### The ring -/

/-- `waiting` stands in the ring, after so many that were drained. -/
structure Ring (cap : Nat) (q : Cqueue α) (drained : Nat) (waiting : List α) : Prop where
  head : q.head = drained
  tail : q.tail = (drained + waiting.length : Nat)
  stands : circRead cap q.q drained waiting.length = waiting
  room : waiting.length ≤ cap
  young : drained + waiting.length < 2 ^ 31

variable {cap n : Nat} {q : Cqueue α} {waiting : List α}

/-- The difference of the ints is what waits. -/
theorem Ring.load (h : Ring cap q n waiting) : int32 (q.tail - q.head) = waiting.length := by
  have hyoung := h.young
  rw [h.tail, h.head, show ((n + waiting.length : Nat) : Int) - n = waiting.length by omega]
  exact int32_of_nat (by omega)

theorem Ring.post_full (h : Ring cap q n waiting) (hfull : ¬ waiting.length < cap) (d : α) :
    clpendCqPost cap q d = some (q, false) := by
  rw [clpendCqPost, h.load, if_neg (by omega)]

theorem Ring.post (hcap : 0 < cap) (h : Ring cap q n waiting) (hroom : waiting.length < cap)
    (hyoung : n + waiting.length + 1 < 2 ^ 31) (d : α) :
    ∃ q', clpendCqPost cap q d = some (q', true) ∧ Ring cap q' n (waiting ++ [d]) := by
  rw [clpendCqPost, h.load, if_pos (by omega), h.tail, index_of_nat hcap]
  refine ⟨_, rfl, h.head, ?_, ?_, ?_, ?_⟩
  · rw [length_append, length_singleton, ← Nat.add_assoc]
    rw [int32_succ hyoung]
  · -- the entry written is the one after those that wait
    rw [← circWrite_singleton q.q _ hcap, length_append, circRead_add,
      circRead_circWrite_of_disjoint _ le_rfl (by simpa using by omega), h.stands]
    exact congrArg (waiting ++ ·) (circRead_circWrite _ _ (hcap : [d].length ≤ cap))
  · simpa using Nat.succ_le_of_lt hroom
  · simpa [Nat.add_assoc] using hyoung

/-- A drain gives out the first of what waits, as many as it has room for. -/
theorem Ring.drain (hcap : 0 < cap) (max : Nat) (h : Ring cap q n waiting) :
    ∃ q', clpendCqDrain cap max q = some (q', waiting.take max) ∧
      Ring cap q' (n + (waiting.take max).length) (waiting.drop max) := by
  induction max generalizing q n waiting with
  | zero => exact ⟨q, rfl, h⟩
  | succ max ih =>
    cases waiting with
    | nil =>
      refine ⟨q, ?_, h⟩
      rw [clpendCqDrain, if_pos (by rw [h.head, h.tail]; rfl), take_nil]
    | cons d waiting =>
      have hyoung := h.young
      have hroom := h.room
      rw [length_cons] at hyoung hroom
      have hne : q.head ≠ q.tail := by
        rw [h.head, h.tail, length_cons]
        omega
      have hread := h.stands
      rw [length_cons, Nat.add_comm, circRead_add] at hread
      obtain ⟨hd, hrest⟩ := cons.inj hread
      have hnext : Ring cap { q with head := int32 (q.head + 1) } (n + 1) waiting := by
        refine ⟨?_, ?_, hrest, by omega, by omega⟩
        · rw [h.head, int32_succ (by omega)]
        · rw [h.tail, length_cons]
          congr 1
          omega
      obtain ⟨q', hdrain, hring⟩ := ih hnext
      refine ⟨q', ?_, ?_⟩
      · rw [clpendCqDrain, if_neg hne, h.head, index_of_nat hcap, bind_some, ← h.head, hdrain]
        exact congrArg (fun x => some (q', x :: waiting.take max)) hd
      · rwa [take_succ_cons, length_cons, Nat.add_comm (waiting.take max).length, ← Nat.add_assoc]

/-! ### The queue of one worker -/

/-- A queue, with what it accepted and what was drained from it. -/
structure CqRun (α : Type) where
  queue : Cqueue α
  accepted : List α
  drained : List α

/-- `clpend_cq_register`: an array of zeroed entries. -/
def CqRun.new (zero : α) : CqRun α := ⟨⟨fun _ => zero, 0, 0⟩, [], []⟩

inductive CqAct (α : Type)
  | post (d : α)
  | drain (max : Int)

def cqStep (cap : Nat) (s : CqRun α) : CqAct α → Option (CqRun α)
  | .post d =>
    (clpendCqPost cap s.queue d).map fun r =>
      { s with queue := r.1, accepted := if r.2 then s.accepted ++ [d] else s.accepted }
  | .drain max =>
    (clpendCqDrain cap max.toNat s.queue).map fun r =>
      { s with queue := r.1, drained := s.drained ++ r.2 }

/-- A post is one of the first `2 ^ 31 - 1` that the queue accepts. -/
def Young (s : CqRun α) : CqAct α → Prop
  | .post _ => s.accepted.length < 2 ^ 31 - 1
  | .drain _ => True

/-- What was accepted was drained, or stands in the ring. -/
def CqRun.Inv (cap : Nat) (s : CqRun α) : Prop :=
  ∃ waiting, s.accepted = s.drained ++ waiting ∧ Ring cap s.queue s.drained.length waiting

theorem CqRun.new_inv (cap : Nat) (zero : α) : (CqRun.new zero).Inv cap :=
  ⟨[], rfl, rfl, rfl, rfl, Nat.zero_le _, Nat.two_pow_pos 31⟩

theorem CqRun.Inv.step (hcap : 0 < cap) {s : CqRun α} (h : s.Inv cap) {a : CqAct α}
    (hok : Young s a) : ∃ s', cqStep cap s a = some s' ∧ s'.Inv cap := by
  obtain ⟨waiting, hacc, hring⟩ := h
  cases a with
  | post d =>
    by_cases hroom : waiting.length < cap
    · simp only [Young, hacc, length_append] at hok
      obtain ⟨q', hpost, hring'⟩ := hring.post hcap hroom (by omega) d
      refine ⟨_, by rw [cqStep, hpost]; rfl, waiting ++ [d], ?_, hring'⟩
      simp only [if_true, hacc, append_assoc]
    · exact ⟨_, by rw [cqStep, hring.post_full hroom]; rfl, waiting, hacc, hring⟩
  | drain max =>
    obtain ⟨q', hdrain, hring'⟩ := hring.drain hcap max.toNat
    refine ⟨_, by rw [cqStep, hdrain]; rfl, waiting.drop max.toNat, ?_, ?_⟩
    · simp only [hacc, append_assoc, take_append_drop]
    · rwa [length_append]

/-- **Completion queues stay in bounds while they are young.** For every capacity that
`clpend_init` chooses and every run of posts and drains in which a post is made only while fewer
than `2 ^ 31 - 1` were accepted: no access is outside of the array; what was accepted is what was
drained and, after it, what waits; a drain gives out the first of what waits, as many as it is
asked for; and a post is refused only where as many wait as the queue has entries. -/
theorem completions_in_order (asked : Int) (zero : α) {acts : List (CqAct α)}
    (hyoung : Along (cqStep (clpendInit asked)) Young (.new zero) acts) :
    ∃ s waiting, run (cqStep (clpendInit asked)) (.new zero) acts = some s ∧
      s.accepted = s.drained ++ waiting ∧
      (∀ max, ∃ q, clpendCqDrain (clpendInit asked) max s.queue = some (q, waiting.take max)) ∧
      ∀ d q, clpendCqPost (clpendInit asked) s.queue d = some (q, false) →
        waiting.length = clpendInit asked := by
  have hcap : 0 < clpendInit asked := by have := clpendInit_bounds asked; omega
  obtain ⟨s, hrun, waiting, hacc, hring⟩ := run_total (I := CqRun.Inv (clpendInit asked))
    (fun _ _ h hok => h.step hcap hok) (CqRun.new_inv _ zero) hyoung
  refine ⟨s, waiting, hrun, hacc, fun max => ?_, fun d q hpost => ?_⟩
  · obtain ⟨q, hdrain, -⟩ := hring.drain hcap max
    exact ⟨q, hdrain⟩
  · by_contra hne
    have hroom := hring.room
    rw [clpendCqPost, hring.load, if_pos (by omega)] at hpost
    cases hi : index (clpendInit asked) s.queue.tail <;> simp [hi] at hpost

/-- Two posts and a drain of one: the first is out, and the next drain gives out the second. -/
theorem completions_in_order_three :
    ∃ s, run (cqStep (clpendInit 64)) (.new 0) [.post 7, .post 8, .drain 1] = some s ∧
      s.accepted = [7, 8] ∧ s.drained = [7] ∧
      ∃ q, clpendCqDrain (clpendInit 64) 5 s.queue = some (q, [8]) := by
  obtain ⟨s, waiting, hrun, hacc, hdrain, -⟩ := @completions_in_order Nat 64 0
    [.post 7, .post 8, .drain 1]
    ⟨Nat.lt_of_sub_eq_succ rfl, Nat.lt_of_sub_eq_succ rfl, trivial, trivial⟩
  cases hrun
  cases hacc
  exact ⟨_, rfl, rfl, rfl, hdrain 5⟩

/-! ### After `2 ^ 31` posts -/

/-- A completion is posted and drained, so many times. -/
def postAndDrain (d : α) : Nat → List (CqAct α)
  | 0 => []
  | n + 1 => postAndDrain d n ++ [.post d, .drain 1]

/-- A post to an empty queue, and the drain of it. -/
theorem step_postAndDrain {w : Int} (hcap : 0 < cap) (d : α) {s : CqRun α}
    (hw : int32 (n + 1 : Nat) = w) (hne : (n : Int) ≠ w) (hload : int32 0 < cap)
    (hhead : s.queue.head = n) (htail : s.queue.tail = n) :
    ∃ s', run (cqStep cap) s [.post d, .drain 1] = some s' ∧
      s'.queue.head = w ∧ s'.queue.tail = w := by
  rw [Int.natCast_succ] at hw
  have hpost : clpendCqPost cap s.queue d =
      some (⟨fun j => if j = n % cap then d else s.queue.q j, n, w⟩, true) := by
    rw [clpendCqPost, htail, hhead, Int.sub_self, if_pos hload, index_of_nat hcap, hw, map_some]
  have hdrain : ∀ f : Nat → α, clpendCqDrain cap 1 ⟨f, n, w⟩ = some (⟨f, w, w⟩, [f (n % cap)]) := by
    intro f
    rw [clpendCqDrain, if_neg hne, index_of_nat hcap, hw]
    rfl
  simp only [run, cqStep, hpost, map_some, bind_some, Int.toNat_one, hdrain,
    some.injEq, exists_eq_left', and_self]

theorem run_postAndDrain (hcap : 0 < cap) (zero d : α) (hn : n ≤ 2 ^ 31) :
    ∃ s, run (cqStep cap) (.new zero) (postAndDrain d n) = some s ∧
      s.queue.head = int32 n ∧ s.queue.tail = int32 n := by
  have hzero : int32 (0 : Nat) = (0 : Nat) := int32_of_nat (Nat.two_pow_pos 31)
  induction n with
  | zero =>
    rw [hzero]
    exact ⟨_, rfl, rfl, rfl⟩
  | succ n ih =>
    obtain ⟨s, hrun, hhead, htail⟩ := ih (by omega)
    rw [int32_of_nat (by omega)] at hhead htail
    have hne : (n : Int) ≠ int32 (n + 1 : Nat) := by
      rcases Nat.lt_or_eq_of_le hn with hlt | heq
      · rw [int32_of_nat hlt]
        omega
      · rw [heq, int32_wrap]
        omega
    obtain ⟨s', hs', hboth⟩ := step_postAndDrain hcap d rfl hne
      (hzero.symm ▸ Int.ofNat_lt.mpr hcap) hhead htail
    exact ⟨s', run_trans hrun hs', hboth⟩

/-- **After `2 ^ 31` posts, all drained, the second next is outside of the array.** With the
default capacity. -/
theorem post_outside_array :
    ∃ s, run (cqStep (clpendInit 0)) (.new 0) (postAndDrain 0 (2 ^ 31) ++ [.post 0]) = some s ∧
      cqStep (clpendInit 0) s (.post 0) = none := by
  obtain ⟨s, hrun, hhead, htail⟩ :=
    run_postAndDrain (by decide : 0 < clpendInit 0) 0 0 (le_refl (2 ^ 31))
  rw [int32_wrap] at hhead htail
  obtain ⟨s', hs', hnone⟩ : ∃ s', run (cqStep (clpendInit 0)) s [.post 0] = some s' ∧
      cqStep (clpendInit 0) s' (.post 0) = none := by
    have hfirst : index (clpendInit 0) (-2 ^ 31) = some 0 := by decide
    have hsecond : index (clpendInit 0) (int32 (-2 ^ 31 + 1)) = none := by decide
    have hroom : int32 (-2 ^ 31 - -2 ^ 31) < clpendInit 0 := by decide
    have hroom' : int32 (int32 (-2 ^ 31 + 1) - -2 ^ 31) < clpendInit 0 := by decide
    simp only [run, cqStep, clpendCqPost, hhead, htail, hfirst, hroom, if_true, map_some,
      bind_some, some.injEq, exists_eq_left', hsecond, hroom', map_none]
  exact ⟨s', run_trans hrun hs', hnone⟩

end Perfcached.Pending
