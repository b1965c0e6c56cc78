import Perfcached.Lock.Slock

/-!
# Perfcached.Lock.KeyExpiry

The expiry of a lock's key against those of its members (`src/verbs.c`).

The members expire by a millisecond clock. The key expires by the tick counter, whole seconds since
the start as a 32-bit number (`src/compat/compat.c`): its expiry is the tick now plus the time that
is left, rounded up to seconds. The tick now began up to a second ago, so the rounding up of the
time left may be less than what the counter is behind.
-/

namespace Perfcached.Lock

open Bytes List Option

/-- `get_ticks` at millisecond `t`: the counter started at some time before, and went up at its own
whole seconds. -/
def ticksAt (φ t : Nat) : Nat := (t + φ) / 1000 % 2 ^ 32

/-- What the table answers for the key: a record past its expiry is not there. -/
def fetch (ticks : Nat) (cell : Option Rec) : Option Rec := cell.filter fun r => !r.expired ticks

/-! ### What a script leaves fits the record -/

/-- The array a script leaves fits the record if the one it was given does. -/
theorem packed_lkEdit {script : Script} {now e : Nat} {t : List Byte} {m : List LkM}
    (hm : Packed m) (he : e < 2 ^ 64) (ht : t.length < 2 ^ 16) :
    Packed (lkEdit script now e t m).1 := by
  have hstart : Packed (if script.trims then lkTrim m now else (m, false)).1 := by
    split
    · exact packed_lkTrim hm now
    · exact hm
  rw [lkEdit]
  generalize (if script.trims = true then lkTrim m now else (m, false)) = s at hstart
  obtain ⟨m₀, changed⟩ := s
  cases script with
  | save =>
    simp only
    by_cases hbusy : (if (lkFind m₀ t).isSome = true then
        (lkFind m₀ lkWrite).isNone = true ∧ m₀.length > 1 else m₀.length > 0)
    · rw [if_pos hbusy]
      exact hstart
    · rw [if_neg hbusy]
      cases h₁ : lkSet m₀ t e with
      | none => exact hstart
      | some m₁ =>
        have hm₁ := packed_lkSet hstart he ht h₁
        simp only
        cases h₂ : lkSet m₁ lkWrite e with
        | none => exact hm₁
        | some m₂ => exact packed_lkSet hm₁ he (by decide) h₂
  | read =>
    simp only
    split
    · exact hstart
    · cases h₁ : lkSet m₀ t e with
      | none => exact hstart
      | some m₁ => exact packed_lkRem (packed_lkSet hstart he ht h₁)
  | refresh =>
    simp only
    split
    · exact hstart
    · split
      · exact packed_update (packed_update hstart he) he
      · exact packed_update hstart he
  | release =>
    simp only
    split
    · exact hstart
    · exact packed_lkRem (packed_lkRem hstart)
  | held | probe | unknown => exact hstart

/-! ### The seconds left -/

/-- The deadline of `c` seconds, the counter at `T`. -/
theorem ttlToAbs_eq (T : Nat) {c : Nat} (hc : 0 < c) :
    ttlToAbs T (c : Int) = (T + c % 2 ^ 32) % 2 ^ 32 := by
  rw [ttlToAbs, if_neg (by omega), Int.toNat_natCast]

/-- The deadline of `c` seconds is not reached while the counter goes up by at most `K` iff it is
the greater, as far as the counter can hold it. -/
theorem deadline_ticks {T c K : Nat} (hT : T < 2 ^ 32) (hK : c ≤ K + 1) :
    (∀ j, j ≤ K → (T + j) % 2 ^ 32 < (T + c % 2 ^ 32) % 2 ^ 32) ↔ T + c < 2 ^ 32 ∧ K < c := by
  constructor
  · intro h
    -- the deadline is ahead of the counter now, so the sum did not wrap
    have hnow := h 0 (Nat.zero_le _)
    have hwrap : T + c % 2 ^ 32 < 2 ^ 32 := by omega
    rw [Nat.mod_eq_of_lt hwrap] at h hnow
    -- and the counter does not get as far as a deadline that was cut
    have hcut : K < c % 2 ^ 32 := by
      by_contra hle
      have := h (c % 2 ^ 32) (by omega)
      omega
    omega
  · rintro ⟨hfits, hlt⟩ j hj
    rw [Nat.mod_eq_of_lt (show c < 2 ^ 32 by omega), Nat.mod_eq_of_lt hfits,
      Nat.mod_eq_of_lt (show T + j < 2 ^ 32 by omega)]
    omega

/-- The deadline of `d` milliseconds is 0, which is for ever: the rounding up wraps, or the sum with
the counter is a multiple of what the counter holds. -/
theorem deadline_zero_iff {T d : Nat} (hd : 0 < d) (hd' : d < 2 ^ 64) :
    ttlToAbs T (((d + 999) % 2 ^ 64 / 1000 : Nat) : Int) = 0 ↔
      2 ^ 64 ≤ d + 999 ∨ (T + (d + 999) / 1000) % 2 ^ 32 = 0 := by
  by_cases hwrap : 2 ^ 64 ≤ d + 999
  · have hc : (d + 999) % 2 ^ 64 / 1000 = 0 := by omega
    rw [hc]
    exact iff_of_true rfl (.inl hwrap)
  · rw [Nat.mod_eq_of_lt (Nat.lt_of_not_le hwrap), ttlToAbs_eq T (by omega), or_iff_right hwrap,
      Nat.add_mod_mod]

/-- A deadline in ticks against `d` milliseconds, from a tick that began `p` milliseconds ago. -/
theorem deadline_iff {T p d : Nat} (hT : T < 2 ^ 32) (hp : p < 1000) (hd : 0 < d)
    (hd' : d < 2 ^ 64) :
    let newexp := ttlToAbs T (((d + 999) % 2 ^ 64 / 1000 : Nat) : Int)
    (∀ k, k < d → ¬ (newexp ≠ 0 ∧ newexp ≤ (T + (p + k) / 1000) % 2 ^ 32)) ↔
      (2 ^ 64 ≤ d + 999 ∨ (T + (d + 999) / 1000) % 2 ^ 32 = 0) ∨
        T + (d + 999) / 1000 < 2 ^ 32 ∧ p + (d - 1) % 1000 < 1000 := by
  intro newexp
  rw [← deadline_zero_iff hd hd']
  by_cases hzero : newexp = 0
  · exact iff_of_true (fun k _ h => h.1 hzero) (.inl hzero)
  · have hfits : d + 999 < 2 ^ 64 := by
      by_contra hge
      exact hzero ((deadline_zero_iff hd hd').mpr (.inl (Nat.le_of_not_lt hge)))
    have hnew : newexp = (T + (d + 999) / 1000 % 2 ^ 32) % 2 ^ 32 := by
      simp only [newexp, Nat.mod_eq_of_lt hfits]
      exact ttlToAbs_eq T (by omega)
    rw [← show newexp = ttlToAbs T _ from rfl, hnew]
    rw [hnew] at hzero
    have hK : (d + 999) / 1000 ≤ (p + (d - 1)) / 1000 + 1 := by omega
    have hsum : (p + (d - 1)) / 1000 < (d + 999) / 1000 ↔ p + (d - 1) % 1000 < 1000 := by omega
    rw [or_iff_right hzero, ← hsum, ← deadline_ticks hT hK]
    constructor
    · intro h j hj
      -- a time at which the counter has gone up by `j`
      have hat := h (min (1000 * j + 999 - p) (d - 1)) (by omega)
      have hj' : (p + min (1000 * j + 999 - p) (d - 1)) / 1000 = j := by omega
      rw [hj'] at hat
      omega
    · rintro h k hk ⟨-, hle⟩
      have := h ((p + k) / 1000) (Nat.div_le_div_right (by omega))
      omega

/-! ### What is stored -/

theorem slockStore_store {e : Env} {there changed res : Bool} {m : List LkM} {val : List Byte}
    {newexp : Nat} (h : (slockStore e there m changed res).2 = .store val newexp) :
    val = lkBytes m ∧ e.wall < latest m ∧
      newexp = ttlToAbs e.ticks (((latest m - e.wall + 999) % 2 ^ 64 / 1000 : Nat) : Int) := by
  simp only [slockStore] at h
  split at h
  · cases h
  split at h
  · split at h
    · split at h <;> cases h
    rename_i hover
    split at h
    · cases h
    split at h
    · cases h
    · cases h
      exact ⟨rfl, Nat.lt_of_not_le hover, rfl⟩
  · cases h

theorem latest_lt {m : List LkM} (hm : Packed m) : latest m < 2 ^ 64 := by
  have hle : latest m ≤ 2 ^ 64 - 1 := by
    rw [latest_eq]
    refine (Greatest.foldl_max_le_iff LkM.exp m 0 _).mpr ⟨Nat.zero_le _, fun x hx => ?_⟩
    have := (hm.small x hx).1
    omega
  omega

/-- A store of `slock_local`: members that are read back, with their latest expiry ahead, and the
key's expiry. -/
theorem slockLocal_store {e : Env} {fetched : Option Rec} {script : Script} {nowArg ttlMs : Int}
    {tok val : List Byte} {newexp : Nat}
    (h : (slockLocal e fetched script nowArg ttlMs tok).2 = .store val newexp) :
    ∃ m, lkParse val = some m ∧ e.wall < latest m ∧ latest m < 2 ^ 64 ∧
      newexp = ttlToAbs e.ticks (((latest m - e.wall + 999) % 2 ^ 64 / 1000 : Nat) : Int) := by
  simp only [slockLocal] at h
  split at h
  · cases h
  split at h
  · cases h
  split at h
  · cases h
  rename_i htok
  have hlen : tok.length < 2 ^ 16 := lt_of_le_of_lt (Nat.le_of_not_lt htok) (by decide)
  have hedit : ∀ (m : List LkM) (now : Nat), Packed m →
      Packed (lkEdit script now (((now : Int) + ttlMs) % 2 ^ 64).toNat tok m).1 :=
    fun m now hm => packed_lkEdit hm (by omega) hlen
  split at h
  · cases h
  split at h
  · split at h
    · cases h
    split at h
    · cases h
    split at h
    · cases h
    rename_i m hparse
    split at h
    · cases h
    obtain ⟨rfl, hlt, hnew⟩ := slockStore_store h
    have hm := fun now => hedit m now (lkParse_packed hparse)
    exact ⟨_, lkParse_lkBytes (hm _), hlt, latest_lt (hm _), hnew⟩
  · split at h
    · cases h
    obtain ⟨rfl, hlt, hnew⟩ := slockStore_store h
    have hm := fun now => hedit [] now Members.nil.packed
    exact ⟨_, lkParse_lkBytes (hm _), hlt, latest_lt (hm _), hnew⟩

theorem ticksAt_add (φ wall k : Nat) :
    ticksAt φ (wall + k) = (ticksAt φ wall + ((wall + φ) % 1000 + k) / 1000) % 2 ^ 32 := by
  simp only [ticksAt]
  omega

/-- **When a lock's key outlives the lock.** A script at `wall` milliseconds stores the members with
an expiry of the key; `φ` sets the ticks against that clock. Until the latest member's expiry the
table has the key, exactly if the tick now and the seconds left, rounded up, sum to a number the
counter holds, and the milliseconds since the tick now began go into what the rounding added; or if
the rounding up wraps or the sum comes out as 0, for a key that never expires. -/
theorem key_outlives_iff (φ wall : Nat) (noBuffer fetchFails storeFails : Bool)
    (fetched : Option Rec) (script : Script) (nowArg ttlMs : Int) (tok val : List Byte)
    (newexp ver : Nat)
    (h : (slockLocal ⟨wall, ticksAt φ wall, noBuffer, fetchFails, storeFails⟩ fetched script nowArg
      ttlMs tok).2 = .store val newexp) :
    ∃ m, lkParse val = some m ∧ wall < latest m ∧ ((∀ t, wall ≤ t → t < latest m →
        fetch (ticksAt φ t) (some ⟨val, newexp, fLock, ver⟩) ≠ none) ↔
      (2 ^ 64 ≤ latest m - wall + 999 ∨
        (ticksAt φ wall + (latest m - wall + 999) / 1000) % 2 ^ 32 = 0) ∨
      ticksAt φ wall + (latest m - wall + 999) / 1000 < 2 ^ 32 ∧
        (wall + φ) % 1000 + (latest m - wall - 1) % 1000 < 1000) := by
  obtain ⟨m, hval, hlt, hmax, hnew⟩ := slockLocal_store h
  refine ⟨m, hval, hlt, ?_⟩
  simp only at hlt hnew
  have hiff := deadline_iff (T := ticksAt φ wall) (p := (wall + φ) % 1000) (d := latest m - wall)
    (Nat.mod_lt _ (by decide)) (Nat.mod_lt _ (by decide)) (by omega) (by omega)
  simp only [← hnew] at hiff
  have hfetch : ∀ t, fetch (ticksAt φ t) (some ⟨val, newexp, fLock, ver⟩) ≠ none ↔
      ¬ (newexp ≠ 0 ∧ newexp ≤ ticksAt φ t) := by
    intro t
    simp [fetch, Rec.expired, filter_eq_none_iff]
  simp only [hfetch]
  rw [← hiff]
  constructor
  · intro hall k hk
    rw [← ticksAt_add]
    exact hall (wall + k) (by omega) (by omega)
  · intro hall t hle hlt'
    have := hall (t - wall) (by omega)
    rwa [← ticksAt_add, Nat.add_sub_cancel' hle] at this

/-- A SAVE with a time to live of a second. -/
def saveSecond (φ wall : Nat) (cell : Option Rec) (tok : String) : Except String Bool × Effect :=
  slockLocal ⟨wall, ticksAt φ wall, false, false, false⟩ (fetch (ticksAt φ wall) cell) .save (-1)
    1000 (chars tok)

/-- At the start of a tick the key lives as long as the lock. -/
theorem key_outlives_iff_tick_start :
    ∃ m, lkParse (lkBytes [⟨6000, chars "a"⟩, ⟨6000, lkWrite⟩]) = some m ∧ latest m = 6000 ∧
      ∀ t, 5000 ≤ t → t < latest m →
        fetch (ticksAt 0 t) (some ⟨lkBytes [⟨6000, chars "a"⟩, ⟨6000, lkWrite⟩], 6, fLock, 0⟩) ≠
          none := by
  obtain ⟨m, hparse, -, hiff⟩ := key_outlives_iff 0 5000 false false false none .save (-1) 1000
    (chars "a") (lkBytes [⟨6000, chars "a"⟩, ⟨6000, lkWrite⟩]) 6 0 (by decide)
  have hm : lkParse (lkBytes [⟨6000, chars "a"⟩, ⟨6000, lkWrite⟩]) =
      some [⟨6000, chars "a"⟩, ⟨6000, lkWrite⟩] := by decide
  cases hparse.symm.trans hm
  exact ⟨_, hparse, rfl, hiff.mpr (.inr (by decide))⟩

/-- A millisecond before the tick: a lock of a second is taken at 1 ms, its key is gone at 2 ms, and
another client takes the lock, 999 ms before the first one's expiry. -/
theorem key_gone_before_lock :
    saveSecond 998 1 none "a" =
        (.ok true, .store (lkBytes [⟨1001, chars "a"⟩, ⟨1001, lkWrite⟩]) 1) ∧
      (saveSecond 998 2
        (some ⟨lkBytes [⟨1001, chars "a"⟩, ⟨1001, lkWrite⟩], 1, fLock, 0⟩) "b").1 = .ok true := by
  decide

end Perfcached.Lock
