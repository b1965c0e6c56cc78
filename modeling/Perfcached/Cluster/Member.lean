import Mathlib
import Perfcached.Cluster.Acknowledge
import Perfcached.Lib.Machine

/-!
# Perfcached.Cluster.Member

A member's acknowledgements never run ahead.

A member is the spaces of `src/clack.c` with the ledger of each. Every run of calls keeps every
space sound, so after every run (`acknowledgement_sound`) the mark of a space is where its taken
numbers stop being contiguous, the durable mark lies within it and covers only numbers whose
records are synced, and the gap is the first hole.

With `durable_on_apply` the durable mark is the mark, synced or not, as the source says.
-/

namespace Perfcached.Cluster

open Machine List Option

variable {a : Clack} {sp : Space}

/-! ### The member -/

/-- A member with the ledgers of its spaces. -/
structure Member where
  a : Clack
  ledger : Key → Ledger

/-- The calls of a member; `alloc` says whether there is memory for a new space. -/
inductive Call
  | applied (k : Key) (alloc : Bool) (seq walseq : Nat)
  | synced (walseq : Nat)
  | floor (k : Key) (alloc : Bool) (floor : Nat)
  | restore (k : Key) (alloc : Bool) (mark : Nat)
  | drop (k : Key)
  deriving DecidableEq

def Ledger.noteRestore (l : Ledger) (mark : Nat) : Answer → Ledger
  | .full => l
  | _ => ⟨mark, [], [], []⟩

/-- One call. Delete numbers are below 2^63. -/
def memberStep (m : Member) : Call → Option Member
  | .applied k alloc seq walseq =>
    if seq < 2 ^ 63 then
      let r := clackApplied m.a k alloc seq walseq
      some ⟨r.2, Function.update m.ledger k ((m.ledger k).note seq walseq r.1)⟩
    else none
  | .synced walseq => some { m with a := clackSynced m.a walseq }
  | .floor k alloc floor =>
    let r := clackFloor m.a k alloc floor
    some ⟨r.2, Function.update m.ledger k ((m.ledger k).noteFloor floor r.1)⟩
  | .restore k alloc mark =>
    let r := clackRestore m.a k alloc mark
    some ⟨r.2, Function.update m.ledger k ((m.ledger k).noteRestore mark r.1)⟩
  | .drop k => some ⟨clackDrop m.a k, Function.update m.ledger k .empty⟩

def Member.new (durableOnApply : Bool) : Member := ⟨clackNew durableOnApply, fun _ => .empty⟩

/-- Every space is sound, and no two have one name. -/
structure Member.Sound (m : Member) : Prop where
  nodup : (m.a.spaces.map Space.key).Nodup
  spaces : ∀ sp ∈ m.a.spaces, Cluster.Sound m.a.durableOnApply m.a.synced (m.ledger sp.key) sp
  absent : ∀ k, k ∉ m.a.spaces.map Space.key → m.ledger k = .empty

open Space

variable {k : Key} {ledger : Key → Ledger}

open Member

section

variable (h : Member.Sound ⟨a, ledger⟩)
include h

/-- `get` makes a sound space, or finds one. -/
theorem Member.Sound.get {alloc : Bool} {a' : Clack} (hget : a.get k alloc = some (a', sp)) :
    Sound ⟨a', ledger⟩ ∧ sp ∈ a'.spaces ∧ sp.key = k := by
  unfold Clack.get at hget
  split at hget
  · rename_i hfind
    cases hget
    exact ⟨h, Slots.mem_of_find hfind⟩
  · rename_i hfind
    obtain ⟨-, ⟨⟩⟩ := ite_none_left_eq_some.mp hget
    have hk : k ∉ a.spaces.map key := Slots.find_eq_none.mp hfind
    refine ⟨⟨Slots.nodup_append h.nodup hk, ?_, ?_⟩, mem_append_right _ (mem_singleton_self _), rfl⟩
    · intro sp hsp
      rcases mem_append.mp hsp with hsp | hsp
      · exact h.spaces sp hsp
      · obtain rfl := mem_singleton.mp hsp
        change Cluster.Sound _ _ (ledger k) _
        rw [show ledger k = .empty from h.absent k hk]
        exact sound_restore _ _ (.zero _ _) 0
    · intro k' hk'
      rw [map_append, mem_append, not_or] at hk'
      exact h.absent k' hk'.1

theorem Member.Sound.update {sp' : Space} {l' : Ledger} (hsp : sp ∈ a.spaces) (hk : sp.key = k)
    (hkey : sp'.key = k) (hsp' : Cluster.Sound a.durableOnApply a.synced l' sp') :
    Sound ⟨{ a with spaces := Slots.update key k (fun _ => sp') a.spaces },
      Function.update ledger k l'⟩ := by
  have hkeys : (Slots.update key k (fun _ => sp') a.spaces).map key = a.spaces.map key :=
    Slots.keys_update fun _ _ => hkey
  refine ⟨hkeys ▸ h.nodup, fun x hx => ?_, fun k' hk' => ?_⟩
  · change Cluster.Sound a.durableOnApply a.synced (Function.update ledger k l' x.key) x
    rcases Slots.mem_update h.nodup hx with ⟨hmem, hne⟩ | ⟨-, -, rfl⟩
    · rw [Function.update_of_ne hne]
      exact h.spaces x hmem
    · rw [hkey, Function.update_self]
      exact hsp'
  · have hne : k' ≠ k := by
      rintro rfl
      exact hk' (hkeys ▸ hk ▸ mem_map_of_mem hsp)
    change Function.update ledger k l' k' = _
    rw [Function.update_of_ne hne]
    exact h.absent k' (hkeys ▸ hk')

theorem Member.Sound.change {alloc : Bool} {f : Clack → Space → Answer × Space}
    (note : Ledger → Answer → Ledger) (hfull : ∀ l, note l .full = l)
    (hkey : ∀ a sp, (f a sp).2.key = sp.key)
    (hf : ∀ a sp l, Cluster.Sound a.durableOnApply a.synced l sp →
      Cluster.Sound a.durableOnApply a.synced (note l (f a sp).1) (f a sp).2) :
    Sound ⟨(a.change k alloc f).2,
      Function.update ledger k (note (ledger k) (a.change k alloc f).1)⟩ := by
  unfold Clack.change
  split
  · rw [hfull, Function.update_eq_self]
    exact h
  · rename_i a' sp hget
    obtain ⟨h', hsp, hk⟩ := h.get hget
    have hsound := h'.spaces sp hsp
    refine h'.update hsp hk ((hkey a' sp).trans hk) (hf a' sp _ ?_)
    exact hk ▸ hsound

theorem Member.Sound.synced (walseq : Nat) : Sound ⟨clackSynced a walseq, ledger⟩ := by
  unfold clackSynced
  split
  · exact h
  · rename_i hlt
    have hkeys : (a.spaces.map fun sp => sp.sync walseq).map key = a.spaces.map key := by
      rw [List.map_map]
      rfl
    refine ⟨?_, ?_, ?_⟩
    · exact hkeys ▸ h.nodup
    · intro x hx
      obtain ⟨sp, hsp, rfl⟩ := mem_map.mp hx
      exact (h.spaces sp hsp).sync (le_of_lt (not_le.mp hlt))
    · intro k hk
      exact h.absent k (hkeys ▸ hk)

theorem Member.Sound.drop (k : Key) : Sound ⟨clackDrop a k, Function.update ledger k .empty⟩ := by
  have hnd : (a.spaces.map key).Nodup := h.nodup
  refine ⟨Slots.nodup_remove hnd, fun x hx => ?_, fun k' hk' => ?_⟩
  · obtain ⟨hmem, hne⟩ := (Slots.mem_remove hnd).mp hx
    change Cluster.Sound _ _ (Function.update ledger k .empty x.key) x
    rw [Function.update_of_ne hne]
    exact h.spaces x hmem
  · change Function.update ledger k .empty k' = _
    by_cases hkk : k' = k
    · rw [hkk, Function.update_self]
    · rw [Function.update_of_ne hkk]
      refine h.absent k' fun hmem => hk' ?_
      obtain ⟨x, hx, rfl⟩ := mem_map.mp hmem
      exact mem_map_of_mem ((Slots.mem_remove hnd).mpr ⟨hx, hkk⟩)

end

/-! ### Runs -/

theorem key_connect (sp : Space) : sp.connect.1.key = sp.key := by
  suffices h : ∀ n sp took, (connectLoop n sp took).1.key = sp.key from h _ _ _
  intro n
  induction n with
  | zero => exact fun _ _ => rfl
  | succ n ih =>
    intro sp took
    unfold connectLoop
    split
    · exact ih _ _
    · rfl

theorem key_confirm (a : Clack) (sp : Space) : (a.confirm sp).key = sp.key := by
  rw [confirm_rest]
  rfl

theorem key_clearTo (sp : Space) (floor : Nat) : (sp.clearTo floor).key = sp.key := by
  unfold clearTo
  split
  · rfl
  · refine foldlRecOn (motive := fun sp' : Space => sp'.key = sp.key) _ _ rfl fun sp' hsp' s _ => ?_
    split
    · exact hsp'
    · exact hsp'

theorem key_appliedTo (a : Clack) (sp : Space) (seq walseq : Nat) :
    (a.appliedTo sp seq walseq).2.key = sp.key := by
  unfold Clack.appliedTo
  split
  · rfl
  · dsimp only
    split
    · rfl
    · split
      · rfl
      · exact (key_confirm a _).trans (key_connect _)

theorem key_floorTo (a : Clack) (sp : Space) (floor : Nat) :
    (a.floorTo sp floor).2.key = sp.key := by
  have hstart : (sp.atFloor floor).connect.1.key = sp.key :=
    (key_connect _).trans (key_clearTo sp floor)
  rcases lt_or_ge sp.mark floor with hf | hf
  · rw [floorTo_of_lt hf]
    dsimp only
    split
    · exact (key_confirm a _).trans hstart
    · exact hstart
  · rw [show a.floorTo sp floor = (.dup, sp) from if_pos hf]

variable {m m' : Member} {call : Call}

/-- **Every call keeps every space sound.** -/
theorem Member.Sound.step (h : m.Sound) (hs : memberStep m call = some m') : m'.Sound := by
  cases call with
  | applied k alloc seq walseq =>
    obtain ⟨-, ⟨⟩⟩ := ite_none_right_eq_some.mp hs
    unfold clackApplied
    split
    · change Sound ⟨m.a, Function.update m.ledger k (m.ledger k)⟩
      rw [Function.update_eq_self]
      exact h
    · exact h.change (fun l r => l.note seq walseq r) (fun _ => rfl)
        (fun a sp => key_appliedTo a sp seq walseq) fun a sp l hsp => hsp.applied seq walseq
  | synced walseq =>
    cases hs
    exact h.synced walseq
  | floor k alloc floor =>
    cases hs
    exact h.change (fun l r => l.noteFloor floor r) (fun _ => rfl)
      (fun a sp => key_floorTo a sp floor) fun a sp l hsp => hsp.floor floor
  | restore k alloc mark =>
    cases hs
    exact h.change (fun l r => l.noteRestore mark r) (fun _ => rfl) (fun _ _ => rfl)
      fun a sp l _ => sound_restore _ _ sp mark
  | drop k =>
    cases hs
    exact h.drop k

theorem sound_new (durableOnApply : Bool) : (new durableOnApply).Sound :=
  ⟨nodup_nil, nofun, fun _ _ => rfl⟩

/-! ### One space over a call -/

/-- The calls that make a space's history start anew. -/
def Call.Resets (k : Key) : Call → Prop
  | .restore k' _ _ | .drop k' => k' = k
  | .applied .. | .synced _ | .floor .. => False

variable {k' : Key}

/-- What a call on one name does to a space that is there. -/
theorem find_change (hfind : a.find k = some sp) (alloc : Bool) {f : Clack → Space → Answer × Space}
    (hkey : ∀ a sp, (f a sp).2.key = sp.key) :
    (a.change k' alloc f).2.find k = some (if k = k' then (f a sp).2 else sp) := by
  unfold Clack.change
  split
  · rename_i hget
    have hne : k ≠ k' := by
      rintro rfl
      rw [Clack.get, hfind] at hget
      cases hget
    rw [if_neg hne]
    exact hfind
  · rename_i a' sp' hget
    unfold Clack.get at hget
    split at hget
    · rename_i hfind'
      cases hget
      have hk := (Slots.mem_of_find hfind').2
      change Slots.find key k (Slots.update key k' _ a.spaces) = _
      rw [Slots.find_update fun _ _ => (hkey a sp').trans hk]
      split
      · rename_i heq
        subst heq
        obtain rfl : sp = sp' := some.inj (hfind.symm.trans hfind')
        exact congrArg (Option.map _) hfind
      · exact hfind
    · rename_i hfind'
      have hne : k ≠ k' := by
        rintro rfl
        rw [hfind] at hfind'
        cases hfind'
      obtain ⟨-, ⟨⟩⟩ := ite_none_left_eq_some.mp hget
      change Slots.find key k (Slots.update key k' _ (a.spaces ++ _)) = _
      have hkey' (a) : (f a (.zero k'.1 k'.2)).2.key = k' := hkey a _
      rw [Slots.find_update fun _ _ => hkey' _, if_neg hne, if_neg hne, Slots.find_append]
      exact congrArg (Option.or · _) hfind

theorem find_synced (hfind : a.find k = some sp) (walseq : Nat) :
    ∃ sp', (clackSynced a walseq).find k = some sp' ∧ sp.dmark ≤ sp'.dmark := by
  unfold clackSynced
  split
  · exact ⟨sp, hfind, le_rfl⟩
  · refine ⟨sp.sync walseq, ?_, sp.dmark_le_sync walseq⟩
    change (a.spaces.map _).find? _ = _
    rw [find?_map]
    exact congrArg (Option.map _) hfind

theorem find_drop (hnd : (a.spaces.map key).Nodup) (hfind : a.find k = some sp)
    (hne : k ≠ k') : (clackDrop a k').find k = some sp :=
  (Slots.find_remove hnd).trans ((if_neg hne).trans hfind)

/-- The durable mark of a space does not go back, unless its history starts anew. -/
theorem Member.Sound.dmark_le (h : m.Sound) (hfind : m.a.find k = some sp)
    (hs : memberStep m call = some m') (hcall : ¬ call.Resets k) :
    ∃ sp', m'.a.find k = some sp' ∧ sp.dmark ≤ sp'.dmark := by
  obtain ⟨hmem, hkey⟩ := Slots.mem_of_find hfind
  have hsp := h.spaces sp hmem
  cases call with
  | applied k' alloc seq walseq =>
    obtain ⟨-, ⟨⟩⟩ := ite_none_right_eq_some.mp hs
    unfold clackApplied
    split
    · exact ⟨sp, hfind, le_rfl⟩
    · refine ⟨_, find_change hfind alloc fun a sp => key_appliedTo a sp seq walseq, ?_⟩
      split
      · exact hsp.dmark_le_applied seq walseq
      · exact le_rfl
  | synced walseq =>
    cases hs
    exact find_synced hfind walseq
  | floor k' alloc floor =>
    cases hs
    refine ⟨_, find_change hfind alloc fun a sp => key_floorTo a sp floor, ?_⟩
    split
    · exact hsp.dmark_le_floor floor
    · exact le_rfl
  | restore k' alloc mark =>
    cases hs
    refine ⟨_, find_change hfind alloc fun _ _ => rfl, ?_⟩
    rw [if_neg fun hk => hcall hk.symm]
  | drop k' =>
    cases hs
    exact ⟨sp, find_drop h.nodup hfind fun hk => hcall hk.symm, le_rfl⟩

/-- The highest watermark given, with one call more. -/
def Call.watermark (d : Nat) : Call → Nat
  | .synced walseq => max d walseq
  | .applied .. | .floor .. | .restore .. | .drop _ => d

theorem change_rest (a : Clack) (k : Key) (alloc : Bool) (f : Clack → Space → Answer × Space) :
    ∃ sps, (a.change k alloc f).2 = { a with spaces := sps } := by
  unfold Clack.change
  split
  · exact ⟨_, rfl⟩
  · rename_i a' sp hget
    unfold Clack.get at hget
    split at hget
    · cases hget
      exact ⟨_, rfl⟩
    · obtain ⟨-, ⟨⟩⟩ := ite_none_left_eq_some.mp hget
      exact ⟨_, rfl⟩

/-- The calls set the watermark and never the mode. -/
theorem memberStep_rest (hs : memberStep m call = some m') :
    m'.a.durableOnApply = m.a.durableOnApply ∧ m'.a.synced = call.watermark m.a.synced := by
  have hchange : ∀ k alloc f, (m.a.change k alloc f).2.durableOnApply = m.a.durableOnApply ∧
      (m.a.change k alloc f).2.synced = m.a.synced := by
    intro k alloc f
    obtain ⟨sps, heq⟩ := change_rest m.a k alloc f
    rw [heq]
    exact ⟨rfl, rfl⟩
  cases call with
  | applied k alloc seq walseq =>
    obtain ⟨-, ⟨⟩⟩ := ite_none_right_eq_some.mp hs
    unfold clackApplied
    split
    · exact ⟨rfl, rfl⟩
    · exact hchange _ _ _
  | synced walseq =>
    cases hs
    simp only [clackSynced, Call.watermark]
    split
    · exact ⟨rfl, (max_eq_left ‹_›).symm⟩
    · exact ⟨rfl, (max_eq_right (le_of_lt (not_le.mp ‹_›))).symm⟩
  | floor | restore =>
    cases hs
    exact hchange _ _ _
  | drop k =>
    cases hs
    exact ⟨rfl, rfl⟩

theorem run_rest {calls : List Call} (hrun : run memberStep m calls = some m') :
    m'.a.durableOnApply = m.a.durableOnApply ∧
      m'.a.synced = calls.foldl Call.watermark m.a.synced := by
  induction calls generalizing m with
  | nil =>
    cases hrun
    exact ⟨rfl, rfl⟩
  | cons call calls ih =>
    obtain ⟨m₁, hs, hrest⟩ := bind_eq_some_iff.mp hrun
    obtain ⟨hmode, hsynced⟩ := memberStep_rest hs
    obtain ⟨hmode', hsynced'⟩ := ih hrest
    exact ⟨hmode'.trans hmode, by rw [hsynced', hsynced, foldl_cons]⟩

theorem clackApplied_of_find (hfind : a.find k = some sp) (alloc : Bool) {seq : Nat}
    (hseq : seq ≠ 0) (walseq : Nat) :
    (clackApplied a k alloc seq walseq).1 = (a.appliedTo sp seq walseq).1 := by
  rw [clackApplied, if_neg hseq, Clack.change, Clack.get, hfind]

/-- **Acknowledgements never run ahead.** After every run of calls, for a space with its ledger:
the mark is the end of what is covered without a hole; a number is a repeat exactly if it is at or
below the mark or taken, and too far exactly if it lies more than a window above the mark; the
durable mark lies within the mark and does not go back while the history lasts, and where marks
wait for the WAL it covers only numbers that are inside or synced; it is the mark once the
watermark covers every WAL sequence given; and the gap is the first hole. -/
theorem acknowledgement_sound {mode : Bool} {calls : List Call} {m : Member}
    (hrun : run memberStep (.new mode) calls = some m) {k : Key} {sp : Space}
    (hfind : m.a.find k = some sp) :
    IsGreatest { n | ∀ j, 1 ≤ j → j ≤ n → (m.ledger k).Covers j } sp.mark ∧
    (∀ alloc seq walseq, seq ≠ 0 → ((clackApplied m.a k alloc seq walseq).1 = .dup ↔
        seq ≤ sp.mark ∨ seq ∈ (m.ledger k).numbers) ∧
      ((clackApplied m.a k alloc seq walseq).1 = .far ↔ sp.mark + clackWin < seq)) ∧
    clackMark m.a k = some sp.dmark ∧ sp.dmark ≤ sp.mark ∧
    (∀ call m', memberStep m call = some m' → ¬ call.Resets k →
      ∃ sp', m'.a.find k = some sp' ∧ sp.dmark ≤ sp'.dmark) ∧
    (mode = false → ∀ j, 1 ≤ j → j ≤ sp.dmark →
      (m.ledger k).Durable (calls.foldl Call.watermark 0) j) ∧
    (mode = true → sp.dmark = sp.mark) ∧
    ((∀ p ∈ (m.ledger k).taken, p.2 ≤ calls.foldl Call.watermark 0) → sp.dmark = sp.mark) ∧
    (m.ledger k).Gap sp.mark (clackGap m.a k) := by
  have h : m.Sound := run_invariant (I := Member.Sound) (fun _ _ _ h _ hs => h.step hs)
    (sound_new mode) (along_true _ _ _) hrun
  obtain ⟨hmode, hsynced⟩ := run_rest hrun
  change m.a.synced = calls.foldl Call.watermark 0 at hsynced
  obtain ⟨hmem, hkey⟩ := Slots.mem_of_find hfind
  have hsp := h.spaces sp hmem
  rw [hkey] at hsp
  refine ⟨hsp.contiguous.isGreatest, ?_, congrArg (Option.map dmark) hfind, hsp.queue.le,
    fun call m' hs hcall => h.dmark_le hfind hs hcall, ?_, ?_, ?_, ?_⟩
  · intro alloc seq walseq hseq
    rw [clackApplied_of_find hfind alloc hseq]
    exact hsp.answer seq walseq
  · intro hfalse
    rw [← hsynced]
    exact hsp.queue.durable (hmode.trans hfalse)
  · intro htrue
    refine hsp.waits.resolve_right ?_
    rw [hsp.queue.immediate (hmode.trans htrue)]
    exact nofun
  · intro hall
    rw [← hsynced] at hall
    refine hsp.waits.resolve_right fun hlast => ?_
    -- a pair that waits is above the watermark, and the maximum of what was given is not
    have hlate := (hsp.queue.pending _ (mem_of_getLast? hlast)).2.1
    have hgiven := (hsp.weighed.given _ hall).1
    dsimp only at hlate
    omega
  · rw [clackGap, hfind]
    exact hsp.gap

/-- Number 3 comes before number 2, and the sync covers number 1. -/
def holeRun : List Call :=
  [.applied (7, 1) true 1 5, .applied (7, 1) true 3 9, .synced 6]

theorem acknowledgement_sound_hole :
    ∃ m sp, run memberStep (.new false) holeRun = some m ∧ m.a.find (7, 1) = some sp ∧
      sp.mark = 1 ∧ clackMark m.a (7, 1) = some 1 ∧ clackGap m.a (7, 1) = some (2, 2) ∧
      (m.ledger (7, 1)).Durable 6 1 ∧ (m.ledger (7, 1)).Gap 1 (some (2, 2)) := by
  have h := @acknowledgement_sound false holeRun _ rfl (7, 1) _ rfl
  obtain ⟨-, -, hmark, -, -, hdurable, -, -, hgap⟩ := h
  exact ⟨_, _, rfl, rfl, rfl, hmark, by decide, hdurable rfl 1 (by decide) (by decide), hgap⟩

/-- **Durable without a sync.** With `durable_on_apply` the durable mark covers a number whose
record no watermark covers; and number 0, at or below every mark, is no repeat. -/
theorem durable_on_apply_not_synced :
    ∃ m sp, run memberStep (.new true) [.applied (7, 1) true 1 5] = some m ∧
      m.a.find (7, 1) = some sp ∧ 1 ≤ sp.dmark ∧ ¬ (m.ledger (7, 1)).Durable 0 1 ∧
      0 ≤ sp.mark ∧ (clackApplied m.a (7, 1) true 0 5).1 = .bad := by
  refine ⟨_, _, rfl, rfl, by decide, ?_, by decide, rfl⟩
  rintro ((hbase | ⟨f, hf, -⟩) | ⟨w, hw, hle⟩)
  · exact absurd hbase (by decide)
  · cases hf
  · obtain rfl : w = 5 := congrArg Prod.snd (mem_singleton.mp hw)
    exact absurd hle (by decide)

end Perfcached.Cluster
