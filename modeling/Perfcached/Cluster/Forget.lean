import Perfcached.Cluster.Retain

/-!
# Perfcached.Cluster.Forget

What an entry of the tombstone table stands for.

`Linked` says that the lists of the spaces in a shard are the numbered entries: each stands on the
list of the slot it names, and nothing else does, so a slot whose list is empty can be given to
another space. An entry's number is then that of a delete noted at the entry's version, and no
newer one was noted since the entry was planted (`Kept`). Every call under a shard's lock keeps
both, and what `clretain_forget` takes has a number of the space at or below the mark
(`Kept.forget`).
-/

namespace Perfcached.Cluster

open List Option Function

/-! ### The lists of the spaces -/

/-- The space and number an entry stands for. -/
def numberOf (sp : List Spl) (e : Ent) : Option (Key × Nat) :=
  if e.nseq = 0 then none else sp[e.spi]?.map fun l => (l.space, e.nseq)

/-- The names on the list of a slot. -/
def onList (sp : List Spl) (i : Nat) : List Name := (sp[i]?.map Spl.list).getD []

/-- The lists of the slots are the numbered entries that name them. -/
structure Linked (ents : List Ent) (sp : List Spl) : Prop where
  mem : ∀ i nm, nm ∈ onList sp i ↔ ∃ e ∈ ents, e.name = nm ∧ e.nseq ≠ 0 ∧ e.spi = i
  nodup : ∀ i, (onList sp i).Nodup

variable {i : Nat} {ents : List Ent} {sp sp' : List Spl} {e : Ent}

/-- The lists change, and the spaces of the slots do not. -/
theorem numberOf_modify (sp : List Spl) (i : Nat) (g : List Name → List Name) (e : Ent) :
    numberOf (sp.modify i fun l => { l with list := g l.list }) e = numberOf sp e := by
  unfold numberOf
  split
  · rfl
  · rw [getElem?_modify]
    cases sp[e.spi]? with
    | none => rfl
    | some l =>
      by_cases hi : i = e.spi <;> simp [hi]

theorem onList_modify (g : List Name → List Name) (hi : i < sp.length) (j : Nat) :
    onList (sp.modify i fun l => { l with list := g l.list }) j =
      if i = j then g (onList sp j) else onList sp j := by
  unfold onList
  rw [getElem?_modify]
  split
  · rename_i hij
    subst hij
    simp [hi]
  · simp

section

variable (h : Linked ents sp)
include h

/-- A numbered entry names a slot: it stands on that slot's list. -/
theorem Linked.spi (he : e ∈ ents) (he0 : e.nseq ≠ 0) : e.spi < sp.length := by
  have hmem := (h.mem e.spi e.name).mpr ⟨e, he, rfl, he0, rfl⟩
  by_contra hle
  simp [onList, getElem?_eq_none (Nat.le_of_not_lt hle)] at hmem

/-- The spaces of slots that no entry names can change. -/
theorem Linked.same (hlists : ∀ i, onList sp' i = onList sp i) : Linked ents sp' :=
  ⟨fun i nm => hlists i ▸ h.mem i nm, fun i => hlists i ▸ h.nodup i⟩

theorem Linked.remove (hnd : (ents.map Ent.name).Nodup) (he : e ∈ ents) :
    Linked (ents.filter fun x => x.name ≠ e.name)
      (if e.nseq ≠ 0 then sp.modify e.spi fun l => { l with list := l.list.erase e.name }
       else sp) := by
  -- the entries that stay are those of the other names
  have hone : ∀ x ∈ ents, x.name = e.name → x = e := fun x hx hxe =>
    inj_on_of_nodup_map hnd hx he hxe
  have hstay : ∀ i nm, (∃ x ∈ ents.filter fun x => x.name ≠ e.name,
      x.name = nm ∧ x.nseq ≠ 0 ∧ x.spi = i) ↔ nm ∈ onList sp i ∧ nm ≠ e.name := by
    intro i nm
    rw [h.mem]
    constructor
    · rintro ⟨x, hx, rfl, hrest⟩
      rw [mem_filter, decide_eq_true_eq] at hx
      exact ⟨⟨x, hx.1, rfl, hrest⟩, hx.2⟩
    · rintro ⟨⟨x, hx, rfl, hrest⟩, hne⟩
      exact ⟨x, mem_filter.mpr ⟨hx, decide_eq_true hne⟩, rfl, hrest⟩
  by_cases hseq : e.nseq = 0
  · rw [if_neg (not_not.mpr hseq)]
    refine ⟨fun i nm => ?_, h.nodup⟩
    rw [hstay, iff_self_and, h.mem]
    rintro ⟨x, hx, rfl, hx0, -⟩ hname
    exact hx0 (hone x hx hname ▸ hseq)
  · rw [if_pos hseq]
    refine ⟨fun i nm => ?_, fun i => ?_⟩
    · rw [hstay, onList_modify (·.erase e.name) (h.spi he hseq)]
      split
      · rw [(h.nodup i).mem_erase_iff, and_comm]
      · rename_i hne
        rw [iff_self_and, h.mem]
        rintro ⟨x, hx, rfl, -, hspi⟩ hname
        exact hne (hone x hx hname ▸ hspi)
    · rw [onList_modify (·.erase e.name) (h.spi he hseq)]
      split
      · exact (h.nodup i).erase e.name
      · exact h.nodup i

theorem Linked.plain (he : e.nseq = 0) : Linked (ents ++ [e]) sp := by
  refine ⟨fun i nm => ?_, h.nodup⟩
  rw [h.mem]
  simp [or_and_right, exists_or, he]

/-- An entry with a number is added, to the table and to the list of its slot. -/
theorem Linked.append (hnew : e.name ∉ ents.map Ent.name) (he : e.nseq ≠ 0)
    (hspi : e.spi < sp.length) :
    Linked (ents ++ [e]) (sp.modify e.spi fun l => { l with list := l.list ++ [e.name] }) := by
  refine ⟨fun i nm => ?_, fun i => ?_⟩
  · rw [onList_modify (· ++ [e.name]) hspi]
    by_cases hi : e.spi = i
    · simp [hi, h.mem, or_and_right, exists_or, he, eq_comm]
    · simp [hi, h.mem, or_and_right, exists_or]
  · rw [onList_modify (· ++ [e.name]) hspi]
    split
    · have hout : e.name ∉ onList sp i := by
        rw [h.mem]
        rintro ⟨x, hx, hname, -⟩
        exact hnew (hname ▸ mem_map_of_mem hx)
      simpa [← concat_eq_append] using (h.nodup i).concat hout
    · exact h.nodup i

/-- An entry is changed in what the lists do not read. -/
theorem Linked.congr {ents' : List Ent} (hsame : ∀ nm i,
      (∃ e ∈ ents', e.name = nm ∧ e.nseq ≠ 0 ∧ e.spi = i) ↔
        ∃ e ∈ ents, e.name = nm ∧ e.nseq ≠ 0 ∧ e.spi = i) :
    Linked ents' sp :=
  ⟨fun i nm => (h.mem i nm).trans (hsame nm i).symm, h.nodup⟩

end

variable {s s' : Shard} {k : Key} {alloc : Bool}

/-- **A slot is made for a space.** One whose list is empty is no entry's, so its space can
change. -/
theorem Linked.splMake (h : Linked ents s.sp) (hmake : s.splMake k alloc = some (s', i)) :
    Linked ents s'.sp ∧ (∃ l, s'.sp[i]? = some l ∧ l.space = k) ∧
      ∀ e ∈ ents, numberOf s'.sp e = numberOf s.sp e := by
  unfold Shard.splMake at hmake
  split at hmake
  · rename_i hslot
    cases hmake
    obtain ⟨hi, hspace, -⟩ := findIdx?_eq_some_iff_getElem.mp hslot
    exact ⟨h, ⟨_, getElem?_eq_getElem hi, of_decide_eq_true hspace⟩, fun _ _ => rfl⟩
  · split at hmake
    · -- the slot's list is empty
      rename_i hempty
      cases hmake
      obtain ⟨hi, hlist, -⟩ := findIdx?_eq_some_iff_getElem.mp hempty
      rw [decide_eq_true_eq] at hlist
      have hslot : s.sp[i]? = some s.sp[i] := getElem?_eq_getElem hi
      refine ⟨h.same fun j => ?_, ⟨{ s.sp[i] with space := k }, by simp [hslot], rfl⟩,
        fun e he => ?_⟩
      · unfold onList
        rw [getElem?_modify]
        cases s.sp[j]? with
        | none => rfl
        | some l => by_cases hj : i = j <;> simp [hj]
      · unfold numberOf
        split
        · rfl
        · rename_i he0
          have hne : i ≠ e.spi := by
            intro heq
            have hmem := (h.mem i e.name).mpr ⟨e, he, rfl, he0, heq.symm⟩
            simp [onList, hslot, hlist] at hmem
          simp [hne]
    · obtain ⟨-, ⟨⟩⟩ := ite_none_left_eq_some.mp hmake
      refine ⟨h.same fun j => ?_, ⟨⟨k, []⟩, by simp, rfl⟩, fun e he => ?_⟩
      · unfold onList
        rcases lt_trichotomy j s.sp.length with hj | rfl | hj
        · rw [getElem?_append_left hj]
        · simp
        · rw [getElem?_eq_none (by simp; omega), getElem?_eq_none (by omega)]
      · unfold numberOf
        split
        · rfl
        · rw [getElem?_append_left (h.spi he ‹_›)]

/-! ### An entry takes a number -/

theorem splMake_ents (hmake : s.splMake k alloc = some (s', i)) : s'.ents = s.ents := by
  unfold Shard.splMake at hmake
  split at hmake
  · cases hmake
    rfl
  · split at hmake
    · cases hmake
      rfl
    · obtain ⟨-, ⟨⟩⟩ := ite_none_left_eq_some.mp hmake
      rfl

open Cluster.Part

variable {p p' : Part} {e' : Ent} {Q Q' : Key × Nat → Prop}

theorem entDrop_ents (p : Part) (e : Ent) :
    (p.entDrop e).sh.ents = p.sh.ents.filter fun x => x.name ≠ e.name := by
  unfold entDrop
  dsimp only
  split <;> rfl

theorem entDrop_sp (p : Part) (e : Ent) : (p.entDrop e).sh.sp =
      if e.nseq ≠ 0 then p.sh.sp.modify e.spi fun l => { l with list := l.list.erase e.name }
      else p.sh.sp := by
  unfold entDrop
  dsimp only
  split <;> rfl

theorem entDrop_numberOf (p : Part) (e x : Ent) :
    numberOf (p.entDrop e).sh.sp x = numberOf p.sh.sp x := by
  rw [entDrop_sp]
  split
  · exact numberOf_modify _ _ (·.erase e.name) x
  · rfl

/-- What the numbering of an entry leaves: the entry on the list of its slot, the numbers of the
others, and for the entry a number with `Q`, if it has one. -/
structure Numbered (p p' : Part) (e e' : Ent) (Q : Key × Nat → Prop) : Prop where
  ents : p'.sh.ents = p.sh.ents
  name : e'.name = e.name
  ver : e'.ver = e.ver
  linked : Linked ((p.sh.ents.filter fun x => x.name ≠ e.name) ++ [e']) p'.sh.sp
  number : ∀ x, numberOf p'.sh.sp e' = some x → Q x
  others : ∀ x ∈ p.sh.ents.filter (fun x => x.name ≠ e.name),
    numberOf p'.sh.sp x = numberOf p.sh.sp x

theorem Numbered.imp (h : Numbered p p' e e' Q) (hQ : ∀ x, Q x → Q' x) : Numbered p p' e e' Q' :=
  ⟨h.ents, h.name, h.ver, h.linked, fun x hx => hQ x (h.number x hx), h.others⟩

/-- An entry that keeps its number. -/
theorem numbered_keep (h : Linked p.sh.ents p.sh.sp) (hnd : (p.sh.ents.map Ent.name).Nodup)
    (he : e ∈ p.sh.ents) : Numbered p p e e fun x => numberOf p.sh.sp e = some x := by
  refine ⟨rfl, rfl, rfl, h.congr fun nm i => ?_, fun _ hx => hx, fun _ _ => rfl⟩
  have hone : ∀ x, x ∈ (p.sh.ents.filter fun x => x.name ≠ e.name) ++ [e] ↔ x ∈ p.sh.ents := by
    intro x
    rw [mem_append, mem_filter, mem_singleton, decide_eq_true_eq]
    refine ⟨fun hx => hx.elim And.left fun hx => hx ▸ he, fun hx => ?_⟩
    by_cases hxe : x.name = e.name
    · exact .inr (inj_on_of_nodup_map hnd hx he hxe)
    · exact .inl ⟨hx, hxe⟩
  simp only [hone]

/-- `ent_number` gives the entry the number of the delete, or none. -/
theorem numbered_entNumber (h : Linked (p.entDrop e).sh.ents (p.entDrop e).sh.sp) (k : Key)
    (seq : Nat) (alloc : Bool) :
    Numbered p (p.entNumber e k seq alloc).1 e (p.entNumber e k seq alloc).2
      fun x => x = (k, seq) ∧ seq ≠ 0 := by
  rw [entDrop_ents, entDrop_sp] at h
  -- the entry off its list
  obtain ⟨p₁, e₁, heq, hents, hl, hname, hver, he₁, hothers⟩ : ∃ p₁ e₁,
      (if e.nseq ≠ 0 then p.slistUnlink e else (p, e)) = (p₁, e₁) ∧ p₁.sh.ents = p.sh.ents ∧
      Linked (p.sh.ents.filter fun x => x.name ≠ e.name) p₁.sh.sp ∧ e₁.name = e.name ∧
      e₁.ver = e.ver ∧ e₁.nseq = 0 ∧ ∀ x, numberOf p₁.sh.sp x = numberOf p.sh.sp x := by
    by_cases hseq : e.nseq ≠ 0
    · rw [if_pos hseq] at h ⊢
      exact ⟨_, _, rfl, rfl, h, rfl, rfl, rfl, numberOf_modify _ _ (·.erase e.name)⟩
    · rw [if_neg hseq] at h ⊢
      exact ⟨_, _, rfl, rfl, h, rfl, rfl, not_not.mp hseq, fun _ => rfl⟩
  have hplain : Numbered p p₁ e e₁ fun x => x = (k, seq) ∧ seq ≠ 0 :=
    ⟨hents, hname, hver, hl.plain he₁, by simp [numberOf, he₁], fun x _ => hothers x⟩
  have hout : e₁.name ∉ (p.sh.ents.filter fun x => x.name ≠ e.name).map Ent.name := by
    simp [hname]
  unfold entNumber
  rw [heq]
  dsimp only
  split
  · exact hplain
  · rename_i hseq
    cases hmake : p₁.sh.splMake k alloc with
    | none => exact hplain
    | some r =>
      obtain ⟨sh, i⟩ := r
      obtain ⟨hl', ⟨l, hslot, hspace⟩, hsame⟩ := hl.splMake hmake
      have hi : i < sh.sp.length := (List.getElem?_eq_some_iff.mp hslot).1
      refine ⟨(splMake_ents hmake).trans hents, hname, hver, ?_, fun x hx => ?_, fun x hx => ?_⟩
      · exact Linked.append (e := { e₁ with spi := i, nseq := seq }) hl' hout hseq hi
      · have hnum := (numberOf_modify sh.sp i (· ++ [e₁.name])
          { e₁ with spi := i, nseq := seq }).symm.trans hx
        simp only [numberOf, hseq, if_false, hslot, map_some, some.injEq] at hnum
        exact ⟨hnum ▸ hspace ▸ rfl, hseq⟩
      · exact (numberOf_modify sh.sp i (· ++ [e₁.name]) x).trans ((hsame x hx).trans (hothers x))

/-! ### What was noted -/

/-- The calls that note a tombstone. -/
inductive Noting
  | plain (name : Name) (ver nowS : Nat)
  | numbered (name : Name) (ver nowS : Nat) (space : Key) (seq : Nat)
  | expiry (name : Name) (ver nowS : Nat) (keep : Bool)
  | isLocal (name : Name) (ver nowS : Nat)
  deriving DecidableEq

def Noting.note : Noting → Note
  | .plain name ver nowS => clretainNote name ver nowS
  | .numbered name ver nowS space seq => clretainNoteN name ver nowS space seq
  | .expiry name ver nowS keep => clretainNoteExpiry name ver nowS keep
  | .isLocal name ver nowS => clretainNoteLocal name ver nowS

/-- The tombstones noted for each name since its entry was planted. -/
abbrev Notes := Name → List Noting

/-- One of the notes is a delete at this version under this number. -/
def NotedAs (ns : List Noting) (name : Name) (ver : Nat) (number : Key × Nat) : Prop :=
  ∃ nowS, .numbered name ver nowS number.1 number.2 ∈ ns

theorem Noting.notedAs {nt : Noting} (h : nt.note.seq ≠ 0) (ns : List Noting) :
    NotedAs (ns ++ [nt]) nt.note.name nt.note.ver (nt.note.space, nt.note.seq) := by
  cases nt with
  | numbered name ver nowS space seq =>
    exact ⟨nowS, mem_append_right _ (mem_singleton.mpr rfl)⟩
  | plain | expiry | isLocal => exact absurd rfl h

/-- Every entry stands for the newest delete noted for its name, under a number of that delete. -/
structure Kept (notes : Notes) (s : Shard) : Prop where
  names : (s.ents.map Ent.name).Nodup
  linked : Linked s.ents s.sp
  number : ∀ e ∈ s.ents, ∀ x, numberOf s.sp e = some x → NotedAs (notes e.name) e.name e.ver x
  newest : ∀ e ∈ s.ents, ∀ nt ∈ notes e.name, nt.note.ver ≤ e.ver

variable {notes : Notes}

theorem Kept.find_iff (h : Kept notes s) {name : Name} :
    s.find name = some e ↔ e ∈ s.ents ∧ e.name = name := by
  refine ⟨Slots.mem_of_find, fun ⟨he, hname⟩ => ?_⟩
  exact hname ▸ Slots.find_of_mem h.names he

/-- The notes of names that are not in the shard say nothing of it. -/
theorem Kept.congr {notes' : Notes} (h : Kept notes s)
    (hsame : ∀ e ∈ s.ents, notes' e.name = notes e.name) : Kept notes' s :=
  ⟨h.names, h.linked, fun e he => hsame e he ▸ h.number e he,
    fun e he => hsame e he ▸ h.newest e he⟩

/-- Entries go from a shard, and none comes. -/
structure Shrunk (notes : Notes) (s s' : Shard) : Prop where
  kept : Kept notes s'
  sub : ∀ x ∈ s'.ents, x ∈ s.ents

theorem Kept.shrunk (h : Kept notes s) : Shrunk notes s s := ⟨h, fun _ hx => hx⟩

theorem Shrunk.trans {s'' : Shard} (h : Shrunk notes s s') (h' : Shrunk notes s' s'') :
    Shrunk notes s s'' := ⟨h'.kept, fun x hx => h.sub x (h'.sub x hx)⟩

/-- **An entry goes**, and its number goes from the list of its space. -/
theorem Kept.entDrop (h : Kept notes s) (hp : p.sh = s) (he : e ∈ s.ents) :
    Shrunk notes s (p.entDrop e).sh := by
  subst hp
  have hsub : ∀ x ∈ (p.entDrop e).sh.ents, x ∈ p.sh.ents := by
    intro x hx
    rw [entDrop_ents] at hx
    exact mem_of_mem_filter hx
  refine ⟨⟨?_, ?_, fun x hx y hy => ?_, fun x hx => h.newest x (hsub x hx)⟩, hsub⟩
  · rw [entDrop_ents]
    exact h.names.sublist (filter_sublist.map Ent.name)
  · rw [entDrop_ents, entDrop_sp]
    exact h.linked.remove h.names he
  · rw [entDrop_numberOf] at hy
    exact h.number x (hsub x hx) y hy

/-- What noting an entry again does besides its number. -/
theorem renote_rest (p : Part) (e : Ent) (nt : Note) :
    (p.renote e nt).1.sh.ents = p.sh.ents ∧ (p.renote e nt).1.sh.sp = p.sh.sp ∧
      (p.renote e nt).2.name = e.name ∧ (p.renote e nt).2.ver = e.ver ∧
      (p.renote e nt).2.spi = e.spi ∧ (p.renote e nt).2.nseq = e.nseq := by
  unfold renote
  by_cases hlocal : (!nt.isLocal && e.isLocal) = true <;> cases hexp : e.expiry <;>
    cases hnt : nt.expiry <;> simp [hlocal, hexp]

def Notes.add (notes : Notes) (nt : Noting) : Notes :=
  update notes nt.note.name (notes nt.note.name ++ [nt])

theorem Notes.add_self (notes : Notes) (nt : Noting) :
    notes.add nt nt.note.name = notes nt.note.name ++ [nt] := update_self ..

theorem Notes.add_of_ne (notes : Notes) (nt : Noting) {name : Name} (h : name ≠ nt.note.name) :
    notes.add nt name = notes name := update_of_ne h ..

/-- The shard with the entry `e'` for the noted name, numbered as `e₁` is. -/
theorem Kept.replace {e₁ : Ent} (h : Kept notes p.sh) (nt : Noting) (hname : e.name = nt.note.name)
    (hn : Numbered p p' e e₁ (NotedAs (notes nt.note.name ++ [nt]) nt.note.name e'.ver))
    (hents : s'.ents = (p.sh.ents.filter fun x => x.name ≠ nt.note.name) ++ [e'])
    (hsp : s'.sp = p'.sh.sp) (he' : e'.name = e₁.name ∧ e'.spi = e₁.spi ∧ e'.nseq = e₁.nseq)
    (hnewest : ∀ o ∈ notes nt.note.name ++ [nt], o.note.ver ≤ e'.ver) :
    Kept (notes.add nt) s' ∧ ∀ x ∈ s'.ents, x.name = nt.note.name ∨ x ∈ p.sh.ents := by
  obtain ⟨hname₁, hspi, hnseq⟩ := he'
  obtain ⟨-, hname₂, -, hlinked, hnumber, hothers⟩ := hn
  rw [hname] at hlinked hothers
  have hname' : e'.name = nt.note.name := hname₁.trans (hname₂.trans hname)
  have hmem : ∀ x ∈ s'.ents, x.name ≠ nt.note.name ∧ x ∈ p.sh.ents ∨ x = e' := by
    intro x hx
    rw [hents, mem_append, mem_filter, mem_singleton, decide_eq_true_eq] at hx
    exact hx.imp And.symm id
  refine ⟨⟨?_, ?_, fun x hx y hy => ?_, fun x hx => ?_⟩, fun x hx => ?_⟩
  · rw [hents]
    refine Slots.nodup_append (h.names.sublist (filter_sublist.map Ent.name)) ?_
    simp [hname']
  · rw [hents, hsp]
    refine hlinked.congr fun nm i => ?_
    simp [or_and_right, exists_or, hname₁, hspi, hnseq]
  · rw [hsp] at hy
    rcases hmem x hx with ⟨hne, hx⟩ | rfl
    · rw [hothers x (mem_filter.mpr ⟨hx, decide_eq_true hne⟩)] at hy
      rw [notes.add_of_ne nt hne]
      exact h.number x hx y hy
    · rw [hname', notes.add_self]
      rw [numberOf, hspi, hnseq] at hy
      exact hnumber y hy
  · rcases hmem x hx with ⟨hne, hx⟩ | rfl
    · rw [notes.add_of_ne nt hne]
      exact h.newest x hx
    · rw [hname', notes.add_self]
      exact hnewest
  · rcases hmem x hx with ⟨-, hx⟩ | rfl
    · exact .inr hx
    · exact .inl hname'

/-- **A tombstone is noted again.** A newer delete takes the entry over with its number or with
none, and an older one changes neither. -/
theorem Kept.noteAgain (h : Kept notes p.sh) (nt : Noting) (hfind : p.sh.find nt.note.name = some e)
    (alloc : Bool) : let p' := p.noteAgain e nt.note alloc
    Kept (notes.add nt) p'.sh ∧ ∀ x ∈ p'.sh.ents, x.name = nt.note.name ∨ x ∈ p.sh.ents := by
  obtain ⟨he, hname⟩ := h.find_iff.mp hfind
  obtain ⟨p₁, e₁, heq, hnum⟩ : ∃ p₁ e₁,
      (if e.ver < nt.note.ver ∨ (nt.note.ver = e.ver ∧ nt.note.seq ≠ 0 ∧ e.nseq = 0) then
        p.entNumber e nt.note.space nt.note.seq alloc else (p, e)) = (p₁, e₁) ∧
      Numbered p p₁ e e₁
        (NotedAs (notes nt.note.name ++ [nt]) nt.note.name (max e.ver nt.note.ver)) := by
    split
    · refine ⟨_, _, rfl, (numbered_entNumber (h.entDrop rfl he).kept.linked _ _ _).imp ?_⟩
      rintro x ⟨rfl, hseq⟩
      rw [Nat.max_eq_right (by omega)]
      exact Noting.notedAs hseq _
    · refine ⟨_, _, rfl, (numbered_keep h.linked h.names he).imp fun x hx => ?_⟩
      obtain ⟨nowS, hmem⟩ := h.number e he x hx
      rw [Nat.max_eq_left (by omega), ← hname]
      exact ⟨nowS, mem_append_left _ hmem⟩
  unfold Part.noteAgain
  rw [heq]
  dsimp only
  obtain ⟨hents₂, hsp₂, hname₂, hver₂, hspi₂, hnseq₂⟩ :=
    renote_rest p₁ { e₁ with ver := max e₁.ver nt.note.ver, tS := nt.note.nowS } nt.note
  generalize p₁.renote
    { e₁ with ver := max e₁.ver nt.note.ver, tS := nt.note.nowS } nt.note = r at *
  obtain ⟨p₂, e₂⟩ := r
  dsimp only at hents₂ hsp₂ hname₂ hver₂ hspi₂ hnseq₂ ⊢
  rw [hnum.ver] at hver₂
  refine h.replace nt hname (hver₂ ▸ hnum) ?_ hsp₂ ⟨hname₂, hspi₂, hnseq₂⟩ fun o ho => ?_
  · rw [hents₂, hnum.ents, hname₂, hnum.name, hname]
  · rw [hver₂]
    rcases mem_append.mp ho with ho | ho
    · exact le_trans (h.newest e he o (hname ▸ ho)) (le_max_left _ _)
    · rw [mem_singleton.mp ho]
      exact le_max_right _ _

theorem Kept.plant (h : Kept notes p.sh) (nt : Noting) (hfind : p.sh.find nt.note.name = none)
    (hnone : notes nt.note.name = []) (alloc : Bool) : let p' := p.plant nt.note alloc
    Kept (notes.add nt) p'.sh ∧ ∀ x ∈ p'.sh.ents, x.name = nt.note.name ∨ x ∈ p.sh.ents := by
  have hout : nt.note.name ∉ p.sh.ents.map Ent.name := Slots.find_eq_none.mp hfind
  have hall : (p.sh.ents.filter fun x => x.name ≠ nt.note.ent.name) = p.sh.ents := by
    refine filter_eq_self.mpr fun x hx => decide_eq_true fun hxe => hout ?_
    exact mem_map.mpr ⟨x, hx, hxe⟩
  obtain ⟨p₁, e₁, heq, hnum⟩ : ∃ p₁ e₁,
      (if nt.note.seq ≠ 0 then p.entNumber nt.note.ent nt.note.space nt.note.seq alloc
        else (p, nt.note.ent)) = (p₁, e₁) ∧
      Numbered p p₁ nt.note.ent e₁
        (NotedAs (notes nt.note.name ++ [nt]) nt.note.name nt.note.ver) := by
    split
    · refine ⟨_, _, rfl, (numbered_entNumber (e := nt.note.ent) ?_ _ _ _).imp ?_⟩
      · rw [entDrop_ents, entDrop_sp, hall]
        exact h.linked
      · rintro x ⟨rfl, hseq⟩
        exact Noting.notedAs hseq _
    · exact ⟨_, _, rfl, rfl, rfl, rfl, hall.symm ▸ h.linked.plain rfl, nofun, fun _ _ => rfl⟩
  unfold Part.plant
  rw [heq]
  dsimp only
  have hver : e₁.ver = nt.note.ver := hnum.ver
  have hn : Numbered p p₁ nt.note.ent e₁
      (NotedAs (notes nt.note.name ++ [nt]) nt.note.name e₁.ver) := hver.symm ▸ hnum
  refine h.replace nt rfl hn ?_ rfl ⟨rfl, rfl, rfl⟩ fun o ho => ?_
  · exact congrArg (· ++ [e₁]) (hnum.ents.trans hall.symm)
  · rw [hnone, nil_append] at ho
    rw [mem_singleton.mp ho, hver]

theorem lostNote_sh (p : Part) (e : Ent) : (p.lostNote e).sh = p.sh := by
  unfold lostNote
  split <;> rfl

theorem lose_sh (c : RetainConf) (p : Part) (o : Ent) (nowS : Nat) :
    (p.lose c o nowS).sh = p.sh := by
  unfold lose
  dsimp only
  split
  · rw [lostNote_sh]
    split <;> rfl
  · split <;> rfl

variable {c : RetainConf}

theorem Kept.makeRoom (h : Kept notes p.sh) {nt : Note} (hroom : p.makeRoom c nt = some p') :
    Shrunk notes p.sh p'.sh := by
  unfold Part.makeRoom at hroom
  split at hroom
  · obtain ⟨o, hvictim, rfl⟩ := map_eq_some_iff.mp hroom
    refine h.entDrop (lose_sh c p o nt.nowS) ?_
    unfold Shard.victim at hvictim
    split at hvictim
    · exact (h.find_iff.mp hvictim).1
    · split at hvictim
      · cases hvictim
      · exact mem_of_head? hvictim
  · cases hroom
    exact h.shrunk

/-- **`note_in` keeps every entry the newest delete noted**, and adds none but that of the name. -/
theorem Kept.noteIn (h : Kept notes p.sh) (nt : Noting)
    (hnone : p.sh.find nt.note.name = none → notes nt.note.name = []) (mem alloc : Bool) :
    let p' := p.noteIn c nt.note mem alloc
    Kept (if nt.note.taken c then notes.add nt else notes) p'.sh ∧
      ∀ x ∈ p'.sh.ents, x.name = nt.note.name ∨ x ∈ p.sh.ents := by
  -- nothing is planted: the notes of the name are those of no entry
  have hstay : ∀ {s'}, Shrunk notes p.sh s' → p.sh.find nt.note.name = none →
      Kept (notes.add nt) s' ∧ ∀ x ∈ s'.ents, x.name = nt.note.name ∨ x ∈ p.sh.ents := by
    intro s' hs hfind
    refine ⟨hs.kept.congr fun e he => notes.add_of_ne nt fun heq => ?_,
      fun x hx => .inr (hs.sub x hx)⟩
    exact Slots.find_eq_none.mp hfind (heq ▸ mem_map_of_mem (hs.sub e he))
  unfold Part.noteIn
  split
  · cases hfind : p.sh.find nt.note.name with
    | some e => exact h.noteAgain nt hfind alloc
    | none =>
      cases hroom : p.makeRoom c nt.note with
      | none => exact hstay h.shrunk hfind
      | some p' =>
        have hs := h.makeRoom hroom
        dsimp only
        split
        · have hfind' : p'.sh.find nt.note.name = none := by
            refine Slots.find_eq_none.mpr fun hmem => Slots.find_eq_none.mp hfind ?_
            obtain ⟨x, hx, hxe⟩ := mem_map.mp hmem
            exact hxe ▸ mem_map_of_mem (hs.sub x hx)
          obtain ⟨hkept, hents⟩ := hs.kept.plant nt hfind' (hnone hfind) alloc
          exact ⟨hkept, fun x hx => (hents x hx).imp_right (hs.sub x)⟩
        · exact hstay hs hfind
  · exact ⟨h, fun _ hx => .inr hx⟩

/-! ### Entries are forgotten -/

/-- **What the loop of `clretain_forget` takes** has a number of the slot's space, at or below the
mark. -/
theorem Kept.forgetLoop {upto : Nat} (turns : Nat) (h : Kept notes p.sh)
    (hslot : ∃ l, p.sh.sp[i]? = some l ∧ l.space = k) (n : Nat) :
    Shrunk notes p.sh (forgetLoop i upto turns p n).1.sh ∧
      ∀ e ∈ p.sh.ents, e ∈ (forgetLoop i upto turns p n).1.sh.ents ∨
        numberOf p.sh.sp e = some (k, e.nseq) ∧ e.nseq ≤ upto := by
  induction turns generalizing p n with
  | zero => exact ⟨h.shrunk, fun _ he => .inl he⟩
  | succ turns ih =>
    unfold forgetLoop
    split
    · exact ⟨h.shrunk, fun _ he => .inl he⟩
    · rename_i e hhead
      split
      · rename_i hle
        -- the head of the list is an entry of this slot
        obtain ⟨l, hl, rfl⟩ := hslot
        obtain ⟨nm, hnm, hfind⟩ := bind_eq_some_iff.mp hhead
        rw [hl, bind_some] at hnm
        obtain ⟨he, rfl⟩ := h.find_iff.mp hfind
        have hlist : e.name ∈ onList p.sh.sp i := by
          rw [onList, hl]
          exact mem_of_head? hnm
        obtain ⟨e', he', hname, hseq, hspi⟩ := (h.linked.mem i e.name).mp hlist
        obtain rfl : e' = e := inj_on_of_nodup_map h.names he' he hname
        have hnumber : numberOf p.sh.sp e' = some (l.space, e'.nseq) := by
          simp [numberOf, hseq, hspi, hl]
        have hslot' : ∃ l', (p.entDrop e').sh.sp[i]? = some l' ∧ l'.space = l.space := by
          rw [entDrop_sp, if_pos hseq, hspi]
          exact ⟨{ l with list := l.list.erase e'.name }, by simp [hl], rfl⟩
        have hdrop := h.entDrop rfl he
        obtain ⟨hshrunk, hgone⟩ := ih hdrop.kept hslot' (n + 1)
        refine ⟨hdrop.trans hshrunk, fun x hx => ?_⟩
        by_cases hxe : x.name = e'.name
        · obtain rfl := inj_on_of_nodup_map h.names hx he hxe
          exact .inr ⟨hnumber, hle⟩
        · have hstay : x ∈ (p.entDrop e').sh.ents := by
            rw [entDrop_ents]
            exact mem_filter.mpr ⟨hx, decide_eq_true hxe⟩
          rw [← entDrop_numberOf p e' x]
          exact hgone x hstay
      · exact ⟨h.shrunk, fun _ he => .inl he⟩

theorem Kept.forget (h : Kept notes p.sh) (k : Key) (upto : Nat) :
    Shrunk notes p.sh (p.forget k upto).1.sh ∧
      ∀ e ∈ p.sh.ents, e ∈ (p.forget k upto).1.sh.ents ∨
        numberOf p.sh.sp e = some (k, e.nseq) ∧ e.nseq ≤ upto := by
  unfold Part.forget
  split
  · exact ⟨h.shrunk, fun _ he => .inl he⟩
  · rename_i i hslot
    obtain ⟨hi, hspace, -⟩ := findIdx?_eq_some_iff_getElem.mp hslot
    exact h.forgetLoop _ ⟨_, getElem?_eq_getElem hi, of_decide_eq_true hspace⟩ 0

theorem Kept.expireLoop (h : Kept notes p.sh) (nowS turns : Nat) :
    Shrunk notes p.sh (Part.expireLoop c nowS turns p).sh := by
  induction turns generalizing p with
  | zero => exact h.shrunk
  | succ turns ih =>
    unfold Part.expireLoop
    split
    · exact h.shrunk
    · rename_i e hhead
      split
      · have hsh : (if e.nseq ≠ 0 then p.lostNote e
            else { p with bk := p.bk.timeDropped e.tS }).sh = p.sh := by
          split
          · exact lostNote_sh p e
          · rfl
        have hdrop := h.entDrop hsh (mem_of_head? hhead)
        exact hdrop.trans (ih hdrop.kept)
      · exact h.shrunk

theorem Kept.expire (h : Kept notes p.sh) (nowS : Nat) :
    Shrunk notes p.sh (p.expire c nowS).sh := by
  unfold Part.expire
  split
  · exact h.expireLoop nowS _
  · exact h.shrunk

theorem Kept.expireExpiriesLoop (h : Kept notes p.sh) (nowS holdS turns : Nat) :
    Shrunk notes p.sh (Part.expireExpiriesLoop nowS holdS turns p).sh := by
  induction turns generalizing p with
  | zero => exact h.shrunk
  | succ turns ih =>
    unfold Part.expireExpiriesLoop
    split
    · exact h.shrunk
    · rename_i e hhead
      split
      · obtain ⟨nm, -, hfind⟩ := bind_eq_some_iff.mp hhead
        have hdrop := h.entDrop rfl (h.find_iff.mp hfind).1
        exact hdrop.trans (ih hdrop.kept)
      · exact h.shrunk

theorem Kept.expireExpiries (h : Kept notes p.sh) (nowS holdS : Nat) :
    Shrunk notes p.sh (p.expireExpiries c nowS holdS).sh := by
  unfold Part.expireExpiries
  split
  · exact h.expireExpiriesLoop nowS holdS _
  · exact h.shrunk

end Perfcached.Cluster
