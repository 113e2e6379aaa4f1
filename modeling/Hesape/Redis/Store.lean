import Mathlib.Data.List.Sort

/-!
# Sorted sets under watch

A store of the kind Redis is: sorted sets under keys, one hash, and for every key a count of the
times its set was changed.  A client that watches a key remembers the count, and its transaction
goes through only while the count is still the same.  `Since` says what that buys: a key whose
count has not moved has the members it had.

Many programs keep their records in such a store, each record's body in the hash and its id in one
of the sets, the one that says how the record stands.  `Whole` is that discipline, and the lemmas
after it say which changes keep it: moving an id that was in a set, writing its body, removing both,
adding a new one, dropping a whole set with its bodies.
-/

namespace Hesape.Redis

open List

/-- One member of one sorted set. -/
structure Member (K : Type) where
  key : K
  id : String
  score : Nat

structure Store (K B : Type) where
  members : List (Member K) := []
  fields : String → Option B := fun _ => none
  versions : K → Nat := fun _ => 0

namespace Store

variable {K B : Type} [DecidableEq K]

/-! ### The commands -/

def has (st : Store K B) (k : K) (id : String) : Bool :=
  st.members.any fun m => m.key = k && m.id = id

def zscore (st : Store K B) (k : K) (id : String) : Option Nat :=
  (st.members.find? fun m => m.key = k && m.id = id).map (·.score)

/-- The order of a sorted set: by score, members of one score by name. -/
def precedes (m n : Member K) : Bool := m.score < n.score || (m.score = n.score && m.id ≤ n.id)

def zrange (st : Store K B) (k : K) : List String :=
  ((st.members.filter (·.key = k)).insertionSort (precedes · ·)).map (·.id)

def zrangebyscore (st : Store K B) (k : K) (max : Nat) : List String :=
  ((st.members.filter fun m => m.key = k && m.score ≤ max).insertionSort (precedes · ·)).map (·.id)

def touch (st : Store K B) (k : K) : Store K B :=
  { st with versions := Function.update st.versions k (st.versions k + 1) }

/-- A member that already has the score leaves the set, and its watchers, alone. -/
def zadd (st : Store K B) (k : K) (id : String) (score : Nat) : Store K B :=
  if st.zscore k id = some score then st
  else touch { st with members := st.members.filter (fun m => ¬(m.key = k ∧ m.id = id)) ++ [⟨k, id, score⟩] } k

def zrem (st : Store K B) (k : K) (id : String) : Store K B :=
  if st.has k id then touch { st with members := st.members.filter fun m => ¬(m.key = k ∧ m.id = id) } k
  else st

def del (st : Store K B) (k : K) : Store K B :=
  if st.members.any (·.key = k) then touch { st with members := st.members.filter fun m => m.key ≠ k } k
  else st

def hset (st : Store K B) (id : String) (body : B) : Store K B :=
  { st with fields := Function.update st.fields id (some body) }

def hdel (st : Store K B) (ids : List String) : Store K B :=
  { st with fields := fun id => if id ∈ ids then none else st.fields id }

/-! ### What a command leaves -/

variable {st : Store K B}

theorem has_iff {k : K} {id : String} :
    st.has k id ↔ ∃ m ∈ st.members, m.key = k ∧ m.id = id := by
  simp [has]

theorem zscore_isSome {k : K} {id : String} {score : Nat}
    (h : st.zscore k id = some score) : st.has k id := by
  obtain ⟨m, hm, -⟩ := Option.map_eq_some_iff.mp h
  have hid := find?_some hm
  exact any_eq_true.mpr ⟨m, mem_of_find?_eq_some hm, hid⟩

@[simp] theorem has_touch (st : Store K B) (k k' : K) (id : String) :
    (st.touch k).has k' id = st.has k' id := rfl

@[simp] theorem has_hset (st : Store K B) (k : K) (id id' : String) (body : B) :
    (st.hset id body).has k id' = st.has k id' := rfl

@[simp] theorem has_hdel (st : Store K B) (k : K) (ids : List String) (id : String) :
    (st.hdel ids).has k id = st.has k id := rfl

theorem has_zadd (st : Store K B) (k : K) (id : String) (score : Nat) (k' : K) (id' : String) :
    (st.zadd k id score).has k' id' ↔ st.has k' id' ∨ (k' = k ∧ id' = id) := by
  unfold zadd
  split
  · next h =>
    refine ⟨.inl, ?_⟩
    rintro (h' | ⟨rfl, rfl⟩)
    · exact h'
    · exact zscore_isSome h
  · rw [has_touch, has_iff, has_iff]
    constructor
    · rintro ⟨m, hm, rfl, rfl⟩
      rcases mem_append.mp hm with hm | hm
      · exact .inl ⟨m, (mem_filter.mp hm).1, rfl, rfl⟩
      · rw [mem_singleton.mp hm]
        exact .inr ⟨rfl, rfl⟩
    · rintro (⟨m, hm, rfl, rfl⟩ | ⟨rfl, rfl⟩)
      · by_cases he : m.key = k ∧ m.id = id
        · exact ⟨⟨k, id, score⟩, by simp, he.1.symm, he.2.symm⟩
        · exact ⟨m, mem_append_left _ (mem_filter.mpr ⟨hm, decide_eq_true he⟩), rfl, rfl⟩
      · exact ⟨_, mem_append_right _ (mem_singleton_self _), rfl, rfl⟩

theorem has_filter (st : Store K B) (p : K → String → Prop) [∀ k id, Decidable (p k id)] (k : K) (id : String) :
    { st with members := st.members.filter fun m => p m.key m.id }.has k id ↔ st.has k id ∧ p k id := by
  rw [has_iff, has_iff]
  constructor
  · rintro ⟨m, hm, rfl, rfl⟩
    obtain ⟨hm, hp⟩ := mem_filter.mp hm
    exact ⟨⟨m, hm, rfl, rfl⟩, of_decide_eq_true hp⟩
  · rintro ⟨⟨m, hm, rfl, rfl⟩, hp⟩
    exact ⟨m, mem_filter.mpr ⟨hm, decide_eq_true hp⟩, rfl, rfl⟩

theorem has_zrem (st : Store K B) (k : K) (id : String) (k' : K) (id' : String) :
    (st.zrem k id).has k' id' ↔ st.has k' id' ∧ ¬(k' = k ∧ id' = id) := by
  unfold zrem
  split
  · exact st.has_filter (fun m i => ¬(m = k ∧ i = id)) k' id'
  · next h =>
    refine ⟨fun h' => ⟨h', ?_⟩, fun h' => h'.1⟩
    rintro ⟨rfl, rfl⟩
    exact h h'

theorem has_del (st : Store K B) (k k' : K) (id : String) :
    (st.del k).has k' id ↔ st.has k' id ∧ k' ≠ k := by
  unfold del
  split
  · exact st.has_filter (fun m _ => m ≠ k) k' id
  · next h =>
    refine ⟨fun h' => ⟨h', ?_⟩, fun h' => h'.1⟩
    rintro rfl
    obtain ⟨m, hm, hk, -⟩ := has_iff.mp h'
    exact h (any_eq_true.mpr ⟨m, hm, by simpa using hk⟩)

@[simp] theorem fields_zadd (st : Store K B) (k : K) (id : String) (score : Nat) :
    (st.zadd k id score).fields = st.fields := by
  unfold zadd
  split <;> rfl

@[simp] theorem fields_zrem (st : Store K B) (k : K) (id : String) :
    (st.zrem k id).fields = st.fields := by
  unfold zrem
  split <;> rfl

@[simp] theorem fields_del (st : Store K B) (k : K) : (st.del k).fields = st.fields := by
  unfold del
  split <;> rfl

omit [DecidableEq K] in
theorem fields_hset (st : Store K B) (id : String) (body : B) (id' : String) :
    (st.hset id body).fields id' = if id' = id then some body else st.fields id' := by
  simp [hset, Function.update_apply]

omit [DecidableEq K] in
theorem fields_hdel (st : Store K B) (ids : List String) (id : String) :
    (st.hdel ids).fields id = if id ∈ ids then none else st.fields id := rfl

/-! ### Watching -/

/-- A later store: the counts have not gone back, and a set whose count has not moved has the
members it had. -/
structure Since (st st' : Store K B) : Prop where
  grows : ∀ k, st.versions k ≤ st'.versions k
  same : ∀ k, st'.versions k = st.versions k → ∀ id, st'.has k id = st.has k id

namespace Since

theorem refl (st : Store K B) : Since st st := ⟨fun _ => Nat.le_refl _, fun _ _ _ => rfl⟩

theorem trans {st st' st'' : Store K B} (h : Since st st') (g : Since st' st'') : Since st st'' where
  grows k := (h.grows k).trans (g.grows k)
  same k hk id := by
    have h1 := h.grows k
    have h2 := g.grows k
    rw [g.same k (by omega) id, h.same k (by omega) id]

/-- A change to one set that moves its count. -/
theorem touch {st st' : Store K B} {k : K} (hv : st'.versions = st.versions)
    (hh : ∀ k', k' ≠ k → ∀ id, st'.has k' id = st.has k' id) : Since st (st'.touch k) where
  grows k' := by
    simp only [Store.touch, hv, Function.update_apply]
    split <;> simp_all
  same k' hk id := by
    by_cases he : k' = k
    · subst he
      simp [Store.touch, hv] at hk
    · exact hh k' he id

theorem zadd (st : Store K B) (k : K) (id : String) (score : Nat) :
    Since st (st.zadd k id score) := by
  have hh := has_zadd st k id score
  unfold Store.zadd at hh ⊢
  split
  · exact .refl st
  · next hne =>
    rw [if_neg hne] at hh
    refine .touch rfl fun k' hk id' => Bool.eq_iff_iff.mpr ?_
    rw [← has_touch _ k, hh]
    simp [hk]

theorem zrem (st : Store K B) (k : K) (id : String) : Since st (st.zrem k id) := by
  have hh := has_zrem st k id
  unfold Store.zrem at hh ⊢
  split
  · next hin =>
    rw [if_pos hin] at hh
    refine .touch rfl fun k' hk id' => Bool.eq_iff_iff.mpr ?_
    rw [← has_touch _ k, hh]
    simp [hk]
  · exact .refl st

theorem del (st : Store K B) (k : K) : Since st (st.del k) := by
  have hh := has_del st k
  unfold Store.del at hh ⊢
  split
  · next hin =>
    rw [if_pos hin] at hh
    refine .touch rfl fun k' hk id => Bool.eq_iff_iff.mpr ?_
    rw [← has_touch _ k, hh]
    simp [hk]
  · exact .refl st

theorem hset (st : Store K B) (id : String) (body : B) : Since st (st.hset id body) :=
  ⟨fun _ => Nat.le_refl _, fun _ _ _ => rfl⟩

theorem hdel (st : Store K B) (ids : List String) : Since st (st.hdel ids) :=
  ⟨fun _ => Nat.le_refl _, fun _ _ _ => rfl⟩

end Since

/-! ### Every record in its set -/

/-- No id is in two sets. -/
def Single (st : Store K B) : Prop :=
  ∀ k k' id, st.has k id = true → st.has k' id = true → k = k'

/-- **Every record is whole**: its id is in one set and it has its body. -/
structure Whole (st : Store K B) : Prop where
  single : st.Single
  bodies : ∀ k id, st.has k id = true → (st.fields id).isSome = true
  placed : ∀ id, (st.fields id).isSome = true → ∃ k, st.has k id = true

variable (h : st.Single)
include h

theorem Single.hset (id : String) (body : B) :
    (st.hset id body).Single := h

theorem Single.hdel (ids : List String) : (st.hdel ids).Single := h

theorem Single.zrem (k : K) (id : String) : (st.zrem k id).Single :=
  fun k₁ k₂ id' h₁ h₂ =>
    h k₁ k₂ id' ((has_zrem st k id k₁ id').mp h₁).1 ((has_zrem st k id k₂ id').mp h₂).1

theorem Single.del (k : K) : (st.del k).Single :=
  fun k₁ k₂ id h₁ h₂ => h k₁ k₂ id ((has_del st k k₁ id).mp h₁).1 ((has_del st k k₂ id).mp h₂).1

theorem Single.zadd {id : String}
    (free : ∀ k, st.has k id = false) (k : K) (score : Nat) : (st.zadd k id score).Single := by
  intro k₁ k₂ id' h₁ h₂
  have h₁ := (has_zadd st k id score k₁ id').mp h₁
  have h₂ := (has_zadd st k id score k₂ id').mp h₂
  by_cases he : id' = id
  · subst he
    simp only [free, Bool.false_eq_true, false_or] at h₁ h₂
    exact h₁.1.trans h₂.1.symm
  · simp only [he, and_false, or_false] at h₁ h₂
    exact h k₁ k₂ id' h₁ h₂

/-- An id that is taken out of its set is in none. -/
theorem Single.free_zrem {k : K} {id : String}
    (hk : st.has k id) (k' : K) : (st.zrem k id).has k' id = false := by
  rw [Bool.eq_false_iff, Ne, has_zrem]
  rintro ⟨hk', hne⟩
  exact hne ⟨h k' k id hk' hk, rfl⟩

theorem Single.move {k : K} {id : String}
    (hk : st.has k id) (k' : K) (score : Nat) : ((st.zrem k id).zadd k' id score).Single :=
  (h.zrem k id).zadd (h.free_zrem hk) k' score

/-- Where an id is after it was moved: the moved one in its new set, the others where they were. -/
theorem has_move {k : K} {id : String} (hk : st.has k id)
    (k' : K) (score : Nat) (l : K) (id' : String) :
    ((st.zrem k id).zadd k' id score).has l id' ↔
      (id' = id ∧ l = k') ∨ (id' ≠ id ∧ st.has l id') := by
  rw [has_zadd]
  by_cases he : id' = id
  · subst he
    rw [h.free_zrem hk]
    simp
  · simp [has_zrem, he]

theorem Single.free_move {k k' l : K} {id : String}
    (hk : st.has k id) (hl : l ≠ k') (score : Nat) :
    ((st.zrem k id).zadd k' id score).has l id = false := by
  rw [Bool.eq_false_iff, Ne, has_move h hk]
  simp [hl]

omit h

theorem Whole.hset (h : st.Whole) {k : K} {id : String} (hk : st.has k id)
    (body : B) : (st.hset id body).Whole := by
  refine ⟨h.single, fun k' id' hk' => ?_, fun id' hb => ?_⟩
  · rw [fields_hset]
    split
    · rfl
    · exact h.bodies k' id' hk'
  · rw [fields_hset] at hb
    split at hb
    · next he =>
      subst he
      exact ⟨k, hk⟩
    · exact h.placed id' hb

theorem Whole.move (h : st.Whole) {k : K} {id : String} (hk : st.has k id)
    (k' : K) (score : Nat) : ((st.zrem k id).zadd k' id score).Whole := by
  refine ⟨h.single.move hk k' score, fun l id' hl => ?_, fun id' hb => ?_⟩
  · rw [fields_zadd, fields_zrem]
    rcases (has_move h.single hk k' score l id').mp hl with ⟨rfl, -⟩ | ⟨-, hl⟩
    · exact h.bodies k _ hk
    · exact h.bodies l id' hl
  · rw [fields_zadd, fields_zrem] at hb
    by_cases he : id' = id
    · exact ⟨k', (has_move h.single hk k' score k' id').mpr (.inl ⟨he, rfl⟩)⟩
    · obtain ⟨l, hl⟩ := h.placed id' hb
      exact ⟨l, (has_move h.single hk k' score l id').mpr (.inr ⟨he, hl⟩)⟩

theorem Whole.remove (h : st.Whole) {k : K} {id : String} (hk : st.has k id) :
    ((st.zrem k id).hdel [id]).Whole := by
  refine ⟨(h.single.zrem k id).hdel [id], fun l id' hl => ?_, fun id' hb => ?_⟩
  · have hne : id' ≠ id := by
      rintro rfl
      rw [has_hdel, h.single.free_zrem hk] at hl
      cases hl
    rw [fields_hdel, if_neg (by simpa using hne), fields_zrem]
    exact h.bodies l id' ((has_zrem st k id l id').mp hl).1
  · rw [fields_hdel] at hb
    split at hb
    · cases hb
    · next hne =>
      rw [fields_zrem] at hb
      obtain ⟨l, hl⟩ := h.placed id' hb
      exact ⟨l, (has_zrem st k id l id').mpr ⟨hl, fun he => hne (by simp [he.2])⟩⟩

theorem Whole.add (h : st.Whole) {id : String} (free : ∀ k, st.has k id = false)
    (body : B) (k : K) (score : Nat) : ((st.hset id body).zadd k id score).Whole := by
  refine ⟨(h.single.hset id body).zadd free k score, fun l id' hl => ?_, fun id' hb => ?_⟩
  · rw [fields_zadd, fields_hset]
    split
    · rfl
    · next hne =>
      rcases (has_zadd _ k id score l id').mp hl with hl | ⟨-, he⟩
      · exact h.bodies l id' hl
      · exact absurd he hne
  · rw [fields_zadd, fields_hset] at hb
    split at hb
    · next he => exact ⟨k, (has_zadd _ k id score k id').mpr (.inr ⟨rfl, he⟩)⟩
    · obtain ⟨l, hl⟩ := h.placed id' hb
      exact ⟨l, (has_zadd _ k id score l id').mpr (.inl hl)⟩

/-- A set may be dropped with the bodies of `ids` when every member is among them and the others
have no body. -/
theorem Whole.wipe (h : st.Whole) {k : K} {ids : List String}
    (all : ∀ id, st.has k id → id ∈ ids)
    (only : ∀ id ∈ ids, st.has k id ∨ st.fields id = none) : ((st.hdel ids).del k).Whole := by
  refine ⟨(h.single.hdel ids).del k, fun l id hl => ?_, fun id hb => ?_⟩
  · obtain ⟨hl, hne⟩ := (has_del _ k l id).mp hl
    have hb := h.bodies l id hl
    rw [fields_del, fields_hdel, if_neg, hb]
    intro hid
    rcases only id hid with hk | hn
    · exact hne (h.single l k id hl hk)
    · rw [hn] at hb
      cases hb
  · rw [fields_del, fields_hdel] at hb
    split at hb
    · cases hb
    · next hid =>
      obtain ⟨l, hl⟩ := h.placed id hb
      refine ⟨l, (has_del _ k l id).mpr ⟨hl, ?_⟩⟩
      rintro rfl
      exact hid (all id hl)

end Store

end Hesape.Redis
