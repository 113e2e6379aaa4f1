import Mathlib.Data.String.Basic

/-!
# Maps walked in key order

A map whose entries are only ever read in the order of their keys is a list of entries with
increasing keys.  `KeyMap` carries that order, so that two maps with the same keys are read
in the same order whatever way they were filled.
-/

namespace Hesape.Sql

open List

section Entries

variable {A B : Type}

/-- The entries with `k` set to `a`. -/
def insertEntry (k : String) (a : A) : List (String × A) → List (String × A)
  | [] => [(k, a)]
  | (l, b) :: r =>
    if k < l then (k, a) :: (l, b) :: r
    else if k = l then (k, a) :: r
    else (l, b) :: insertEntry k a r

theorem key_mem_insertEntry {k : String} {a : A} : ∀ {es : List (String × A)} {p : String × A},
    p ∈ insertEntry k a es → p.1 = k ∨ p ∈ es := by
  intro es
  induction es with
  | nil => intro p hp; exact .inl (by simp [insertEntry] at hp; rw [hp])
  | cons e r ih =>
    intro p hp
    obtain ⟨l, b⟩ := e
    simp only [insertEntry] at hp
    split at hp
    · rcases mem_cons.mp hp with rfl | hp
      · exact .inl rfl
      · exact .inr hp
    · split at hp
      · rcases mem_cons.mp hp with rfl | hp
        · exact .inl rfl
        · exact .inr (mem_cons_of_mem _ hp)
      · rcases mem_cons.mp hp with rfl | hp
        · exact .inr mem_cons_self
        · exact (ih hp).imp_right (mem_cons_of_mem _)

theorem mem_insertEntry_self (k : String) (a : A) (es : List (String × A)) :
    (k, a) ∈ insertEntry k a es := by
  induction es with
  | nil => exact mem_cons_self
  | cons e r ih =>
    rw [insertEntry]
    split
    · exact mem_cons_self
    · split
      · exact mem_cons_self
      · exact mem_cons_of_mem _ ih

theorem insertEntry_sorted {k : String} {a : A} : ∀ {es : List (String × A)},
    es.Pairwise (fun p q => p.1 < q.1) → (insertEntry k a es).Pairwise fun p q => p.1 < q.1 := by
  intro es
  induction es with
  | nil => intro _; simp [insertEntry]
  | cons e r ih =>
    intro h
    obtain ⟨l, b⟩ := e
    obtain ⟨hl, hr⟩ := pairwise_cons.mp h
    simp only [insertEntry]
    split
    · next hk =>
      refine pairwise_cons.mpr ⟨?_, h⟩
      intro p hp
      rcases mem_cons.mp hp with rfl | hp
      · exact hk
      · exact lt_trans hk (hl p hp)
    · split
      · next hk => subst hk; exact pairwise_cons.mpr ⟨hl, hr⟩
      · next hk hne =>
        refine pairwise_cons.mpr ⟨?_, ih hr⟩
        intro p hp
        rcases key_mem_insertEntry hp with hpk | hp
        · rw [hpk]; exact lt_of_le_of_ne (not_lt.mp hk) (Ne.symm hne)
        · exact hl p hp

theorem lookup_of_mem_nodup : ∀ {es : List (String × A)}, (es.map Prod.fst).Nodup → ∀ {e}, e ∈ es →
    es.lookup e.1 = some e.2 := by
  intro es
  induction es with
  | nil => intro _ e he; simp at he
  | cons a es ih =>
    intro hn e he
    rw [map_cons, nodup_cons] at hn
    rcases mem_cons.mp he with rfl | he
    · rw [lookup_cons_self]
    · have hne : e.1 ≠ a.1 := fun h => hn.1 (h ▸ mem_map_of_mem he)
      rw [lookup_cons, beq_eq_false_iff_ne.mpr hne]
      exact ih hn.2 he

end Entries

/-- A map by its entries in key order. -/
structure KeyMap (A : Type) where
  entries : List (String × A)
  sorted : entries.Pairwise fun p q => p.1 < q.1

namespace KeyMap

variable {A B : Type}

def empty : KeyMap A := ⟨[], .nil⟩

def insert (m : KeyMap A) (k : String) (a : A) : KeyMap A :=
  ⟨insertEntry k a m.entries, insertEntry_sorted m.sorted⟩

def filter (p : String → A → Bool) (m : KeyMap A) : KeyMap A :=
  ⟨m.entries.filter fun e => p e.1 e.2, m.sorted.filter _⟩

def map (f : String → A → B) (m : KeyMap A) : KeyMap B :=
  ⟨m.entries.map fun e => (e.1, f e.1 e.2), List.pairwise_map.mpr m.sorted⟩

/-- The entries of `n` over those of `m`. -/
def merge (m n : KeyMap A) : KeyMap A := n.entries.foldl (fun m e => m.insert e.1 e.2) m

/-- A map filled in any order. -/
def ofList (es : List (String × A)) : KeyMap A := es.foldl (fun m e => m.insert e.1 e.2) empty

def keys (m : KeyMap A) : List String := m.entries.map Prod.fst

theorem lookup_of_mem {m : KeyMap A} {e : String × A} (h : e ∈ m.entries) :
    m.entries.lookup e.1 = some e.2 :=
  lookup_of_mem_nodup ((pairwise_map.mpr m.sorted).imp ne_of_lt) h

end KeyMap

end Hesape.Sql
