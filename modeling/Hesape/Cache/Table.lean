import Mathlib.Logic.Function.Basic

/-!
# A map with deadlines

What a cache is: under each key a value and the moment it stops being one.  An entry past
its deadline answers nothing and gives way to whatever is written next, so a key is *free*
when it has no entry or an expired one.

Every operation writes under one key, or removes keys; `put_of_ne` and its siblings say that
no other key notices.  Two tables with the same live entries answer the same, now and later
(`Agree`), which is how a table that removes what has expired is compared with one that does
not.  A counter keeps the deadline it was created with: `increment` writes
the new value beside the old deadline.
-/

namespace Hesape.Cache

/-- One stored value and the moment it stops being one. -/
structure Entry (V : Type) where
  value : V
  expires : Nat
deriving DecidableEq

/-- Values that may hold a counter: `bump` reads the count and adds to it, `render` writes one. -/
class Counter (V : Type) where
  bump : V → Int → Option Int
  render : Int → V

/-- **The map a cache is**: an entry under each key, expired ones included. -/
abbrev Table (V : Type) := String → Option (Entry V)

namespace Table

variable {V : Type}

def empty : Table V := fun _ => none

/-- The entry under a key, unless its deadline has come. -/
def live (t : Table V) (now : Nat) (key : String) : Option (Entry V) :=
  (t key).filter fun e => now < e.expires

def get (t : Table V) (now : Nat) (key : String) : Option V :=
  (t.live now key).map Entry.value

def put (t : Table V) (key : String) (value : V) (expires : Nat) : Table V :=
  Function.update t key (some ⟨value, expires⟩)

/-- Writes only if the key is free, and says whether it did. -/
def add (t : Table V) (now : Nat) (key : String) (value : V) (expires : Nat) : Bool × Table V :=
  match t.live now key with
  | some _ => (false, t)
  | none => (true, t.put key value expires)

def forget (t : Table V) (key : String) : Table V :=
  Function.update t key none

/-- Adds to the counter under a key.  A free key starts at zero, with the given deadline; a
value that is no counter is left alone, and nothing is answered. -/
def increment [Counter V] (t : Table V) (now : Nat) (key : String) (delta : Int) (expires : Nat) :
    Option Int × Table V :=
  match t.live now key with
  | none => (some delta, t.put key (Counter.render delta) expires)
  | some e =>
    match Counter.bump e.value delta with
    | none => (none, t)
    | some n => (some n, t.put key (Counter.render n) e.expires)

/-- Gives a live entry another deadline, and says whether there was one. -/
def touch (t : Table V) (now : Nat) (key : String) (expires : Nat) : Bool × Table V :=
  match t.live now key with
  | none => (false, t)
  | some e => (true, t.put key e.value expires)

/-- Removes every key of a kind. -/
def drop (t : Table V) (kind : String → Bool) : Table V :=
  fun key => if kind key then none else t key

/-! ### Reading -/

variable {key other : String}

theorem live_eq_some {t : Table V} {now : Nat} {e : Entry V} :
    t.live now key = some e ↔ t key = some e ∧ now < e.expires := by
  simp [live, Option.filter_eq_some_iff]

theorem live_eq_none {t : Table V} {now : Nat} :
    t.live now key = none ↔ ∀ e, t key = some e → e.expires ≤ now := by
  simp [live, Option.filter_eq_none_iff]

theorem live_congr {t u : Table V} {now : Nat} (h : t key = u key) :
    t.live now key = u.live now key := by
  rw [live, h, live]

/-! ### Writing leaves the other keys alone -/

variable (t : Table V)
include t

@[simp] theorem put_self (key : String) (value : V) (expires : Nat) :
    t.put key value expires key = some ⟨value, expires⟩ :=
  Function.update_self ..

theorem put_of_ne (value : V) (expires : Nat) (h : other ≠ key) :
    t.put key value expires other = t other :=
  Function.update_of_ne h ..

@[simp] theorem forget_self (key : String) : t.forget key key = none :=
  Function.update_self ..

theorem forget_of_ne (h : other ≠ key) :
    t.forget key other = t other :=
  Function.update_of_ne h ..

theorem add_of_ne (now : Nat) (value : V) (expires : Nat)
    (h : other ≠ key) : (t.add now key value expires).2 other = t other := by
  unfold add
  split
  · rfl
  · exact put_of_ne t value expires h

theorem increment_of_ne [Counter V] (now : Nat) (delta : Int)
    (expires : Nat) (h : other ≠ key) :
    (t.increment now key delta expires).2 other = t other := by
  unfold increment
  split
  · exact put_of_ne t _ _ h
  · split
    · rfl
    · exact put_of_ne t _ _ h

theorem touch_of_ne (now : Nat) (expires : Nat) (h : other ≠ key) :
    (t.touch now key expires).2 other = t other := by
  unfold touch
  split
  · rfl
  · exact put_of_ne t _ _ h

theorem drop_of_not {kind : String → Bool} (h : kind key = false) :
    t.drop kind key = t key := by
  simp [drop, h]

/-! ### What is live after a write -/

theorem live_put (now : Nat) (key other : String) (value : V) (expires : Nat) :
    (t.put key value expires).live now other
      = if other = key then (if now < expires then some ⟨value, expires⟩ else none)
        else t.live now other := by
  by_cases h : other = key
  · subst h
    rw [if_pos rfl, live, put_self]
    split <;> simp_all
  · rw [if_neg h]
    exact live_congr (put_of_ne t value expires h)

theorem live_forget (now : Nat) (key other : String) :
    (t.forget key).live now other = if other = key then none else t.live now other := by
  by_cases h : other = key
  · subst h
    rw [if_pos rfl, live, forget_self]
    rfl
  · rw [if_neg h]
    exact live_congr (forget_of_ne t h)

theorem live_drop (now : Nat) (kind : String → Bool) (key : String) :
    (t.drop kind).live now key = if kind key then none else t.live now key := by
  by_cases h : kind key
  · rw [if_pos h, live, drop, if_pos h]
    rfl
  · rw [if_neg h]
    exact live_congr (drop_of_not t (Bool.eq_false_iff.mpr h))

/-- What is live later was live before. -/
theorem live_later {now later : Nat} (h : now ≤ later) (key : String) :
    t.live later key = (t.live now key).filter fun e => later < e.expires := by
  unfold live
  cases t key with
  | none => rfl
  | some e =>
    by_cases hlive : later < e.expires
    · have hnow : now < e.expires := Nat.lt_of_le_of_lt h hlive
      simp [Option.filter, hlive, hnow]
    · by_cases hnow : now < e.expires <;> simp [Option.filter, hlive, hnow]

omit t

/-- Two tables with the same live entries. -/
def Agree (now : Nat) (t u : Table V) : Prop := ∀ key, t.live now key = u.live now key

namespace Agree

variable {now : Nat} {t u w : Table V}

theorem refl (now : Nat) (t : Table V) : Agree now t t := fun _ => rfl

variable (h : Agree now t u)
include h

theorem trans (h' : Agree now u w) : Agree now t w :=
  fun key => (h key).trans (h' key)

theorem later {now' : Nat} (hle : now ≤ now') : Agree now' t u := by
  intro key
  rw [live_later t hle, live_later u hle, h key]

theorem put (key : String) (value : V) (expires : Nat) :
    Agree now (t.put key value expires) (u.put key value expires) := by
  intro other
  rw [live_put, live_put, h other]

theorem forget (key : String) : Agree now (t.forget key) (u.forget key) := by
  intro other
  rw [live_forget, live_forget, h other]

theorem drop (kind : String → Bool) : Agree now (t.drop kind) (u.drop kind) := by
  intro key
  rw [live_drop, live_drop, h key]

omit h

/-- Forgetting what is not live changes nothing. -/
theorem forget_dead {key : String} (h : t.live now key = none) : Agree now (t.forget key) t := by
  intro _
  rw [live_forget]
  split
  · next heq => rw [heq, h]
  · rfl

theorem get (h : Agree now t u) (key : String) : t.get now key = u.get now key := by
  rw [Table.get, Table.get, h key]

end Agree

end Table

end Hesape.Cache
