import Hesape.Cache.Table
import Mathlib.Data.Int.Basic

/-!
# Named locks

`Locks` issues locks over a store: a lock is an entry under its name that holds the token of
whoever took it, until its deadline.  `Acquire` writes one where none is live, `Release` removes
the entry only while its own token is on it.  Tokens are random and never come twice, so here
they are numbers counted up.

What `acquire` answers says what was there before (`acquire_ok`, `acquire_locked`), and an entry
leaves the table only by its own token (`release_keeps`, `release_sub`).  So a lock stays with its
holder until its deadline (`Holds`), whatever others take and give back.  An entry past its deadline
is left in the table, where it counts for nothing.
-/

namespace Hesape.Cache

/-- What `Acquire` fails with. -/
inductive LockError
  | noTTL
  | noName
  | locked

/-- The table of tokens, and the next one to be minted. -/
structure Locks where
  table : Table Nat
  minted : Nat

/-- The key a lock is stored under. -/
def lockKey (name : String) : String := "lock:" ++ name

theorem lockKey_inj {a b : String} (h : lockKey a = lockKey b) : a = b := by
  have hchars := congrArg String.toList h
  rw [lockKey, lockKey, String.toList_append, String.toList_append] at hchars
  exact String.toList_inj.mp (List.append_cancel_left hchars)

namespace Locks

variable (l : Locks)

/-- `Acquire`: the token the lock was taken with, or why it was not. -/
def acquire (now : Nat) (name : String) (ttl : Int) : Except LockError Nat × Locks :=
  if ttl ≤ 0 then (.error .noTTL, l)
  else if name = "" then (.error .noName, l)
  else match l.table.live now (lockKey name) with
    | some _ => (.error .locked, { l with minted := l.minted + 1 })
    | none => (.ok l.minted, ⟨l.table.put (lockKey name) l.minted (now + ttl.toNat), l.minted + 1⟩)

/-- `Release`, by the holder of a token. -/
def release (now : Nat) (name : String) (token : Nat) : Locks :=
  match l.table.live now (lockKey name) with
  | none => l
  | some e => if e.value = token then { l with table := l.table.forget (lockKey name) } else l

/-- Nothing is held with a token yet to be minted. -/
def Fresh : Prop := ∀ key e, l.table key = some e → e.value < l.minted

variable {l}
variable {now : Nat} {name : String} {ttl : Int} {token : Nat} {r : Locks}

/-- A lock that was taken was free, and is held from now on. -/
theorem acquire_ok (h : l.acquire now name ttl = (.ok token, r)) :
    0 < ttl ∧ l.table.live now (lockKey name) = none ∧ token = l.minted ∧
      r = ⟨l.table.put (lockKey name) l.minted (now + ttl.toNat), l.minted + 1⟩ := by
  unfold acquire at h
  split at h
  · cases h
  · next hpos =>
    split at h
    · cases h
    · split at h
      · cases h
      · next hfree =>
        cases h
        exact ⟨by omega, hfree, rfl, rfl⟩

/-- A lock that was not taken stays as it was. -/
theorem acquire_error {e : LockError} (h : l.acquire now name ttl = (.error e, r)) :
    r.table = l.table ∧ l.minted ≤ r.minted := by
  unfold acquire at h
  split at h
  · cases h
    exact ⟨rfl, Nat.le_refl _⟩
  · split at h
    · cases h
      exact ⟨rfl, Nat.le_refl _⟩
    · split at h
      · cases h
        exact ⟨rfl, Nat.le_succ _⟩
      · cases h

/-- A refused lock is held. -/
theorem acquire_locked (h : l.acquire now name ttl = (.error .locked, r)) :
    ∃ e, l.table.live now (lockKey name) = some e := by
  unfold acquire at h
  split at h
  · cases h
  · split at h
    · cases h
    · split at h
      · next e he => exact ⟨e, he⟩
      · cases h

/-- With a lifetime and a name there is no other refusal. -/
theorem acquire_error_eq (hpos : 0 < ttl) (hname : name ≠ "") {e : LockError}
    (h : l.acquire now name ttl = (.error e, r)) : e = .locked := by
  unfold acquire at h
  rw [if_neg (by omega), if_neg hname] at h
  split at h
  · cases h
    rfl
  · cases h

theorem release_minted : (l.release now name token).minted = l.minted := by
  unfold release
  split
  · rfl
  · split <;> rfl

variable {e : Entry Nat}

/-- A release adds nothing. -/
theorem release_sub {key : String} (h : (l.release now name token).table key = some e) :
    l.table key = some e := by
  unfold release at h
  split at h
  · exact h
  · split at h
    · by_cases hkey : key = lockKey name
      · subst hkey
        have h : (l.table.forget (lockKey name)) (lockKey name) = some e := h
        rw [Table.forget_self] at h
        cases h
      · exact (Table.forget_of_ne l.table hkey).symm.trans h
    · exact h

/-- A release removes its own token only. -/
theorem release_keeps {key : String} (h : l.table key = some e)
    (hother : key = lockKey name → e.value ≠ token) : (l.release now name token).table key = some e := by
  unfold release
  split
  · exact h
  · next x hx =>
    split
    · next htoken =>
      have hkey : key ≠ lockKey name := by
        rintro rfl
        have hx := (Table.live_eq_some.mp hx).1
        rw [h] at hx
        cases hx
        exact hother rfl htoken
      exact (Table.forget_of_ne l.table hkey).trans h
    · exact h

/-- After a release no live entry has its token. -/
theorem release_gone (h : (l.release now name token).table (lockKey name) = some e)
    (hlive : now < e.expires) : e.value ≠ token := by
  intro htoken
  have hthere := Table.live_eq_some.mpr ⟨release_sub h, hlive⟩
  unfold release at h
  rw [hthere] at h
  simp only [htoken, if_true] at h
  rw [Table.forget_self] at h
  cases h

/-- Until its deadline the lock is held with the token. -/
def Holds (l : Locks) (now : Nat) (name : String) (token expires : Nat) : Prop :=
  now < expires → l.table (lockKey name) = some ⟨token, expires⟩

namespace Holds

variable {expires : Nat}

variable (h : l.Holds now name token expires)
include h

theorem later (d : Nat) : l.Holds (now + d) name token expires :=
  fun hlive => h (by omega)

/-- Somebody takes a lock, or tries to. -/
theorem acquire {other : String} {ttl : Int} :
    (l.acquire now other ttl).2.Holds now name token expires := by
  intro hlive
  cases hr : l.acquire now other ttl with
  | mk answer r =>
    cases answer with
    | error =>
      show r.table _ = _
      rw [(acquire_error hr).1]
      exact h hlive
    | ok =>
      obtain ⟨-, hfree, -, rfl⟩ := acquire_ok hr
      have hne : lockKey name ≠ lockKey other := by
        intro hkey
        have hthere := Table.live_eq_some.mpr ⟨h hlive, hlive⟩
        rw [hkey, hfree] at hthere
        cases hthere
      exact (Table.put_of_ne _ _ _ hne).trans (h hlive)

/-- Somebody gives back another lock, or another token. -/
theorem release {other : String} {t : Nat}
    (hne : name = other → token ≠ t) : (l.release now other t).Holds now name token expires :=
  fun hlive => release_keeps (h hlive) fun hkey => hne (lockKey_inj hkey)

omit h

/-- What was taken is held. -/
theorem taken (h : l.acquire now name ttl = (.ok token, r)) : r.Holds now name token (now + ttl.toNat) := by
  obtain ⟨-, -, rfl, rfl⟩ := acquire_ok h
  exact fun _ => Table.put_self ..

/-- What is held is not free. -/
theorem not_free (h : l.Holds now name token expires) (hlive : now < expires) :
    l.table.live now (lockKey name) ≠ none := by
  rw [Table.live_eq_some.mpr ⟨h hlive, hlive⟩]
  exact nofun

end Holds

theorem Fresh.acquire (h : l.Fresh) (now : Nat) (name : String) (ttl : Int) : (l.acquire now name ttl).2.Fresh := by
  intro key e he
  cases hr : l.acquire now name ttl with
  | mk answer r =>
    rw [hr] at he
    cases answer with
    | error =>
      obtain ⟨htable, _⟩ := acquire_error hr
      have he : r.table key = some e := he
      rw [htable] at he
      have := h key e he
      show e.value < r.minted
      omega
    | ok =>
      obtain ⟨-, -, -, rfl⟩ := acquire_ok hr
      have he : l.table.put (lockKey name) l.minted (now + ttl.toNat) key = some e := he
      show e.value < l.minted + 1
      by_cases hkey : key = lockKey name
      · subst hkey
        rw [Table.put_self] at he
        cases he
        exact Nat.lt_succ_self _
      · rw [Table.put_of_ne _ _ _ hkey] at he
        have := h key e he
        omega

theorem Fresh.release (h : l.Fresh) (now : Nat) (name : String) (token : Nat) : (l.release now name token).Fresh := by
  intro key e he
  rw [release_minted]
  exact h key e (release_sub he)

end Locks

end Hesape.Cache
