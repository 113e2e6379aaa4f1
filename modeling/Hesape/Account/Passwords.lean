import Hesape.Run.Reach

/-!
# Passwords of an account

The calls that read and write the password of one account, each in the steps that are atomic by
themselves: a read of the row, a statement outside a transaction, a transaction.

`VerifyCredentials` reads the row, checks the password and, if the hash is due, writes a new one by
the account's id.  `ChangePassword` confirms the current password on one read and then replaces the
hash of a second; `ResetPassword` and `SetPassword` replace the hash they read.  All three go
through `replacePassword`, which writes only where the hash is still the one that was read.
`Close` confirms the password and then writes a secret's hash, by the account's id.

A hash knows what was hashed and carries a number no other hash has.  Any call may be refused or
fail at any step, and then has written nothing.  What a state remembers beside the source is the log
of the replacements that committed, the last one first.
-/

namespace Hesape.Account

/-- What `hashing.Make` answers: `Check` holds for the password that was hashed, and no two are equal. -/
structure Hash where
  plain : String
  number : Nat
deriving DecidableEq

/-- `hashing.Check`. -/
def Hash.check (h : Hash) (plain : String) : Bool := h.plain = plain

/-- What is read and written of the account's row. -/
structure Row where
  email : String
  hash : Hash

inductive Call (F : Type)
  | verifyCredentials (email password : String)
  | changePassword (current next : String)
  | resetPassword (capturedEmail : String) (capturedFingerprint : F) (newPassword : String)
  | setPassword (email password : String)
  /-- The secret is the one the call draws. -/
  | close (password secret : String)
deriving DecidableEq

/-- Where a call stands. -/
inductive Place
  | begun
  /-- The password was right and its hash is due: before the statement that rewrites it. -/
  | rehashing
  /-- `ConfirmPassword` found the password right. -/
  | confirmed
  /-- In `replacePassword`, with the hash that was read. -/
  | replacing (read : Hash)
  | ended

/-- One replacement that committed. -/
structure Commit (F : Type) where
  call : Call F
  old : Hash

/-- An account and the calls made about it. -/
structure World (F : Type) where
  id : String
  email : String
  /-- The password of the hash the row has first. -/
  first : String
  calls : Nat → Call F
  /-- `NeedsRehash`. -/
  needsRehash : Hash → Bool
  fingerprint : Hash → F
  fingerprint_inj : Function.Injective fingerprint

structure State (F : Type) where
  row : Row
  /-- The number of the next hash to be made. -/
  made : Nat
  places : Nat → Place
  log : List (Commit F)

inductive Action
  | next (i : Nat)
  | fail (i : Nat)

def closedEmail (id : String) : String := "closed+" ++ id ++ "@accounts.invalid"

variable {F : Type}

namespace State

variable (s : State F)

def go (i : Nat) (p : Place) : State F := { s with places := Function.update s.places i p }

/-- The row with a new hash, made for a call that ends with it. -/
def write (i : Nat) (email plain : String) (log : List (Commit F)) : State F :=
  ⟨⟨email, ⟨plain, s.made⟩⟩, s.made + 1, Function.update s.places i .ended, log⟩

/-- The transaction of `replacePassword`. -/
def replacePassword (i : Nat) (call : Call F) (read : Hash) (plain : String) : State F :=
  if s.row.hash = read then s.write i s.row.email plain (⟨call, read⟩ :: s.log)
  else { s.go i .ended with made := s.made + 1 }

end State

def World.initial (w : World F) : State F := ⟨⟨w.email, ⟨w.first, 0⟩⟩, 1, fun _ => .begun, []⟩

variable [DecidableEq F]

def step (w : World F) (s : State F) : Action → Option (State F)
  | .fail i => some (s.go i .ended)
  | .next i =>
    match w.calls i, s.places i with
    | .verifyCredentials email password, .begun =>
      if s.row.email = email ∧ s.row.hash.check password ∧ w.needsRehash s.row.hash then some (s.go i .rehashing)
      else some (s.go i .ended)
    | .verifyCredentials _ password, .rehashing => some (s.write i s.row.email password s.log)
    | .changePassword current _, .begun =>
      some (s.go i (if s.row.hash.check current then .confirmed else .ended))
    | .changePassword _ _, .confirmed => some (s.go i (.replacing s.row.hash))
    | .changePassword current next, .replacing read =>
      some (s.replacePassword i (.changePassword current next) read next)
    | .resetPassword email fingerprint _, .begun =>
      if s.row.email = email ∧ w.fingerprint s.row.hash = fingerprint then some (s.go i (.replacing s.row.hash))
      else some (s.go i .ended)
    | .resetPassword email fingerprint new, .replacing read =>
      some (s.replacePassword i (.resetPassword email fingerprint new) read new)
    | .setPassword email _, .begun =>
      some (s.go i (if s.row.email = email then .replacing s.row.hash else .ended))
    | .setPassword email password, .replacing read =>
      some (s.replacePassword i (.setPassword email password) read password)
    | .close password _, .begun =>
      some (s.go i (if s.row.hash.check password then .confirmed else .ended))
    | .close password secret, .confirmed =>
      some (s.write i (closedEmail w.id) secret (⟨.close password secret, s.row.hash⟩ :: s.log))
    | _, _ => none

/-! ### What is said of a log -/

/-- The password a call leaves behind when it commits. -/
def Call.given : Call F → String
  | .verifyCredentials _ password => password
  | .changePassword _ next => next
  | .resetPassword _ _ newPassword => newPassword
  | .setPassword _ password => password
  | .close _ secret => secret

/-- The password a call is given as the current one. -/
def Call.current? : Call F → Option String
  | .changePassword current _ => some current
  | .close password _ => some password
  | .verifyCredentials _ _ | .resetPassword _ _ _ | .setPassword _ _ => none

/-- The fingerprint a reset was made with. -/
def Call.captured? : Call F → Option F
  | .resetPassword _ fingerprint _ => some fingerprint
  | .verifyCredentials _ _ | .changePassword _ _ | .setPassword _ _ | .close _ _ => none

/-- The password that was given last. -/
def lastGiven (first : String) : List (Commit F) → String
  | [] => first
  | c :: _ => c.call.given

/-- **A password that was replaced is not back.** -/
structure Replaced (w : World F) (s : State F) : Prop where
  /-- The stored hash is one of the password that was given last. -/
  stored : s.row.hash.plain = lastGiven w.first s.log
  /-- What was replaced was a hash of the password given as the current one. -/
  proved : ∀ c ∈ s.log, ∀ current, c.call.current? = some current → c.old.check current = true
  /-- A captured fingerprint resets one password. -/
  once : ∀ f, s.log.countP (·.call.captured? = some f) ≤ 1

end Hesape.Account
