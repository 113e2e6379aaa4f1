import Hesape.Run.Reach

/-!
# Sessions

A session is a record under an unguessable id, and `RecordStore` keeps records in a handler.
The handler's operations are atomic; the store's calls are not.  `Slide` and `Confirm` read the
record, change their copy and write it back whole, so any number of requests can come between
the two.  A call is therefore kept as the *point* it stands at: the operation it performs next,
with what it has read so far.  Reading the clock is a point of its own, since time passes there
too.

`step` lets the clock advance, a call begin, or a call perform its next operation.  Beside what
the source keeps, a state remembers whom each id was issued for, which ids have been signed out,
and which confirmations a renewal wrote over.

An id is 32 random bytes: the one `Start` mints is an id that was never issued and never named
by a sign-out.  The clock counts nanoseconds, and the zero time is `none`.
-/

namespace Hesape.Session

/-! ### Records and their handler -/

structure Record (T : Type) where
  payload : T
  tenant : String
  subjectID : String
  remembered : Bool := false
  passwordConfirmedAt : Option Int := none
  touchedAt : Option Int := none

inductive Error
  | noSession
  | expired
  | confirmationNotStored
  | noSubjectScope

structure ArrayEntry (T : Type) where
  record : Record T
  expires : Int

/-- The map `ArrayHandler` guards with its mutex. -/
abbrev ArrayHandler (T : Type) := String → Option (ArrayEntry T)

variable {T : Type}

namespace ArrayHandler

/-- An entry past its time is removed by the read that finds it. -/
def read (h : ArrayHandler T) (now : Int) (id : String) : Except Error (Record T) × ArrayHandler T :=
  match h id with
  | none => (.error .expired, h)
  | some e => if e.expires < now then (.error .expired, Function.update h id none) else (.ok e.record, h)

def write (h : ArrayHandler T) (now : Int) (id : String) (rec : Record T) (ttl : Int) : ArrayHandler T :=
  Function.update h id (some ⟨rec, now + ttl⟩)

def destroy (h : ArrayHandler T) (id : String) : ArrayHandler T :=
  Function.update h id none

/-- Removes every session of one subject of one tenant except `keepID`. -/
def destroyIndex (h : ArrayHandler T) (tenant subjectID keepID : String) :
    Except Error Unit × ArrayHandler T :=
  if tenant = "" ∨ subjectID = "" then (.error .noSubjectScope, h)
  else (.ok (), fun id =>
    if id = keepID then h id
    else (h id).filter fun e => e.record.tenant ≠ tenant || e.record.subjectID ≠ subjectID)

/-! A read finds what is there; it and the removals leave what is there or less. -/

variable {h : ArrayHandler T} {e : ArrayEntry T}

theorem read_ok {now : Int} {id : String} {rec : Record T} (hr : (h.read now id).1 = .ok rec) :
    ∃ e, h id = some e ∧ e.record = rec := by
  unfold read at hr
  split at hr
  · cases hr
  · next e he =>
    split at hr
    · cases hr
    · exact ⟨e, he, Except.ok.inj hr⟩

variable {id other : String}

theorem destroy_sub
    (he : h.destroy id other = some e) : other ≠ id ∧ h other = some e := by
  by_cases hid : other = id
  · subst hid
    rw [destroy, Function.update_self] at he
    cases he
  · rw [destroy, Function.update_of_ne hid] at he
    exact ⟨hid, he⟩

theorem read_sub {now : Int}
    (he : (h.read now id).2 other = some e) : h other = some e := by
  unfold read at he
  split at he
  · exact he
  · split at he
    · exact (destroy_sub he).2
    · exact he

variable {tenant subjectID keepID other : String}

theorem destroyIndex_sub
    (he : (h.destroyIndex tenant subjectID keepID).2 other = some e) : h other = some e := by
  unfold destroyIndex at he
  split at he
  · exact he
  · simp only at he
    split at he
    · exact he
    · exact (Option.filter_eq_some_iff.mp he).1

/-- What a successful `DestroyIndex` leaves is somebody else's, or the kept session. -/
theorem destroyIndex_other
    (hok : (h.destroyIndex tenant subjectID keepID).1 = .ok ())
    (he : (h.destroyIndex tenant subjectID keepID).2 other = some e) (hkeep : other ≠ keepID) :
    (e.record.tenant, e.record.subjectID) ≠ (tenant, subjectID) := by
  unfold destroyIndex at hok he
  split at he
  · next hempty =>
    rw [if_pos hempty] at hok
    cases hok
  · simp only [if_neg hkeep] at he
    have hne := (Option.filter_eq_some_iff.mp he).2
    rw [Bool.or_eq_true, decide_eq_true_eq, decide_eq_true_eq] at hne
    intro heq
    rw [Prod.mk.injEq] at heq
    exact hne.elim (· heq.1) (· heq.2)

end ArrayHandler

/-! ### The store -/

/-- What a store is configured with: the plain lifetime, and the keyed digest of an id. -/
structure RecordStore where
  ttl : Int
  sign : String → String

/-- What a response does with the session cookie. -/
structure Cookie where
  value : String
  maxAge : Int

/-- The session cookie of a request. -/
structure Request where
  cookie : Option String

def second : Int := 1000000000

/-- `RememberLifetime`: thirty days. -/
def rememberLifetime : Int := 30 * 24 * 60 * 60 * second

/-- The share of a lifetime that has to pass before `Slide` renews. -/
def slideEvery : Int := 10

namespace RecordStore

variable (st : RecordStore)

def lifetime (remembered : Bool) : Int :=
  if !remembered then st.ttl else if rememberLifetime < st.ttl then st.ttl else rememberLifetime

/-- `ID`: the part of the cookie before its first dot, when the rest is its signature. -/
def ID (r : Request) : String :=
  match r.cookie with
  | none => ""
  | some value =>
    let id := String.ofList (value.toList.takeWhile (· ≠ '.'))
    match value.toList.dropWhile (· ≠ '.') with
    | [] => ""
    | _ :: sig => if id = "" then "" else if st.sign id = String.ofList sig then id else ""

def writeCookie (id : String) (lifetime : Int) : Cookie :=
  ⟨id ++ "." ++ st.sign id, lifetime.tdiv second⟩

end RecordStore

/-- The cookie `Invalidate` leaves. -/
def clearedCookie : Cookie := ⟨"", -1⟩

/-! ### Calls -/

inductive Call (T : Type)
  | slide (r : Request) (rec : Record T)
  | confirm (r : Request)
  | regenerate (oldID : String) (rec : Record T) (remember : Bool)
  | invalidate (id : String)
  | destroyOthers (rec : Record T) (keepID : String)
  | all (r : Request)
  | «exists» (id : String)

/-- What a call that returned no error answers. -/
inductive Reply (T : Type)
  | nil
  | id (id : String)
  | record (rec : Record T)
  | found (yes : Bool)

/-- The operation a call performs next. -/
inductive Point (T : Type)
  | slideRead (id : String)
  | slideStamp (id : String) (fresh : Record T)
  | slideWrite (id : String) (fresh : Record T)
  | confirmRead (id : String)
  | confirmStamp (id : String) (rec : Record T)
  | confirmWrite (id : String) (rec : Record T)
  | confirmCheck (id : String) (life : Int)
  | start (rec : Record T) (oldID : String)
  | destroyOld (oldID id : String) (cookie : Cookie)
  | destroy (id : String)
  | destroyIndex (tenant subjectID keepID : String)
  | readAll (id : String)
  | readExists (id : String)
  | done (answer : Except Error (Reply T)) (cookie : Option Cookie)

/-- A renewal is due unless the record was touched within a tenth of the lifetime. -/
def recent (now life : Int) (touchedAt : Option Int) : Bool :=
  touchedAt.any fun touched => 0 ≤ now - touched && now - touched < life.tdiv slideEvery

/-- What a call does before its first operation. -/
def Call.first (st : RecordStore) (now : Int) : Call T → Point T
  | .slide r rec =>
    if rec.remembered then .done (.ok .nil) none
    else if recent now (st.lifetime false) rec.touchedAt then .done (.ok .nil) none
    else if st.ID r = "" then .done (.error .noSession) none
    else .slideRead (st.ID r)
  | .confirm r => if st.ID r = "" then .done (.error .noSession) none else .confirmRead (st.ID r)
  | .regenerate oldID rec remember =>
    .start { rec with remembered := remember, passwordConfirmedAt := none, touchedAt := some now } oldID
  | .invalidate id => if id = "" then .done (.ok .nil) (some clearedCookie) else .destroy id
  | .destroyOthers rec keepID =>
    if rec.subjectID = "" ∨ rec.tenant = "" then .done (.error .noSubjectScope) none
    else .destroyIndex rec.tenant rec.subjectID keepID
  | .all r => if st.ID r = "" then .done (.error .noSession) none else .readAll (st.ID r)
  | .exists id => if id = "" then .done (.ok (.found false)) none else .readExists id

/-- `Slide` after its read: a remembered session keeps the lifetime it has. -/
def slideRead (id : String) : Except Error (Record T) → Point T
  | .error e => .done (.error e) none
  | .ok fresh => if fresh.remembered then .done (.ok .nil) none else .slideStamp id fresh

def confirmRead (id : String) : Except Error (Record T) → Point T
  | .error e => .done (.error e) none
  | .ok rec => .confirmStamp id rec

/-- `Confirm` reads the stamp back, and only asks whether there is one. -/
def confirmCheck (st : RecordStore) (id : String) (life : Int) : Except Error (Record T) → Point T
  | .error e => .done (.error e) none
  | .ok written =>
    if written.passwordConfirmedAt.isNone then .done (.error .confirmationNotStored) none
    else .done (.ok .nil) (some (st.writeCookie id life))

/-- `Regenerate` after `Start`. -/
def started (st : RecordStore) (id oldID : String) (life : Int) : Point T :=
  if oldID ≠ "" ∧ oldID ≠ id then .destroyOld oldID id (st.writeCookie id life)
  else .done (.ok (.id id)) (some (st.writeCookie id life))

/-! ### The system -/

/-- A call under way: where it stands, the stamp its confirmation has written under an id, and
whether a renewal wrote over that stamp. -/
structure Party (T : Type) where
  point : Point T
  stamped : Option (String × Int) := none
  undone : Bool := false

structure State (T : Type) where
  now : Int
  handler : ArrayHandler T
  parties : List (Party T)
  /-- The tenant and the subject an id was issued for. -/
  owners : String → Option (String × String)
  signedOut : String → Bool

inductive Action (T : Type)
  | tick (d : Nat)
  | begin (call : Call T)
  /-- A call performs its next operation; `newID` is what `newID` answers, should it be asked. -/
  | perform (i : Nat) (newID : String)

/-- The record was confirmed at `stamp` or later. -/
def Record.confirmedSince (rec : Record T) (stamp : Int) : Bool :=
  rec.passwordConfirmedAt.any fun at_ => stamp ≤ at_

/-- A renewal writes `fresh` under `id`: the confirmation is undone if it stood until now. -/
def Party.overwritten (h : ArrayHandler T) (id : String) (fresh : Record T) (p : Party T) : Party T :=
  match p.stamped with
  | none => p
  | some (other, stamp) =>
    if other = id ∧ (h id).any (·.record.confirmedSince stamp) = true ∧ fresh.confirmedSince stamp = false then
      { p with undone := true }
    else p

namespace State

variable (st : RecordStore) (s : State T)

/-- The id is not one that was issued, or that somebody signed out. -/
def fresh (id : String) : Bool := id ≠ "" && (s.owners id).isNone && !s.signedOut id

/-- Party `i` goes on to `point`, with the handler as it is then. -/
def move (i : Nat) (p : Party T) (point : Point T) (handler : ArrayHandler T) : State T :=
  { s with handler := handler, parties := s.parties.set i { p with point := point } }

def perform (i : Nat) (newID : String) (p : Party T) : Option (State T) :=
  match p.point with
  | .slideRead id =>
    some (s.move i p (slideRead id (s.handler.read s.now id).1) (s.handler.read s.now id).2)
  | .slideStamp id fresh => some (s.move i p (.slideWrite id { fresh with touchedAt := some s.now }) s.handler)
  | .slideWrite id fresh =>
    some ({ s with parties := s.parties.map (Party.overwritten s.handler id fresh) }.move i p
      (.done (.ok .nil) (some (st.writeCookie id (st.lifetime false))))
      (s.handler.write s.now id fresh (st.lifetime false)))
  | .confirmRead id =>
    some (s.move i p (confirmRead id (s.handler.read s.now id).1) (s.handler.read s.now id).2)
  | .confirmStamp id rec =>
    some (s.move i p (.confirmWrite id { rec with passwordConfirmedAt := some s.now, touchedAt := some s.now })
      s.handler)
  | .confirmWrite id rec =>
    some (s.move i { p with stamped := rec.passwordConfirmedAt.map fun at_ => (id, at_) }
      (.confirmCheck id (st.lifetime rec.remembered)) (s.handler.write s.now id rec (st.lifetime rec.remembered)))
  | .confirmCheck id life =>
    some (s.move i p (confirmCheck st id life (s.handler.read s.now id).1) (s.handler.read s.now id).2)
  | .start rec oldID =>
    if s.fresh newID then
      some ({ s with owners := Function.update s.owners newID (some (rec.tenant, rec.subjectID)) }.move i p
        (started st newID oldID (st.lifetime rec.remembered))
        (s.handler.write s.now newID rec (st.lifetime rec.remembered)))
    else none
  | .destroyOld oldID id cookie => some (s.move i p (.done (.ok (.id id)) (some cookie)) (s.handler.destroy oldID))
  | .destroy id =>
    some ({ s with signedOut := Function.update s.signedOut id true }.move i p
      (.done (.ok .nil) (some clearedCookie)) (s.handler.destroy id))
  | .destroyIndex tenant subjectID keepID =>
    match s.handler.destroyIndex tenant subjectID keepID with
    | (.error e, h) => some (s.move i p (.done (.error e) none) h)
    | (.ok (), h) =>
      some ({ s with signedOut := fun id =>
                s.signedOut id || (id ≠ keepID && s.owners id = some (tenant, subjectID)) }.move i p
        (.done (.ok .nil) none) h)
  | .readAll id =>
    some (s.move i p (.done ((s.handler.read s.now id).1.map .record) none) (s.handler.read s.now id).2)
  | .readExists id =>
    some (s.move i p (.done (.ok (.found (s.handler.read s.now id).1.isOk)) none) (s.handler.read s.now id).2)
  | .done .. => none

def step : Action T → Option (State T)
  | .tick d => some { s with now := s.now + d }
  | .begin call => some { s with parties := s.parties ++ [{ point := call.first st s.now }] }
  | .perform i newID => s.parties[i]?.bind (s.perform st i newID)

/-- A handler with the given entries, before any call. -/
def initial (now : Int) (handler : ArrayHandler T) : State T where
  now := now
  handler := handler
  parties := []
  owners := fun id => (handler id).map fun e => (e.record.tenant, e.record.subjectID)
  signedOut := fun _ => false

/-- Whether `Read` answers a record for the id, which is what `All` and `Exists` ask. -/
def holds (id : String) : Bool := (s.handler.read s.now id).1.isOk

end State

end Hesape.Session
