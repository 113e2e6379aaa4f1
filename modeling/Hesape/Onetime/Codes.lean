import Hesape.Cache.Table
import Hesape.Run.Reach

/-!
# One-time codes

`Issue` writes a record of a fresh code for a purpose and a subject; `Consume` spends one.
Both talk to the cache one operation at a time, and any number of them run at once, so a
client is kept as the *point* it stands at: the operation it performs next, with the locals
it needs after it.  `Client.next` is what a client does at its point, and `step` lets the
clock advance, a client begin, or a client perform its next operation.

The cache is the map of `Cache.Table`.  An operation on it can fail, before or after it took
effect (`Fault`), and the client sees only the error.

`Hashing` is the keyed digest: no two lists of fields share one.  The clock counts
nanoseconds; a record keeps milliseconds, as the source does.
-/

namespace Hesape.Onetime

open Hesape.Cache (Entry Counter Table)
open List

/-- Nanoseconds in a millisecond. -/
def millisecond : Nat := 1000000

/-- `t.UnixMilli()`. -/
def unixMilli (t : Nat) : Nat := t / millisecond

/-! ### Settings -/

/-- What the package is told. -/
structure Config where
  ttl : Int := 0
  cooldown : Int := 0
  maxAttempts : Int := 0
  maxFailures : Int := 0
  failureWindow : Int := 0

/-- The settings in force: every one of them positive. -/
structure Codes where
  ttl : Nat
  cooldown : Nat
  maxAttempts : Nat
  maxFailures : Nat
  failureWindow : Nat
  ttl_pos : 0 < ttl
  cooldown_pos : 0 < cooldown
  maxAttempts_pos : 0 < maxAttempts
  maxFailures_pos : 0 < maxFailures
  failureWindow_pos : 0 < failureWindow

def defaultTTL : Nat := 10 * 60 * 1000 * millisecond
def defaultCooldown : Nat := 60 * 1000 * millisecond
def defaultMaxAttempts : Nat := 5
def defaultMaxFailures : Nat := 20
def defaultFailureWindow : Nat := 24 * 60 * 60 * 1000 * millisecond

/-- A setting of zero is the default. -/
def orDefault (n : Int) (default : Nat) : Nat := if n = 0 then default else n.toNat

theorem orDefault_pos {n : Int} {default : Nat} (hn : ¬ n < 0) (hd : 0 < default) :
    0 < orDefault n default := by
  unfold orDefault
  split <;> omega

inductive ConfigError
  | shortKey (length : Nat)
  | negative (what : String) (value : Int)

/-- The shortest application key, in bytes. -/
def minKeyLen : Nat := 32

/-- `New`: negative settings are refused, missing ones get their default. -/
def new (keyLength : Nat) (cfg : Config) : Except ConfigError Codes :=
  if keyLength < minKeyLen then .error (.shortKey keyLength)
  else if ht : cfg.ttl < 0 then .error (.negative "ttl" cfg.ttl)
  else if hc : cfg.cooldown < 0 then .error (.negative "cooldown" cfg.cooldown)
  else if ha : cfg.maxAttempts < 0 then .error (.negative "attempts" cfg.maxAttempts)
  else if hf : cfg.maxFailures < 0 then .error (.negative "failures" cfg.maxFailures)
  else if hw : cfg.failureWindow < 0 then .error (.negative "failure window" cfg.failureWindow)
  else .ok {
    ttl := orDefault cfg.ttl defaultTTL
    cooldown := orDefault cfg.cooldown defaultCooldown
    maxAttempts := orDefault cfg.maxAttempts defaultMaxAttempts
    maxFailures := orDefault cfg.maxFailures defaultMaxFailures
    failureWindow := orDefault cfg.failureWindow defaultFailureWindow
    ttl_pos := orDefault_pos ht (by decide)
    cooldown_pos := orDefault_pos hc (by decide)
    maxAttempts_pos := orDefault_pos ha (by decide)
    maxFailures_pos := orDefault_pos hf (by decide)
    failureWindow_pos := orDefault_pos hw (by decide) }

/-! ### Digests and keys -/

/-- The keyed digest of a label and its fields, and the hexadecimal text of its first half.
Neither has a collision. -/
structure Hashing (Mac : Type) where
  mac : String → List String → Mac
  hex16 : Mac → String
  mac_inj : ∀ {l l' : String} {fs fs' : List String}, mac l fs = mac l' fs' → l = l' ∧ fs = fs'
  hex16_inj : ∀ {m m' : Mac}, hex16 m = hex16 m' → m = m'
  colon_notMem_hex16 : ∀ m : Mac, ':' ∉ (hex16 m).toList

variable {Mac : Type}

namespace Hashing

variable (h : Hashing Mac)

/-- The opaque name of one purpose-and-subject pair. -/
def scope (purpose subject : String) : String := h.hex16 (h.mac "scope" [purpose, subject])

/-- The digest of a code, bound to the purpose, the subject and the issue it belongs to. -/
def digest (purpose subject nonce code : String) : Mac := h.mac "code" [purpose, subject, nonce, code]

theorem scope_inj {p s p' s' : String} (e : h.scope p s = h.scope p' s') : p = p' ∧ s = s' := by
  have hf := (h.mac_inj (h.hex16_inj e)).2
  simpa using hf

theorem digest_inj {p s n c p' s' n' c' : String} (e : h.digest p s n c = h.digest p' s' n' c') :
    p = p' ∧ s = s' ∧ n = n' ∧ c = c' := by
  have hf := (h.mac_inj e).2
  simpa using hf

theorem colon_notMem_scope (p s : String) : ':' ∉ (h.scope p s).toList := h.colon_notMem_hex16 _

end Hashing

/-! The assumption can be met: a digest that keeps its fields, written out without colons. -/

/-- A character, with the colon and the escape sign itself escaped. -/
def escape (x : Char) : List Char :=
  if x = ':' then ['~', 'c'] else if x = '~' then ['~', '~'] else [x]

/-- A field, with its end marked. -/
def escapeField (s : String) : List Char := s.toList.flatMap escape ++ ['~', 'e']

variable {u v : List Char}

theorem escape_cancel {x y : Char} (e : escape x ++ u = escape y ++ v) :
    x = y ∧ u = v := by
  unfold escape at e
  grind

/-- No character looks like the end of a field. -/
theorem escape_ne_end {x : Char} : escape x ++ u ≠ '~' :: 'e' :: v := by
  unfold escape
  grind

theorem escape_append_inj : ∀ {a b : List Char},
    a.flatMap escape ++ '~' :: 'e' :: u = b.flatMap escape ++ '~' :: 'e' :: v → a = b ∧ u = v := by
  intro a
  induction a with
  | nil =>
    intro b hab
    cases b with
    | nil => exact ⟨rfl, by simpa using hab⟩
    | cons =>
      rw [flatMap_cons, append_assoc] at hab
      exact absurd hab.symm escape_ne_end
  | cons x a ih =>
    intro b hab
    rw [flatMap_cons, append_assoc] at hab
    cases b with
    | nil => exact absurd hab escape_ne_end
    | cons =>
      rw [flatMap_cons, append_assoc] at hab
      obtain ⟨hxy, hrest⟩ := escape_cancel hab
      obtain ⟨hl, hr⟩ := ih hrest
      exact ⟨by rw [hxy, hl], hr⟩

theorem escapeField_append_inj {s t : String}
    (hst : escapeField s ++ u = escapeField t ++ v) : s = t ∧ u = v := by
  simp only [escapeField, append_assoc, cons_append, nil_append] at hst
  obtain ⟨hl, hr⟩ := escape_append_inj hst
  exact ⟨String.toList_inj.mp hl, hr⟩

theorem flatMap_escapeField_inj : ∀ {fs gs : List String},
    fs.flatMap escapeField = gs.flatMap escapeField → fs = gs := by
  intro fs
  induction fs with
  | nil =>
    intro gs hfg
    cases gs with
    | nil => rfl
    | cons => simp [escapeField] at hfg
  | cons f _ ih =>
    intro gs hfg
    cases gs with
    | nil => simp [escapeField] at hfg
    | cons =>
      rw [flatMap_cons, flatMap_cons] at hfg
      obtain ⟨hl, hr⟩ := escapeField_append_inj hfg
      rw [hl, ih hr]

theorem colon_notMem_escapeField (s : String) : ':' ∉ escapeField s := by
  intro hmem
  simp only [escapeField, mem_append, mem_flatMap, escape] at hmem
  rcases hmem with ⟨x, -, hx⟩ | hend
  · split at hx
    · simp at hx
    · split at hx
      · simp at hx
      · next hcolon _ => exact hcolon (mem_singleton.mp hx).symm
  · simp at hend

/-- The digest that is its own fields. -/
def Hashing.plain : Hashing (List String) where
  mac label fields := label :: fields
  hex16 m := String.ofList (m.flatMap escapeField)
  mac_inj := List.cons.inj
  hex16_inj e := flatMap_escapeField_inj (String.ofList_injective e)
  colon_notMem_hex16 m := by
    rw [String.toList_ofList]
    intro hmem
    obtain ⟨s, -, hs⟩ := List.mem_flatMap.mp hmem
    exact colon_notMem_escapeField s hs

def recordKey (scope : String) : String := "onetime:code:" ++ scope
def attemptKey (scope nonce : String) : String := "onetime:attempts:" ++ scope ++ ":" ++ nonce
def spentKey (scope nonce : String) : String := "onetime:spent:" ++ scope ++ ":" ++ nonce
def failureKey (scope : String) : String := "onetime:failures:" ++ scope

/-! ### Records and the values a store holds -/

/-- What one outstanding code looks like in the store. -/
structure Record (Mac : Type) where
  nonce : String
  digest : Mac
  issuedAt : Nat
  expiresAt : Nat
deriving DecidableEq

/-- When the code stops working. -/
def Record.deadline (r : Record Mac) : Nat := r.expiresAt * millisecond

/-- The bytes under a key: a record, or a number (the spent marker is the text `1`). -/
inductive Value (Mac : Type)
  | record (r : Record Mac)
  | number (n : Int)
deriving DecidableEq

instance : Counter (Value Mac) where
  bump
    | .record _, _ => none
    | .number n, delta => some (n + delta)
  render := .number

abbrev Store (Mac : Type) := Table (Value Mac)

/-! ### Clients -/

inductive Err
  | noPurpose
  | noSubject
  | invalidCode
  | noCode
  | expired
  | tooManyFailures
  | tooManyAttempts
  | cooldown (retryAfter : Nat)
  | unavailable (during : String)
  | randomness
deriving DecidableEq

/-- A call, with its arguments. -/
inductive Call
  | issue (purpose subject : String)
  | consume (purpose subject code : String)
deriving DecidableEq

def Call.purpose : Call → String
  | .issue purpose _ => purpose
  | .consume purpose _ _ => purpose

def Call.subject : Call → String
  | .issue _ subject => subject
  | .consume _ subject _ => subject

/-- What a call returned: a fresh code, nil at some moment for the record that was spent, or an
error. -/
inductive Answer (Mac : Type)
  | issued (code : String) (fresh : Record Mac)
  | spent (outstanding : Record Mac) (moment : Nat)
  | refused (e : Err)
deriving DecidableEq

/-- Where a call stands: the operation it performs next, and the locals it still needs.
`window` is no local of the source: it notes until when the failure counter runs that counted
this attempt. -/
inductive Point (Mac : Type)
  | issueGet (now : Nat)
  | issuePut (code : String) (fresh : Record Mac)
  | consumeGet
  | consumeClock (outstanding : Record Mac)
  | countFailure (outstanding : Record Mac) (remaining : Nat)
  | countAttempt (outstanding : Record Mac) (remaining window : Nat)
  | giveBack (outstanding : Record Mac) (remaining window : Nat)
  | burn (outstanding : Record Mac) (remaining : Nat)
  | housekeep (outstanding : Record Mac)
  | done (answer : Answer Mac)
deriving DecidableEq

/-- One comparison of a presented code with a record's digest: against which record, with what
outcome, and the deadline of the failure counter that was running, if one was. -/
structure Comparison (Mac : Type) where
  outstanding : Record Mac
  matched : Bool
  window : Option Nat

/-- A call in progress or finished.  `drawn` and `compared` note what it has done: the code and
record it made, and the comparison it made. -/
structure Client (Mac : Type) where
  call : Call
  point : Point Mac
  drawn : Option (String × Record Mac) := none
  compared : Option (Comparison Mac) := none

/-- How an operation on the store fails: not at all, before it took effect, or after. -/
inductive Fault
  | none
  | before
  | after

/-- The reply to an operation, and the store after it; no reply is an error. -/
def Fault.through {α : Type} (fault : Fault) (store : Store Mac) (op : α × Store Mac) :
    Option α × Store Mac :=
  match fault with
  | .none => (some op.1, op.2)
  | .before => (Option.none, store)
  | .after => (Option.none, op.2)

/-- What the random source gives: a code and a nonce. -/
structure Draw where
  code : String
  nonce : String

def Client.refuse (cl : Client Mac) (e : Err) : Client Mac := { cl with point := .done (.refused e) }

def Client.goTo (cl : Client Mac) (p : Point Mac) : Client Mac := { cl with point := p }

/-- A call before its first operation.  `Issue` reads the clock here. -/
def Call.start (call : Call) (now : Nat) : Client Mac :=
  match call with
  | .issue purpose subject =>
    if purpose = "" then { call, point := .done (.refused .noPurpose) }
    else if subject = "" then { call, point := .done (.refused .noSubject) }
    else { call, point := .issueGet now }
  | .consume purpose subject code =>
    if purpose = "" then { call, point := .done (.refused .noPurpose) }
    else if subject = "" then { call, point := .done (.refused .noSubject) }
    else if code = "" then { call, point := .done (.refused .invalidCode) }
    else { call, point := .consumeGet }

section Next

variable [DecidableEq Mac] (c : Codes) (h : Hashing Mac)

def freshRecord (purpose subject : String) (now : Nat) (draw : Draw) : Record Mac where
  nonce := draw.nonce
  digest := h.digest purpose subject draw.nonce draw.code
  issuedAt := unixMilli now
  expiresAt := unixMilli (now + c.ttl)

namespace Client

variable (cl : Client Mac) (now : Nat) (store : Store Mac) (fault : Fault)

/-- The scope of the purpose and subject a client was called with. -/
def scope : String := h.scope cl.call.purpose cl.call.subject

/-- `Issue` draws a code and a nonce. -/
def generate (start : Nat) : Option Draw → Client Mac
  | none => cl.refuse .randomness
  | some draw =>
    let fresh := freshRecord c h cl.call.purpose cl.call.subject start draw
    { cl with point := .issuePut draw.code fresh, drawn := some (draw.code, fresh) }

/-- `Issue` reads the outstanding record, for the cooldown. -/
def readOutstanding (start : Nat) (draw : Option Draw) : Client Mac × Store Mac :=
  match fault.through store (store.get now (recordKey (cl.scope h)), store) with
  | (none, after) => (cl.refuse (.unavailable "reading the outstanding code"), after)
  | (some (some (.record previous)), after) =>
    if start < previous.issuedAt * millisecond + c.cooldown then
      (cl.refuse (.cooldown (previous.issuedAt * millisecond + c.cooldown - start)), after)
    else (cl.generate c h start draw, after)
  -- Bytes that are no record say nothing about when the last code went out.
  | (some (some (.number _)), after) => (cl.generate c h start draw, after)
  | (some none, after) => (cl.generate c h start draw, after)

/-- `Issue` writes the record, for the longer of the two deadlines. -/
def writeRecord (code : String) (fresh : Record Mac) : Client Mac × Store Mac :=
  match fault.through store ((),
      store.put (recordKey (cl.scope h)) (.record fresh) (now + max c.ttl c.cooldown)) with
  | (none, after) => (cl.refuse (.unavailable "writing the code"), after)
  | (some (), after) => (cl.goTo (.done (.issued code fresh)), after)

/-- `Consume` reads the record. -/
def readRecord : Client Mac × Store Mac :=
  match fault.through store (store.get now (recordKey (cl.scope h)), store) with
  | (none, after) => (cl.refuse (.unavailable "reading the code"), after)
  | (some none, after) => (cl.refuse .noCode, after)
  | (some (some (.number _)), after) =>
    (cl.refuse (.unavailable "the stored record is unreadable"), after)
  | (some (some (.record outstanding)), after) => (cl.goTo (.consumeClock outstanding), after)

/-- `Consume` reads the clock, and refuses an expired code. -/
def readClock (outstanding : Record Mac) : Client Mac :=
  if outstanding.deadline ≤ now then cl.refuse .expired
  else cl.goTo (.countFailure outstanding (outstanding.deadline - now))

/-- The deadline of the failure counter that is running. -/
def failureDeadline : Option Nat := (store.live now (failureKey (cl.scope h))).map Entry.expires

/-- `Consume` counts against the failure budget of the purpose and subject. -/
def countFailure (outstanding : Record Mac) (remaining : Nat) : Client Mac × Store Mac :=
  match fault.through store
      (store.increment now (failureKey (cl.scope h)) 1 (now + c.failureWindow)) with
  | (some (some failures), after) =>
    if failures > c.maxFailures then (cl.refuse .tooManyFailures, after)
    else (cl.goTo (.countAttempt outstanding remaining
      ((cl.failureDeadline h now after).getD now)), after)
  | (_, after) => (cl.refuse (.unavailable "counting the failure"), after)

/-- The code a `Consume` was called with. -/
def presented : String :=
  match cl.call with
  | .issue _ _ => ""
  | .consume _ _ code => code

/-- `hmac.Equal` of the record's digest and the digest of the presented code. -/
def matching (outstanding : Record Mac) : Bool :=
  outstanding.digest = h.digest cl.call.purpose cl.call.subject outstanding.nonce cl.presented

/-- The client once it has compared. -/
def compare (outstanding : Record Mac) (remaining window : Nat) (running : Option Nat) :
    Client Mac :=
  { cl with
    point := if cl.matching h outstanding then .giveBack outstanding remaining window
      else .done (.refused .invalidCode)
    compared := some ⟨outstanding, cl.matching h outstanding, running⟩ }

/-- `Consume` counts the attempt on the code, and compares only if it was counted. -/
def countAttempt (outstanding : Record Mac) (remaining window : Nat) : Client Mac × Store Mac :=
  match fault.through store
      (store.increment now (attemptKey (cl.scope h) outstanding.nonce) 1 (now + remaining)) with
  | (some (some attempts), after) =>
    if attempts > c.maxAttempts then (cl.refuse .tooManyAttempts, after)
    else (cl.compare h outstanding remaining window (cl.failureDeadline h now after), after)
  | (_, after) => (cl.refuse (.unavailable "counting the attempt"), after)

/-- A right code takes its count back; an error here is ignored. -/
def giveBack (outstanding : Record Mac) (remaining : Nat) : Client Mac × Store Mac :=
  (cl.goTo (.burn outstanding remaining), (fault.through store
    (store.increment now (failureKey (cl.scope h)) (-1) (now + c.failureWindow))).2)

/-- `Consume` spends the code: of all that get here, the one that writes the marker. -/
def burn (outstanding : Record Mac) (remaining : Nat) : Client Mac × Store Mac :=
  match fault.through store
      (store.add now (spentKey (cl.scope h) outstanding.nonce) (.number 1) (now + remaining)) with
  | (none, after) => (cl.refuse (.unavailable "spending the code"), after)
  | (some false, after) => (cl.refuse .noCode, after)
  | (some true, after) => (cl.goTo (.housekeep outstanding), after)

/-- `Consume` removes the record, whatever comes of it, and returns nil. -/
def housekeep (outstanding : Record Mac) : Client Mac × Store Mac :=
  (cl.goTo (.done (.spent outstanding now)),
    (fault.through store ((), store.forget (recordKey (cl.scope h)))).2)

/-- **What a client does next**, at its point. -/
def next (draw : Option Draw) : Client Mac × Store Mac :=
  match cl.point with
  | .issueGet start => cl.readOutstanding c h now store fault start draw
  | .issuePut code fresh => cl.writeRecord c h now store fault code fresh
  | .consumeGet => cl.readRecord h now store fault
  | .consumeClock outstanding => (cl.readClock now outstanding, store)
  | .countFailure outstanding remaining => cl.countFailure c h now store fault outstanding remaining
  | .countAttempt outstanding remaining window =>
    cl.countAttempt c h now store fault outstanding remaining window
  | .giveBack outstanding remaining _ => cl.giveBack c h now store fault outstanding remaining
  | .burn outstanding remaining => cl.burn h now store fault outstanding remaining
  | .housekeep outstanding => cl.housekeep h now store fault outstanding
  | .done _ => (cl, store)

end Client

end Next

/-! ### The system -/

/-- Any number of clients over one store. -/
structure State (Mac : Type) where
  now : Nat
  store : Store Mac
  clients : List (Client Mac)

def State.initial (now : Nat) : State Mac := ⟨now, Table.empty, []⟩

/-- What can happen: time passes, a call begins, or a client performs its next operation, which
may fail, and for which the random source has something to give or not. -/
inductive Action
  | tick (d : Nat)
  | call (call : Call)
  | go (i : Nat) (fault : Fault) (draw : Option Draw)

/-- The nonce of the record a client made. -/
def Client.drawnNonce (cl : Client Mac) : Option String := cl.drawn.map fun d => d.2.nonce

/-- A nonce is sixteen random bytes: no two draws give the same. -/
def State.drawable (s : State Mac) (draw : Option Draw) : Bool :=
  draw.all fun d => s.clients.all fun cl => cl.drawnNonce != some d.nonce

def State.move (s : State Mac) (i : Nat) (r : Client Mac × Store Mac) : State Mac :=
  ⟨s.now, r.2, s.clients.set i r.1⟩

def step [DecidableEq Mac] (c : Codes) (h : Hashing Mac) (s : State Mac) : Action → Option (State Mac)
  | .tick d => some { s with now := s.now + d }
  | .call call => some { s with clients := s.clients ++ [call.start s.now] }
  | .go i fault draw =>
    match s.clients[i]? with
    | none => none
    | some cl =>
      if s.drawable draw then some (s.move i (cl.next c h s.now s.store fault draw)) else none

end Hesape.Onetime
