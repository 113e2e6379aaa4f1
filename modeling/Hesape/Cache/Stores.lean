import Hesape.Cache.FileEntry
import Hesape.Cache.Store
import Hesape.Text.Like
import Hesape.Text.Segments

/-!
# Three stores

The calls of the `Store` interface, made on a map in the process (`ArrayStore`), on entry files
(`FileStore`) and on the rows of a table (`DatabaseStore`), and what one map with deadlines
answers to them (`answer`).

A call may read the clock more than once.  `clk` gives the readings of one call in the order of
the source: `clk 0` the first, `clk 1` the second.  The files of a `FileStore` are told apart
by a hash of the key, taken to have no collisions, so they are named by the key here.  Of the
database a `Dialect` says what its statements come to.
-/

namespace Hesape.Cache.Stores

open Hesape.Text (hasPrefix like escaped)

inductive Call
  | put (key value : String) (ttl : Int)
  | add (key value : String) (ttl : Int)
  | get (key : String)
  | many (keys : List String)
  | forget (key : String)
  | increment (key : String) (delta ttl : Int)
  | touch (key : String) (ttl : Int)
  | flush (start : String)

inductive Answer
  | done
  | flag (b : Bool)
  | value (value : Option String)
  | values (values : List (String × Option String))
  | count (n : Int)
  | noTTL
  | notACounter (key : String)
  | changedMeanwhile (key : String)
  /-- The error of a statement the database does not take. -/
  | refused
deriving DecidableEq

/-- The call gets as far as a statement that names a key. -/
def Call.namesKey : Call → Bool
  | .put _ _ ttl | .add _ _ ttl | .increment _ _ ttl | .touch _ ttl => 0 < ttl
  | .get _ | .forget _ => true
  | .many keys => keys ≠ []
  | .flush start => start ≠ ""

/-- The readings of the clock during one call. -/
abbrev Clock := Nat → Nat

/-! ### One map -/

/-- **What one map with deadlines answers**, its deadlines rounded. -/
def answer (round : Nat → Nat) (now : Nat) (call : Call) (t : Table String) : Answer × Table String :=
  match call with
  | .put key value ttl =>
    if ttl ≤ 0 then (.noTTL, t) else (.done, t.put key value (round (now + ttl.toNat)))
  | .add key value ttl =>
    if ttl ≤ 0 then (.noTTL, t)
    else
      let (added, t') := t.add now key value (round (now + ttl.toNat))
      (.flag added, t')
  | .get key => (.value (t.get now key), t)
  | .many keys => (.values (keys.map fun key => (key, t.get now key)), t)
  | .forget key => (.done, t.forget key)
  | .increment key delta ttl =>
    if ttl ≤ 0 then (.noTTL, t)
    else
      match t.increment now key delta (round (now + ttl.toNat)) with
      | (some n, t') => (.count n, t')
      | (none, t') => (.notACounter key, t')
  | .touch key ttl =>
    if ttl ≤ 0 then (.noTTL, t)
    else
      let (found, t') := t.touch now key (round (now + ttl.toNat))
      (.flag found, t')
  | .flush start => (.done, t.drop (hasPrefix · start))

/-! ### In the process -/

namespace ArrayStore

/-- An entry, dropped if it has expired. -/
def live (t : Table String) (now : Nat) (key : String) : Option (Entry String) × Table String :=
  match t key with
  | none => (none, t)
  | some e => if e.expires ≤ now then (none, t.forget key) else (some e, t)

def many : List String → Clock → Table String → List (String × Option String) × Table String
  | [], _, t => ([], t)
  | key :: keys, clk, t =>
    let (found, t) := live t (clk 0) key
    let (rest, t) := many keys (fun i => clk (i + 1)) t
    ((key, found.map Entry.value) :: rest, t)

def exec (clk : Clock) (call : Call) (t : Table String) : Answer × Table String :=
  match call with
  | .put key value ttl =>
    if ttl ≤ 0 then (.noTTL, t) else (.done, t.put key value (clk 0 + ttl.toNat))
  | .add key value ttl =>
    if ttl ≤ 0 then (.noTTL, t)
    else
      match live t (clk 0) key with
      | (some _, t) => (.flag false, t)
      | (none, t) => (.flag true, t.put key value (clk 1 + ttl.toNat))
  | .get key =>
    let (found, t) := live t (clk 0) key
    (.value (found.map Entry.value), t)
  | .many keys =>
    let (values, t) := many keys clk t
    (.values values, t)
  | .forget key => (.done, t.forget key)
  | .increment key delta ttl =>
    if ttl ≤ 0 then (.noTTL, t)
    else
      let expires := clk 0 + ttl.toNat
      match live t (clk 1) key with
      | (none, t) => (.count delta, t.put key (Counter.render delta) expires)
      | (some e, t) =>
        match Counter.bump e.value delta with
        | none => (.notACounter key, t)
        | some n => (.count n, t.put key (Counter.render n) e.expires)
  | .touch key ttl =>
    if ttl ≤ 0 then (.noTTL, t)
    else
      match live t (clk 0) key with
      | (none, t) => (.flag false, t)
      | (some e, t) => (.flag true, t.put key e.value (clk 1 + ttl.toNat))
  | .flush start => (.done, t.drop (hasPrefix · start))

end ArrayStore

/-! ### On disk -/

/-- The entry files, by the key their path is the hash of. -/
abbrev Files := String → Option String

/-- What goes with a value that `Flexible` keeps. -/
def flexibleCreatedKey (key : String) : String := "flexible:created:" ++ key

namespace FileStore

def delete (files : Files) (key : String) : Files := Function.update files key none

/-- The value of an entry and how long it has left. -/
def payload (files : Files) (key : String) (clk : Clock) : Option (String × Int) × Files :=
  match files key with
  | none => (none, files)
  | some raw =>
    match decodeFileEntry raw with
    | none => (none, delete files key)
    | some entry =>
      if entry.key ≠ key then (none, delete files key)
      else if entry.expires ≤ clk 0 then (none, delete files key)
      else (some (entry.value, entry.expires - clk 1), files)

def write (files : Files) (key value : String) (now : Nat) (ttl : Int) : Files :=
  Function.update files key (some (encodeFileEntry key value (now + ttl).toNat))

def many : List String → Clock → Files → List (String × Option String) × Files
  | [], _, files => ([], files)
  | key :: keys, clk, files =>
    let (found, files) := payload files key clk
    let (rest, files) := many keys (fun i => clk (i + 2)) files
    ((key, found.map Prod.fst) :: rest, files)

/-- `Add` tries twice: the first time it may find a file that has expired, and the second time there
is none. -/
def add (files : Files) (key value : String) (ttl : Int) (clk : Clock) : Bool × Files :=
  match files key with
  | none => (true, write files key value (clk 0) ttl)
  | some _ =>
    match payload files key fun i => clk (i + 1) with
    | (some _, files) => (false, files)
    | (none, files) => (true, write (delete files key) key value (clk 3) ttl)

def exec (clk : Clock) (call : Call) (files : Files) : Answer × Files :=
  match call with
  | .put key value ttl =>
    if ttl ≤ 0 then (.noTTL, files) else (.done, write files key value (clk 0) ttl)
  | .add key value ttl =>
    if ttl ≤ 0 then (.noTTL, files)
    else
      let (added, files) := add files key value ttl clk
      (.flag added, files)
  | .get key =>
    let (found, files) := payload files key clk
    (.value (found.map Prod.fst), files)
  | .many keys =>
    let (values, files) := many keys clk files
    (.values values, files)
  | .forget key => (.done, delete (delete files key) (flexibleCreatedKey key))
  | .increment key delta ttl =>
    if ttl ≤ 0 then (.noTTL, files)
    else
      match payload files key clk with
      | (none, files) => (.count delta, write files key (Counter.render delta) (clk 2) ttl)
      | (some (value, left), files) =>
        match Counter.bump value delta with
        | none => (.notACounter key, files)
        -- What is left is measured by one reading and added to the next.
        | some n => (.count n, write files key (Counter.render n) (clk 2) left)
  | .touch key ttl =>
    if ttl ≤ 0 then (.noTTL, files)
    else
      match payload files key clk with
      | (none, files) => (.flag false, files)
      | (some (value, _), files) => (.flag true, write files key value (clk 2) ttl)
  | .flush start =>
    (.done, fun key =>
      match files key with
      | none => none
      | some raw =>
        if start = "" then none
        else
          match decodeFileEntry raw with
          | none => some raw
          | some entry => if hasPrefix entry.key start then none else some raw)

end FileStore

/-! ### In a table -/

/-- A row of the cache table; the expiration in milliseconds.  A value is sent as bytes (`[]byte`) or, by
an increment, as a text. -/
structure Row where
  value : String
  bytes : Bool
  expiration : Nat

/-- The table, by its primary key. -/
abbrev Rows := String → Option Row

structure Dialect where
  /-- What `LIKE` escapes with when nothing is named. -/
  escape : Option Char
  /-- `LIKE` takes the two cases of an ASCII letter for the same. -/
  foldsCase : Bool
  /-- Bytes are never equal to a text. -/
  typed : Bool
  /-- How long a key may be. -/
  keyLimit : Option Nat
  /-- `key` is a reserved word, and the statements do not quote it. -/
  reserved : Bool

def mysql : Dialect := ⟨some '\\', true, false, some 255, true⟩
def postgres : Dialect := ⟨some '\\', false, false, some 255, false⟩
def sqlite : Dialect := ⟨none, true, true, none, false⟩

namespace Dialect

def fold (d : Dialect) (c : Char) : Char := if d.foldsCase then c.toLower else c

/-- `key LIKE ?`. -/
def likes (d : Dialect) (pattern text : List Char) : Bool := like d.escape (pattern.map d.fold) (text.map d.fold)

/-- `value = ?` with bytes. -/
def equals (d : Dialect) (row : Row) (current : String) : Bool := row.value = current && (!d.typed || row.bytes)

end Dialect

namespace DatabaseStore

/-- `UPDATE … WHERE key = ? AND …`: the rows affected, and the table. -/
def update (rows : Rows) (key : String) (cond : Row → Bool) (set : Row → Row) : Nat × Rows :=
  match rows key with
  | none => (0, rows)
  | some row => if cond row then (1, Function.update rows key (some (set row))) else (0, rows)

/-- `INSERT`: nothing when the key is taken or too long. -/
def insert (d : Dialect) (rows : Rows) (key : String) (row : Row) : Option Rows :=
  match rows key with
  | none => if d.keyLimit.all (key.length ≤ ·) then some (Function.update rows key (some row)) else none
  | some _ => none

/-- `DELETE … WHERE key IN (?, ?) AND …`. -/
def deleteIn (rows : Rows) (keys : List String) (cond : Row → Bool) : Rows :=
  fun key => if keys.contains key then (rows key).filter fun row => !cond row else rows key

def nowMillis (now : Nat) : Nat := now / nanosPerMilli

def expiresAt (now : Nat) (ttl : Int) : Nat := (now + ttl.toNat) / nanosPerMilli

section

variable (d : Dialect) (pre : String)

def forgetIfExpired (rows : Rows) (key : String) (now : Nat) : Rows :=
  deleteIn rows [pre ++ key, pre ++ flexibleCreatedKey key] fun row => row.expiration ≤ nowMillis now

def get (rows : Rows) (key : String) (clk : Clock) : Option String × Rows :=
  match rows (pre ++ key) with
  | none => (none, rows)
  | some row =>
    if row.expiration ≤ nowMillis (clk 0) then (none, forgetIfExpired pre rows key (clk 1))
    else (some row.value, rows)

/-- The expired ones of some keys, each forgotten with a reading of its own. -/
def forgetAll : List String → Clock → Rows → Rows
  | [], _, rows => rows
  | key :: keys, clk, rows => forgetAll keys (fun i => clk (i + 1)) (forgetIfExpired pre rows key (clk 0))

def many (rows : Rows) (keys : List String) (clk : Clock) : List (String × Option String) × Rows :=
  let now := nowMillis (clk 0)
  let expired := keys.filter fun key => (rows (pre ++ key)).any fun row => row.expiration ≤ now
  (keys.map fun key => (key, ((rows (pre ++ key)).filter fun row => now < row.expiration).map Row.value),
    forgetAll pre expired (fun i => clk (i + 1)) rows)

def put (rows : Rows) (key value : String) (ttl : Int) (clk : Clock) : Rows :=
  let row : Row := ⟨value, true, expiresAt (clk 0) ttl⟩
  match update rows (pre ++ key) (fun _ => true) fun _ => row with
  | (0, rows) =>
    match insert d rows (pre ++ key) row with
    | some rows => rows
    | none => (update rows (pre ++ key) (fun _ => true) fun _ => row).2
  | (_, rows) => rows

def add (rows : Rows) (key value : String) (ttl : Int) (clk : Clock) : Bool × Rows :=
  match get pre rows key clk with
  | (some _, rows) => (false, rows)
  | (none, rows) =>
    match insert d rows (pre ++ key) ⟨value, true, expiresAt (clk 2) ttl⟩ with
    | some rows => (true, rows)
    | none => (false, rows)

/-- The update of `Increment`, where the value is still the one that was read. -/
def bump (rows : Rows) (key current : String) (next : Int) : Nat × Rows :=
  update rows (pre ++ key) (d.equals · current) fun row => { row with value := Counter.render next, bytes := false }

/-- The second attempt of `Increment`. -/
def incrementAgain (rows : Rows) (key : String) (delta : Int) (clk : Clock) : Answer × Rows :=
  match get pre rows key clk with
  | (none, rows) => (.value none, rows)
  | (some current, rows) =>
    match Counter.bump current delta with
    | none => (.notACounter key, rows)
    | some next => (.count next, (bump d pre rows key current next).2)

def increment (rows : Rows) (key : String) (delta ttl : Int) (clk : Clock) : Answer × Rows :=
  match get pre rows key clk with
  | (none, rows) =>
    match add d pre rows key (Counter.render delta) ttl fun i => clk (i + 2) with
    | (true, rows) => (.count delta, rows)
    | (false, rows) => incrementAgain d pre rows key delta fun i => clk (i + 5)
  | (some current, rows) =>
    match Counter.bump current delta with
    | none => (.notACounter key, rows)
    | some next =>
      match bump d pre rows key current next with
      | (0, rows) => (.changedMeanwhile key, rows)
      | (_, rows) => (.count next, rows)

/-- The pattern of the keys that begin with a text. -/
def likePrefix (start : String) : List Char := escaped start.toList ++ ['%']

/-- What a call comes to on a database that takes its statements. -/
def work (clk : Clock) (call : Call) (rows : Rows) : Answer × Rows :=
  match call with
  | .put key value ttl =>
    if ttl ≤ 0 then (.noTTL, rows) else (.done, put d pre rows key value ttl clk)
  | .add key value ttl =>
    if ttl ≤ 0 then (.noTTL, rows)
    else
      let (added, rows) := add d pre rows key value ttl clk
      (.flag added, rows)
  | .get key =>
    let (found, rows) := get pre rows key clk
    (.value found, rows)
  | .many keys =>
    let (values, rows) := many pre rows keys clk
    (.values values, rows)
  | .forget key => (.done, deleteIn rows [pre ++ key, pre ++ flexibleCreatedKey key] fun _ => true)
  | .increment key delta ttl =>
    if ttl ≤ 0 then (.noTTL, rows) else increment d pre rows key delta ttl clk
  | .touch key ttl =>
    if ttl ≤ 0 then (.noTTL, rows)
    else
      let (n, rows) := update rows (pre ++ key) (fun row => nowMillis (clk 1) < row.expiration)
        fun row => { row with expiration := expiresAt (clk 0) ttl }
      (.flag (0 < n), rows)
  | .flush start =>
    if start = "" then (.done, fun _ => none)
    else (.done, fun key => if d.likes (likePrefix (pre ++ start)) key.toList then none else rows key)

/-- Every statement names the column `key`, but for the one that empties the table. -/
def exec (clk : Clock) (call : Call) (rows : Rows) : Answer × Rows :=
  if d.reserved && call.namesKey then (.refused, rows) else work d pre clk call rows

end

end DatabaseStore

end Hesape.Cache.Stores
