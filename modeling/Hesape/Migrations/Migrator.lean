import Hesape.Run.Reach
import Mathlib.Data.List.Sort

/-!
# The migrator

Migrations are registered under names; a table remembers which of them have run, each row with an ordinal
and the batch it ran in.  `Run` applies what is pending in the order of the names, `Rollback` undoes a batch
or a number of rows, newest first, and `Reset` everything.

A call is taken one migration at a time, so that what is recorded can be held against what was applied at
every moment in between: the calls are `run`, `rollback` and `reset`, and `next` is one round of their loop.
What a migration's `Up` or `Down` does is not known beforehand: each call comes with the errors they would
return, for real and under `Pretend`.  The completed ones are kept in a history.  The statements on the table
itself do not fail, so a row is written in the same step as the `Up` before it.
-/

namespace Hesape.Migrations

/-- A registered `Migration`, and which of the optional interfaces it declares. -/
structure Migration where
  name : String
  group : String
  shouldRun : Bool
  reversible : Bool
  irreversible : Bool

structure Options where
  pretend : Bool := false
  step : Bool := false
  steps : Int := 0
  batch : Int := 0

/-! ### The table -/

/-- `MigrationRecord`. -/
structure Row where
  id : Nat
  migration : String
  batch : Nat
deriving DecidableEq

/-- `ORDER BY batch ASC, id ASC`. -/
def Row.older (a b : Row) : Prop := a.batch < b.batch ∨ (a.batch = b.batch ∧ a.id ≤ b.id)

instance : DecidableRel Row.older := fun _ _ => inferInstanceAs (Decidable (_ ∨ _))

/-- `ORDER BY batch DESC, id DESC`. -/
def Row.newer (a b : Row) : Prop := b.older a

instance : DecidableRel Row.newer := fun a b => inferInstanceAs (Decidable (b.older a))

/-- `ORDER BY id DESC`. -/
def Row.later (a b : Row) : Prop := b.id ≤ a.id

instance : DecidableRel Row.later := fun a b => inferInstanceAs (Decidable (b.id ≤ a.id))

def getRan (rows : List Row) : List String := (rows.insertionSort Row.older).map Row.migration

def getMigrations (rows : List Row) (steps : Nat) : List Row :=
  ((rows.filter (1 ≤ ·.batch)).insertionSort Row.newer).take steps

def getMigrationsByBatch (rows : List Row) (batch : Nat) : List Row :=
  (rows.filter (·.batch = batch)).insertionSort Row.later

def getLastBatchNumber (rows : List Row) : Nat :=
  rows.foldl (fun last r => if last < r.batch then r.batch else last) 0

def getLast (rows : List Row) : List Row := getMigrationsByBatch rows (getLastBatchNumber rows)

def getNextBatchNumber (rows : List Row) : Nat := getLastBatchNumber rows + 1

def nextID (rows : List Row) : Nat := rows.foldl (fun next r => if next < r.id then r.id else next) 0 + 1

def log (rows : List Row) (file : String) (batch : Nat) : List Row := rows ++ [⟨nextID rows, file, batch⟩]

def delete (rows : List Row) (migration : String) : List Row := rows.filter (·.migration ≠ migration)

/-! ### The migrator -/

/-- A `Migrator` and the registry it reads; the names are distinct. -/
structure Migrator where
  registry : List Migration
  distinct : (registry.map Migration.name).Nodup
  paths : List String
  skippedMigrations : List String

namespace Migrator

variable (m : Migrator)

/-- `Registered`: the migrations of the groups, or of every group. -/
def registered (groups : List String) : List Migration :=
  m.registry.filter fun migration => groups.isEmpty || groups.contains migration.group

def getMigrationFiles (paths : List String) : List Migration := m.registered (m.paths ++ paths)

/-- The migration a recorded name stands for, if it is among the files. -/
def file (paths : List String) (name : String) : Option Migration :=
  (m.getMigrationFiles paths).find? fun migration => migration.name = name

def trimSuffix (suffix text : List Char) : List Char :=
  if suffix.isSuffixOf text then text.take (text.length - suffix.length) else text

/-- `GetMigrationName`: what follows the last slash or backslash, without the ending. -/
def getMigrationName (path : String) : String :=
  let name := (path.toList.reverse.takeWhile fun c => c ≠ '/' ∧ c ≠ Char.ofNat 92).reverse
  String.ofList (trimSuffix ".php".toList (trimSuffix ".go".toList name))

def migrationsToSkip : List String := m.skippedMigrations.map getMigrationName

def pendingMigrations (files : List Migration) (ran : List String) : List Migration :=
  (files.filter fun migration => !(ran ++ m.migrationsToSkip).contains migration.name).insertionSort
    fun a b => a.name ≤ b.name

end Migrator

def rollbackRefusal (migration : Migration) : Option String :=
  if migration.reversible ∧ migration.irreversible then
    some ("migration " ++ migration.name ++ " declares both Down and Irreversible, " ++
      "and nothing outside it can tell which one is true: keep the one that is")
  else if ¬ migration.reversible ∧ ¬ migration.irreversible then
    some ("migration " ++ migration.name ++ " cannot be rolled back: it declares neither Down nor Irreversible. " ++
      "Write Down to undo what Up applied, or Irreversible to declare that nothing can")
  else none

/-- `checkBatchCanRollBack`: the first refusal, before anything is undone. -/
def checkBatchCanRollBack (file : String → Option Migration) (records : List String) : Option String :=
  (records.findSome? fun name => (file name).bind rollbackRefusal).map
    ("this batch would stop partway, so nothing was rolled back: " ++ ·)

/-- What the migrations' code would return in a call: for real, and under `Pretend`. -/
structure Attempt where
  fails : String → Option String
  pretends : String → Option String

inductive Event
  | up (name : String)
  | down (name : String)
deriving DecidableEq

def Event.name : Event → String
  | .up name => name
  | .down name => name

/-- The loop a call is in. -/
inductive Loop
  /-- `RunPending`: what is answered in the end, what is to come, and the batch. -/
  | up (pending remaining : List Migration) (batch : Nat) (step : Bool)
  /-- `rollbackMigrations`: the names collected and what is to come. -/
  | down (paths : List String) (rolledBack remaining : List String)

structure Call where
  pretend : Bool
  attempt : Attempt
  loop : Loop
  /-- The history when the call began. -/
  before : List Event
  /-- What a call without `Pretend` would complete. -/
  would : List String

/-- What a call answered. -/
structure Answer where
  names : List String
  error : Option String := none
  refused : Bool := false
  isDown : Bool
  pretend : Bool
  before : List Event
  after : List Event
  would : List String

structure State where
  rows : List Row
  history : List Event
  call : Option Call
  answers : List Answer

inductive Action
  | run (paths : List String) (options : Options) (attempt : Attempt)
  | rollback (paths : List String) (options : Options) (attempt : Attempt)
  | reset (paths : List String) (pretend : Bool) (attempt : Attempt)
  | next

/-- The names whose `Up` a run completes: those that want to run, up to the first that fails. -/
def wouldApply (fails : String → Option String) (pending : List Migration) : List String :=
  ((pending.filter Migration.shouldRun).map Migration.name).takeWhile fun name => (fails name).isNone

/-- The names whose `Down` a rollback completes. -/
def wouldUndo (file : String → Option Migration) (fails : String → Option String) (records : List String) :
    List String :=
  (records.filter fun name => (file name).any fun migration => !migration.irreversible).takeWhile
    fun name => (fails name).isNone

namespace State

variable (m : Migrator) (s : State)

/-- The call in progress returns. -/
def answer (call : Call) (isDown : Bool) (names : List String) (error : Option String) (refused : Bool := false) :
    State :=
  { s with
    call := none
    answers := s.answers ++ [⟨names, error, refused, isDown, call.pretend, call.before, s.history, call.would⟩] }

/-- A call that returns at once. -/
def answerNow (isDown pretend refused : Bool) (error : Option String) : State :=
  { s with answers := s.answers ++ [⟨[], error, refused, isDown, pretend, s.history, s.history, []⟩] }

/-- A call enters its loop. -/
def enter (pretend : Bool) (attempt : Attempt) (loop : Loop) (would : List String) : State :=
  { s with call := some ⟨pretend, attempt, loop, s.history, would⟩ }

/-- The loop goes on. -/
def proceed (call : Call) (loop : Loop) : State := { s with call := some { call with loop := loop } }

/-- An `Up` completed and was recorded. -/
def applied (name : String) (batch : Nat) : State :=
  { s with rows := log s.rows name batch, history := s.history ++ [.up name] }

/-- A `Down` completed and the record was cleared. -/
def reverted (name : String) : State :=
  { s with rows := delete s.rows name, history := s.history ++ [.down name] }

def getMigrationsForRollback (options : Options) : List Row :=
  if 0 < options.steps then getMigrations s.rows options.steps.toNat
  else if 0 < options.batch then getMigrationsByBatch s.rows options.batch.toNat
  else getLast s.rows

/-- `Run`, up to its loop. -/
def run (paths : List String) (options : Options) (attempt : Attempt) : State :=
  let pending := m.pendingMigrations (m.getMigrationFiles paths) (getRan s.rows)
  if pending = [] then s.answerNow false options.pretend false none
  else
    s.enter options.pretend attempt (.up pending pending (getNextBatchNumber s.rows) options.step)
      (wouldApply attempt.fails pending)

/-- `rollbackMigrations`, up to its loop. -/
def rollbackMigrations (paths : List String) (pretend : Bool) (attempt : Attempt) (records : List String) : State :=
  match checkBatchCanRollBack (m.file paths) records with
  | some refusal => s.answerNow true pretend true (some refusal)
  | none =>
    s.enter pretend attempt (.down paths [] records) (wouldUndo (m.file paths) attempt.fails records)

def rollback (paths : List String) (options : Options) (attempt : Attempt) : State :=
  let records := s.getMigrationsForRollback options
  if records = [] then s.answerNow true options.pretend false none
  else s.rollbackMigrations m paths options.pretend attempt (records.map Row.migration)

def reset (paths : List String) (pretend : Bool) (attempt : Attempt) : State :=
  let ran := getRan s.rows
  if ran = [] then s.answerNow true pretend false none
  else s.rollbackMigrations m paths pretend attempt ran.reverse

/-- `runUp`, and the rest of the round. -/
def runUp (call : Call) (pending : List Migration) (migration : Migration) (rest : List Migration) (batch : Nat)
    (step : Bool) : State :=
  let after := Loop.up pending rest (if step then batch + 1 else batch) step
  if call.pretend then
    match call.attempt.pretends migration.name with
    | some e => s.answer call false [] (some e)
    | none => s.proceed call after
  else if !migration.shouldRun then s.proceed call after
  else
    match call.attempt.fails migration.name with
    | some e => s.answer call false [] (some ("migration " ++ migration.name ++ " failed: " ++ e))
    | none => (s.applied migration.name batch).proceed call after

/-- `runDown`, and the rest of the round. -/
def runDown (call : Call) (paths rolledBack : List String) (migration : Migration) (name : String)
    (rest : List String) : State :=
  match rollbackRefusal migration with
  | some e => s.answer call true rolledBack (some e) true
  | none =>
    if migration.irreversible then s.proceed call (.down paths rolledBack rest)
    else if call.pretend then
      match call.attempt.pretends name with
      | some e => s.answer call true rolledBack (some e)
      | none => s.proceed call (.down paths (rolledBack ++ [name]) rest)
    else
      match call.attempt.fails name with
      | some e => s.answer call true rolledBack (some ("rollback of " ++ migration.name ++ " failed: " ++ e))
      | none => (s.reverted name).proceed call (.down paths (rolledBack ++ [name]) rest)

/-- One round of the loop a call is in. -/
def next (call : Call) : State :=
  match call.loop with
  | .up pending [] _ _ => s.answer call false (pending.map Migration.name) none
  | .up pending (migration :: rest) batch step => s.runUp call pending migration rest batch step
  | .down _ rolledBack [] => s.answer call true rolledBack none
  | .down paths rolledBack (name :: rest) =>
    match m.file paths name with
    | none => s.proceed call (.down paths rolledBack rest)
    | some migration => s.runDown call paths rolledBack migration name rest

def step : Action → Option State
  | .run paths options attempt => if s.call.isNone then some (s.run m paths options attempt) else none
  | .rollback paths options attempt => if s.call.isNone then some (s.rollback m paths options attempt) else none
  | .reset paths pretend attempt => if s.call.isNone then some (s.reset m paths pretend attempt) else none
  | .next => s.call.map (s.next m)

/-- An empty table. -/
def initial : State := ⟨[], [], none, []⟩

end State

end Hesape.Migrations
