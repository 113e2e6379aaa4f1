import Mathlib.Data.List.Sort
import Mathlib.Data.String.Basic
import Hesape.Run.Reach

/-!
# The queue in the database

A job of `DatabaseQueue` is a row of the jobs table.  `Pop` reads the clock, selects the rows that
are due and not leased, and claims them one after another with an update that asks for the lease
once more; `DeleteJob`, `ReleaseJob`, `FailJob` and `Retry` are one statement each.  Any number of
workers interleave these statements and the clock moves between them, so a call of `Pop` is kept
with what it has still to claim, and a delivery with the job the worker holds.

The settling statements name the row by its id alone.  What they find there is the matter of
`Hesape.Queue.Leases`.
-/

namespace Hesape.Queue.Database

open List

/-! ### The table -/

/-- A row of the jobs table, times in nanoseconds. -/
structure Row where
  id : String
  queue : String
  runAt : Nat
  reservedUntil : Option Nat := none
  attempts : Nat := 0
  exceptions : Nat := 0
  failedAt : Option Nat := none
  lastError : String := ""
  createdAt : Option Nat := none
deriving DecidableEq

/-- `reserved_until IS NULL OR reserved_until < ?`. -/
def Row.free (r : Row) (now : Nat) : Bool := r.reservedUntil.all (· < now)

/-- What `Pop` selects by. -/
def Row.eligible (r : Row) (queue : String) (now : Nat) : Bool :=
  r.queue = queue && r.failedAt.isNone && r.runAt ≤ now && r.free now

/-- `ORDER BY COALESCE(created_at, run_at), id`. -/
def Row.upTo (r s : Row) : Prop :=
  r.createdAt.getD r.runAt < s.createdAt.getD s.runAt
    ∨ r.createdAt.getD r.runAt = s.createdAt.getD s.runAt ∧ r.id ≤ s.id

instance : DecidableRel Row.upTo := fun _ _ => inferInstanceAs (Decidable (_ ∨ _))

abbrev Table := List Row

/-- `UPDATE jobs SET … WHERE id = ? AND …`. -/
def Table.update (t : Table) (id : String) (p : Row → Bool) (f : Row → Row) : Table :=
  t.map fun r => if r.id = id ∧ p r then f r else r

/-- Whether an update changes a row: `RowsAffected` is not zero. -/
def Table.affects (t : Table) (id : String) (p : Row → Bool) : Bool := t.any fun r => r.id = id ∧ p r

/-- `DELETE FROM jobs WHERE id = ?`. -/
def Table.delete (t : Table) (id : String) : Table := t.filter fun r => r.id ≠ id

/-- The candidates of `Pop`. -/
def Table.candidates (t : Table) (queue : String) (now n : Nat) : List Row :=
  ((t.filter fun r => r.eligible queue now).insertionSort Row.upTo).take n

def second : Nat := 1000000000

/-- `dueAt`: a time that has come is stored at its second. -/
def dueAt (runAt now : Nat) : Nat := if now < runAt then runAt else runAt - runAt % second

/-! ### Calls -/

/-- A call of `Pop`: the time it read, and the rows it selected and has not claimed yet. -/
structure Pop where
  queue : String
  limit : Nat
  lease : Nat
  now : Nat
  candidates : Option (List Row) := none

/-- `Pop` up to the select. -/
def Pop.start (queue : String) (n lease : Int) (now : Nat) : Pop where
  queue := if queue = "" then "default" else queue
  limit := if n ≤ 0 then 1 else n.toNat
  lease := if lease ≤ 0 then 300 * second else lease.toNat
  now := now

/-- A job that was handed out: what its worker holds, and until when.  `settled` remembers that a
settling statement was sent; no statement reads it. -/
structure Delivery where
  id : String
  queue : String
  attempts : Nat
  exceptions : Nat
  lastError : String
  «until» : Nat
  settled : Bool := false
deriving DecidableEq

/-- The job of a candidate whose claim went through. -/
def Row.delivered (r : Row) («until» : Nat) : Delivery where
  id := r.id
  queue := r.queue
  attempts := r.attempts + 1
  exceptions := r.exceptions
  lastError := r.lastError
  «until» := «until»

/-- What happened to the jobs, latest first. -/
inductive Entry
  | pushed (id : String)
  | claimed (id : String)
  | failure (id : String)
  | retried (id : String)
deriving DecidableEq

structure State where
  now : Nat := 0
  rows : Table := []
  pops : List Pop := []
  deliveries : List Delivery := []
  log : List Entry := []

/-- A worker's outcome, as it is given to the driver.  `counted` says that the worker counted a
failure of this delivery before. -/
inductive Outcome
  | delete
  | release (delay : Int) (lastError : String) (counted : Bool)
  | fail (cause : Option String)

/-- The statements, and the clock.  `read` is the time a call read before it sent its statement. -/
inductive Action
  | tick (d : Nat)
  | push (id queue : String) (runAt : Nat)
  | pop (queue : String) (n lease : Int)
  | select (call : Nat)
  | claim (call : Nat)
  | settle (delivery : Nat) (outcome : Outcome) (read : Nat)
  | retry (id : String) (read : Nat)

/-- `DeleteJob`, `ReleaseJob` and `FailJob` on the table. -/
def Outcome.apply (o : Outcome) (d : Delivery) (read : Nat) (t : Table) : Table :=
  match o with
  | .delete => t.delete d.id
  | .release delay lastError counted =>
    t.update d.id (fun _ => true) fun r =>
      { r with
        runAt := dueAt (read + delay.toNat) read
        lastError := lastError
        exceptions := d.exceptions + if counted then 1 else 0
        createdAt := some read
        reservedUntil := none }
  | .fail cause =>
    t.update d.id (fun _ => true) fun r =>
      { r with failedAt := some read, lastError := cause.getD d.lastError, reservedUntil := none }

/-- `Retry` on the table. -/
def Table.retry (t : Table) (id : String) (read : Nat) : Table :=
  t.update id (fun r => r.failedAt.isSome) fun r =>
    { r with
      failedAt := none, attempts := 0, exceptions := 0, lastError := "", reservedUntil := none
      runAt := dueAt read read, createdAt := some read }

/-- The claim of one candidate. -/
def Table.claim (t : Table) (id : String) (now «until» : Nat) : Table :=
  t.update id (·.free now) fun r => { r with reservedUntil := some «until», attempts := r.attempts + 1 }

/-- The claim of the next candidate of a call. -/
def claim (s : State) (call : Nat) (p : Pop) : Option State :=
  match p.candidates with
  | some (c :: rest) =>
    let s := { s with pops := s.pops.set call { p with candidates := some rest } }
    if s.rows.affects c.id (·.free p.now) then
      some { s with
        rows := s.rows.claim c.id p.now (p.now + p.lease)
        deliveries := s.deliveries ++ [c.delivered (p.now + p.lease)]
        log := .claimed c.id :: s.log }
    else some s
  | _ => none

def step (s : State) : Action → Option State
  | .tick d => some { s with now := s.now + d }
  | .push id queue runAt =>
    -- The id is the primary key.
    if s.rows.any (·.id = id) then none
    else some { s with
      rows := s.rows ++ [{ id, queue, runAt := dueAt runAt s.now, createdAt := some s.now }]
      log := .pushed id :: s.log }
  | .pop queue n lease => some { s with pops := s.pops ++ [.start queue n lease s.now] }
  | .select call =>
    match s.pops[call]? with
    | some p =>
      if p.candidates.isSome then none
      else some { s with
        pops := s.pops.set call { p with candidates := some (s.rows.candidates p.queue p.now p.limit) } }
    | none => none
  | .claim call => s.pops[call]?.bind (claim s call)
  | .settle delivery outcome read =>
    match s.deliveries[delivery]? with
    | some d =>
      if s.now < read then none
      else some { s with
        rows := outcome.apply d read s.rows
        deliveries := s.deliveries.set delivery { d with settled := true }
        log := match outcome with
          | .release _ _ true => .failure d.id :: s.log
          | _ => s.log }
    | none => none
  | .retry id read =>
    if s.now < read then none
    else if s.rows.affects id (·.failedAt.isSome) then
      some { s with rows := s.rows.retry id read, log := .retried id :: s.log }
    else some s

/-! ### What the statements leave alone -/

/-- The rows of other jobs are the same in both tables. -/
def Table.Beside (t u : Table) (id : String) : Prop := ∀ r : Row, r.id ≠ id → (r ∈ u ↔ r ∈ t)

variable {t : Table} {f : Row → Row} {r : Row}

theorem mem_update {id : String} {p : Row → Bool}
    (h : r ∈ t.update id p f) :
    (r ∈ t ∧ ¬ (r.id = id ∧ p r)) ∨ ∃ q ∈ t, q.id = id ∧ p q ∧ r = f q := by
  obtain ⟨q, hq, rfl⟩ := mem_map.mp h
  by_cases hp : q.id = id ∧ p q
  · rw [if_pos hp]
    exact .inr ⟨q, hq, hp.1, hp.2, rfl⟩
  · rw [if_neg hp]
    exact .inl ⟨hq, hp⟩

theorem beside_update (t : Table) (id : String) (p : Row → Bool)
    (hf : ∀ r, (f r).id = r.id) : t.Beside (t.update id p f) id := by
  intro r hr
  constructor
  · intro h
    rcases mem_update h with ⟨h, -⟩ | ⟨q, -, hid, -, rfl⟩
    · exact h
    · exact absurd ((hf q).trans hid) hr
  · intro h
    exact mem_map.mpr ⟨r, h, if_neg fun hp => hr hp.1⟩

theorem beside_delete (t : Table) (id : String) : t.Beside (t.delete id) id := by
  intro r hr
  rw [Table.delete, mem_filter]
  simp [hr]

theorem beside_apply (o : Outcome) (d : Delivery) (read : Nat) (t : Table) :
    t.Beside (o.apply d read t) d.id := by
  cases o with
  | delete => exact beside_delete t d.id
  | release | fail => exact beside_update t d.id _ fun _ => rfl

theorem beside_retry (t : Table) (id : String) (read : Nat) : t.Beside (t.retry id read) id :=
  beside_update t id _ fun _ => rfl

theorem beside_claim (t : Table) (id : String) (now «until» : Nat) :
    t.Beside (t.claim id now «until») id :=
  beside_update t id _ fun _ => rfl

theorem affects_iff {id : String} {p : Row → Bool} :
    t.affects id p ↔ ∃ r ∈ t, r.id = id ∧ p r := by
  simp [Table.affects]

/-! ### The primary key -/

/-- No two rows have one id. -/
def Table.Keyed (t : Table) : Prop := (t.map Row.id).Nodup

instance (t : Table) : Decidable t.Keyed := inferInstanceAs (Decidable (List.Nodup _))

theorem Table.Keyed.eq (h : t.Keyed) {q : Row} (hr : r ∈ t) (hq : q ∈ t) (hid : r.id = q.id) :
    r = q :=
  inj_on_of_nodup_map h hr hq hid

theorem Table.Keyed.update (h : t.Keyed) (id : String) (p : Row → Bool)
    (hf : ∀ r, (f r).id = r.id) : (t.update id p f).Keyed := by
  have hids : (t.update id p f).map Row.id = t.map Row.id := by
    rw [Table.update, map_map]
    refine map_congr_left fun r _ => ?_
    show (if _ then f r else r).id = r.id
    split
    · exact hf r
    · rfl
  rw [Table.Keyed, hids]
  exact h

theorem Table.Keyed.apply (h : t.Keyed) (o : Outcome) (d : Delivery) (read : Nat) :
    (o.apply d read t).Keyed := by
  cases o with
  | delete => exact h.sublist (filter_sublist.map _)
  | release | fail => exact h.update d.id _ fun _ => rfl

theorem Table.Keyed.push (h : t.Keyed) (hr : t.any (·.id = r.id) = false) :
    Table.Keyed (t ++ [r]) := by
  rw [Table.Keyed, map_append, nodup_append]
  refine ⟨h, by simp, ?_⟩
  intro a ha b hb
  obtain ⟨q, hq, rfl⟩ := mem_map.mp ha
  rw [map_singleton, mem_singleton] at hb
  have := any_eq_false.mp hr q hq
  rw [hb]
  simpa using this

end Hesape.Queue.Database
