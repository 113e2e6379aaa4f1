import Hesape.Cache.Stores
import Hesape.Run.Reach

/-!
# Counting in a table

`Increment` of the database store reads the row and then inserts it, or updates it where it still
has the value that was read.  If that update finds another value, the call fails.  When the insert
is refused, because the row has appeared, `Increment` reads once more and updates again, and this
second attempt does not ask whether its update found the row.  Where bytes are not equal to a text, an
update finds no value that an update has written.

Any number of clients make the statements of `Increment`, `Add`, `Get` and `Forget` on one key, which
its column is long enough for, one at a time.  `Life` is what was done to the row since it was inserted.  In a run in which no second
attempt misses and no sum leaves the range of a counter, every answer has moved the row to it
(`exact_of_reach`).
-/

namespace Hesape.Cache.Counting

open Stores (Row Dialect)
open Stores.DatabaseStore (nowMillis expiresAt)
open Hesape.Run (Reach)
open List

inductive Call
  | increment (delta : Int64) (ttl : Int)
  | add (value : String) (ttl : Int)
  | get
  | forget

/-- The statement a call makes next.  `Increment` reads three times at most: for itself, for the
`Add` it makes, and for its second attempt. -/
inductive Point
  | select (nth : Nat)
  | clean (nth : Nat)
  | insert
  | update (second : Bool) (current : String)
  | delete
  | done

structure Client where
  call : Call
  point : Point

def Call.start : Call → Point
  | .increment _ ttl => if ttl ≤ 0 then .done else .select 0
  | .add _ ttl => if ttl ≤ 0 then .done else .select 0
  | .get => .select 0
  | .forget => .delete

/-- A read that found a live value. -/
def Call.found (nth : Nat) (current : String) : Call → Point
  | .increment _ _ => if nth = 1 then .select 2 else .update (nth = 2) current
  | _ => .done

/-- A read that found none. -/
def Call.missing (nth : Nat) : Call → Point
  | .increment _ _ => if nth = 0 then .select 1 else if nth = 1 then .insert else .done
  | .add _ _ => .insert
  | _ => .done

/-- An answer of `Increment`, with what the row counted before and after its last statement. -/
structure Return where
  delta : Int
  value : Int
  before : Option Int
  after : Option Int

/-- What was done to the row since it was inserted: what it counted then, and the answers. -/
structure Life where
  start : Option Int
  returned : List Return

def Life.sum (l : Life) : Int := (l.returned.map Return.delta).sum

/-- The row under the key, the clients, and what was done. -/
structure State where
  now : Nat
  row : Option Row
  clients : List Client
  life : Life

inductive Action
  | tick (d : Nat)
  | begin (call : Call)
  | go (i : Nat)

/-- What a row counts; no row counts nothing. -/
def count : Option Row → Option Int
  | none => some 0
  | some row => Text.parseInt row.value.toList

def State.goto (s : State) (i : Nat) (c : Client) (point : Point) : State :=
  { s with clients := s.clients.set i { c with point } }

/-- The row is written, and the call answers. -/
def State.answer (s : State) (row : Option Row) (life : Life) (delta value : Int) : State :=
  { s with
    row
    life := ⟨life.start, life.returned ++ [⟨delta, value, count s.row, count row⟩]⟩ }

/-- One statement of a client. -/
def State.statement (d : Dialect) (s : State) (i : Nat) (c : Client) : Option State :=
  match c.point, c.call, s.row with
  | .select nth, call, none => some (s.goto i c (call.missing nth))
  | .select nth, call, some row =>
    some (s.goto i c (if row.expiration ≤ nowMillis s.now then .clean nth else call.found nth row.value))
  | .clean nth, call, row =>
    some { s.goto i c (call.missing nth) with row := row.filter fun row => nowMillis s.now < row.expiration }
  | .insert, .increment _ _, some _ => some (s.goto i c (.select 2))
  | .insert, .increment delta ttl, none =>
    some ((s.goto i c .done).answer (some ⟨Counter.render delta.toInt, true, expiresAt s.now ttl⟩) ⟨some 0, []⟩
      delta.toInt delta.toInt)
  | .insert, .add _ _, some _ => some (s.goto i c .done)
  | .insert, .add value ttl, none =>
    some { s.goto i c .done with row := some ⟨value, true, expiresAt s.now ttl⟩, life := ⟨Text.parseInt value.toList, []⟩ }
  | .update second current, .increment delta _, row =>
    match Counter.bump current delta.toInt with
    | none => some (s.goto i c .done)
    | some next =>
      let written := row.map fun row =>
        if d.equals row current then { row with value := Counter.render next, bytes := false } else row
      -- Only the first attempt looks at the rows affected.
      if second || row.any (d.equals · current) then some ((s.goto i c .done).answer written s.life delta.toInt next)
      else some { s.goto i c .done with row := written }
  | .delete, _, _ => some { s.goto i c .done with row := none }
  | _, _, _ => none

def step (d : Dialect) (s : State) : Action → Option State
  | .tick t => some { s with now := s.now + t }
  | .begin call => some { s with clients := s.clients ++ [⟨call, call.start⟩] }
  | .go i => s.clients[i]?.bind fun c => if d.reserved then some (s.goto i c .done) else s.statement d i c

/-- The update of a second attempt finds the row it read, and no sum leaves the range. -/
def inTurn (d : Dialect) (s : State) : Action → Bool
  | .go i =>
    match s.clients[i]? with
    | some ⟨.increment delta _, .update second current⟩ =>
      (!second || s.row.any (d.equals · current))
        && (Text.parseInt current.toList).all fun n => -2 ^ 63 ≤ n + delta.toInt && n + delta.toInt < 2 ^ 63
    | _ => true
  | _ => true

def State.initial (now : Nat) : State := ⟨now, none, [], ⟨none, []⟩⟩

/-- **Counts are handed out once.**  Every answer moved the row from the count before it to its own;
the answers to additions of one are distinct, unless something was taken off; and the row counts the
sum of what was added. -/
structure State.Exact (s : State) : Prop where
  moved : ∀ r ∈ s.life.returned, r.before = some (r.value - r.delta) ∧ r.after = some r.value
  distinct : (∀ r ∈ s.life.returned, 0 ≤ r.delta) →
    ((s.life.returned.filter (·.delta = 1)).map Return.value).Nodup
  sum : ∀ row, s.row = some row → count row = s.life.start.map (· + s.life.sum)

/-! ### One statement -/

theorem count_render {n : Int} (hn : -2 ^ 63 ≤ n ∧ n < 2 ^ 63) (bytes : Bool) (expiration : Nat) :
    count (some ⟨Counter.render n, bytes, expiration⟩) = some n := by
  rw [count, ← Text.parseInt_formatInt hn]
  congr 1
  cases n <;> simp [Counter.render, Text.formatInt, toString, Int.repr, Nat.repr]

/-- Beside that, no answer is above the row's count, unless something was taken off. -/
structure Counted (s : State) : Prop extends s.Exact where
  below : (∀ r ∈ s.life.returned, 0 ≤ r.delta) → ∀ row n, s.row = some row → count row = some n →
    ∀ r ∈ s.life.returned, r.value ≤ n

namespace Counted

variable {d : Dialect} {s t : State}

/-- The row is left as it was, or removed. -/
theorem frame (h : Counted s) (hlife : t.life = s.life) (hrow : ∀ row, t.row = some row → s.row = some row) :
    Counted t := by
  refine ⟨⟨?_, ?_, fun row hr => ?_⟩, fun hpos row n hr => ?_⟩
  · exact hlife ▸ h.moved
  · exact hlife ▸ h.distinct
  · exact hlife ▸ h.sum row (hrow row hr)
  · rw [hlife] at hpos ⊢
    exact h.below hpos row n (hrow row hr)

/-- The row counts what was answered. -/
theorem answer {life : Life} {row : Row} {m delta value : Int} (hbefore : count s.row = some m)
    (hafter : count (some row) = some value) (hvalue : value = m + delta)
    (hmoved : ∀ r ∈ life.returned, r.before = some (r.value - r.delta) ∧ r.after = some r.value)
    (hdistinct : (∀ r ∈ life.returned, 0 ≤ r.delta) → ((life.returned.filter (·.delta = 1)).map Return.value).Nodup)
    (hsum : life.start.map (· + life.sum) = some m)
    (hbelow : (∀ r ∈ life.returned, 0 ≤ r.delta) → ∀ r ∈ life.returned, r.value ≤ m) :
    Counted (s.answer (some row) life delta value) := by
  have hpast : ∀ {P : Return → Prop}, (∀ r ∈ (s.answer (some row) life delta value).life.returned, P r) →
      ∀ r ∈ life.returned, P r := fun h r hr => h r (mem_append_left _ hr)
  refine ⟨⟨fun r hr => ?_, fun hpos => ?_, fun r hr => ?_⟩, fun hpos r n hr hn q hq => ?_⟩
  · rcases (mem_append.mp hr).imp_right mem_singleton.mp with hr | rfl
    · exact hmoved r hr
    · rw [hbefore, hafter, hvalue, Int.add_sub_cancel]
      exact ⟨rfl, rfl⟩
  · simp only [State.answer, filter_append, map_append, nodup_append]
    refine ⟨hdistinct (hpast hpos), ?_, fun v hv w hw => ?_⟩
    · by_cases hone : delta = 1 <;> simp [hone]
    · -- An answer to an addition of one is above all that were given.
      obtain ⟨r, hr, rfl⟩ := mem_map.mp hv
      obtain ⟨q, hq, rfl⟩ := mem_map.mp hw
      obtain ⟨hq, hone⟩ := mem_filter.mp hq
      obtain rfl := mem_singleton.mp hq
      have := hbelow (hpast hpos) r (mem_of_mem_filter hr)
      simp only [decide_eq_true_eq] at hone
      dsimp only
      omega
  · cases hr
    obtain ⟨n, hn, hnm⟩ := Option.map_eq_some_iff.mp hsum
    rw [hafter]
    simp [State.answer, Life.sum, hn] at hnm ⊢
    omega
  · cases hr
    rw [hafter] at hn
    cases hn
    have hdelta : 0 ≤ delta := hpos _ mem_concat_self
    rcases (mem_append.mp hq).imp_right mem_singleton.mp with hq | rfl
    · have := hbelow (hpast hpos) q hq
      omega
    · exact Int.le_refl _

theorem statement {i : Nat} {c : Client} (h : Counted s) (hc : s.clients[i]? = some c)
    (hok : inTurn d s (.go i)) (ht : s.statement d i c = some t) : Counted t := by
  unfold State.statement at ht
  split at ht
  · cases ht; exact h.frame rfl fun _ hr => hr
  · cases ht; exact h.frame rfl fun _ hr => hr
  · cases ht; exact h.frame rfl fun _ hr => (Option.filter_eq_some_iff.mp hr).1
  · cases ht; exact h.frame rfl fun _ hr => hr
  · next delta ttl _ _ hrow =>
    cases ht
    exact answer (m := 0) (congrArg count hrow) (count_render ⟨delta.le_toInt, delta.toInt_lt⟩ _ _) (Int.zero_add _).symm nofun
      (fun _ => nodup_nil) rfl fun _ => nofun
  · cases ht; exact h.frame rfl fun _ hr => hr
  · cases ht
    refine ⟨⟨nofun, fun _ => nodup_nil, fun row hr => ?_⟩, fun _ _ _ _ _ => nofun⟩
    cases hr
    simp [count, Life.sum]
  · next _ second current delta ttl hpoint hcall =>
    have hc : s.clients[i]? = some ⟨.increment delta ttl, .update second current⟩ := by rw [hc, ← hcall, ← hpoint]
    simp only [inTurn, hc, Counter.bump] at hok ht
    cases hn : Text.parseInt current.toList with
    | none =>
      simp only [hn] at ht
      cases ht
      exact h.frame rfl fun _ hr => hr
    | some n =>
      simp only [hn, Option.all_some, Bool.and_eq_true, decide_eq_true_eq] at hok
      obtain ⟨hhit, hrange⟩ := hok
      have hnext : wrap64 (n + delta.toInt) = n + delta.toInt := by
        unfold wrap64
        omega
      simp only [hn, Option.map_some, hnext] at ht
      cases hrow : s.row with
      | none =>
        simp only [hrow, Option.any_none, Bool.or_false, Bool.not_eq_true'] at hhit ht
        rw [hhit] at ht
        cases ht
        exact h.frame rfl nofun
      | some row =>
        simp only [hrow, Option.map_some, Option.any_some] at hhit ht
        by_cases hequal : d.equals row current
        · have hcurrent : row.value = current := of_decide_eq_true (Bool.and_eq_true_iff.mp hequal).1
          simp only [hequal, Bool.or_true, if_true] at ht
          cases ht
          have hcount : count row = some n := by rw [count, hcurrent]; exact hn
          exact answer (hrow ▸ hcount) (count_render hrange _ _) rfl h.moved h.distinct
            ((h.sum row hrow).symm.trans hcount) fun hpos => h.below hpos row n hrow hcount
        · -- A first attempt finds that the row has changed.
          simp only [hequal, Bool.or_false, Bool.not_eq_true'] at hhit
          simp only [hequal, hhit, Bool.or_false, Bool.false_eq_true, if_false] at ht
          cases ht
          exact h.frame rfl fun _ hr => hrow.trans hr
  · cases ht; exact h.frame rfl nofun
  · cases ht

end Counted

/-- **In a run in which no second attempt misses** and no sum leaves the range, counts are handed out
once. -/
theorem exact_of_reach {d : Dialect} {now : Nat} {s : State} (h : Reach (step d) (inTurn d) (State.initial now) s) :
    s.Exact := by
  have hfirst : Counted (State.initial now) := ⟨⟨nofun, fun _ => nodup_nil, nofun⟩, fun _ _ _ => nofun⟩
  refine (h.invariant hfirst fun s a t hs hok ht => ?_).toExact
  cases a with
  | tick | begin =>
    cases ht
    exact hs.frame rfl fun _ hr => hr
  | go =>
    obtain ⟨c, hc, ht⟩ := Option.bind_eq_some_iff.mp ht
    split at ht
    · cases ht; exact hs.frame rfl fun _ hr => hr
    · exact hs.statement hc hok ht

/-- An increment of one, for a minute. -/
def one : Call := .increment 1 60000000000

/-- Three calls: the second finds the row when it would insert it and counts in its second attempt, and
the third comes after it. -/
theorem exact_in_turn : ∃ s : State, s.life.returned.map Return.value = [1, 2, 3] ∧ s.Exact := by
  obtain ⟨s, hrun, hs⟩ : ∃ s, Reach (step Stores.postgres) (inTurn Stores.postgres) (State.initial 0) s ∧
      s.life.returned.map Return.value = [1, 2, 3] :=
    Run.exists_reach [.begin one, .begin one, .go 0, .go 1, .go 0, .go 1, .go 0, .go 1, .go 1, .go 1, .begin one,
      .go 2, .go 2] (by decide +kernel)
  exact ⟨s, hs, exact_of_reach hrun⟩

/-- **One count twice.**  Three clients find no row and one of them inserts it.  The others read `1` in
their second attempts and both answer `2`, though the update of one of them finds nothing. -/
theorem same_count_twice : (Run.follow (step Stores.sqlite) (fun _ _ => true) (State.initial 0)
    [.begin one, .begin one, .begin one, .go 0, .go 1, .go 2, .go 0, .go 1, .go 2, .go 0, .go 1, .go 2, .go 1, .go 2,
      .go 1, .go 2]).any (fun s => s.life.returned.map Return.value = [1, 2, 2] &&
        s.life.returned.map Return.before = [some 0, some 1, some 2] && s.row.any fun row => row.value = "2") = true := by
  decide +kernel

end Hesape.Cache.Counting
