import Hesape.Cache.Stores
import Hesape.Run.Reach

/-!
# Remembering what a store answered

`MemoizedStore` keeps what it read in a map of its own.  `Get` and `Many` look there first, ask the
store underneath for what is missing, and remember it.  A write forgets the key and then writes it
through.  The map is locked for each of these steps and not from one to the next, so a value can be
remembered when the write that replaced it has returned.

Any number of goroutines take the steps in any order.  In a run in which nothing is remembered that
was replaced, and nothing is written through that has been remembered again, no read answers what a
finished write replaced (`fresh_of_reach`).
-/

namespace Hesape.Cache.Memoized

open Stores (Call answer)
open Hesape.Run (Reach forall_set forall_concat)
open List

/-- The entry found under a key, and when. -/
structure Seen where
  key : String
  entry : Option (Entry String)
  time : Nat

def Seen.value (e : Seen) : Option String := Table.get (fun _ => e.entry) e.time e.key

/-- Where a goroutine stands.  A read has keys to ask for and answers to remember; `since` is the
number of writes that had returned when it began. -/
inductive Point
  | read (since : Nat) (missing : List String) (retrieved : List Seen)
  | write (call : Call)
  | done

def Point.since : Point → Nat
  | .read since _ _ => since
  | _ => 0

/-- The store underneath, what it was before each write, what is remembered, the goroutines, and
what the reads answered. -/
structure State where
  now : Nat
  store : Table String
  past : List (Table String)
  memo : List Seen
  calls : List Point
  answers : List (Nat × Seen)

inductive Action
  | tick (d : Nat)
  | start (call : Call)
  | ask (i : Nat)
  | fill (i j : Nat)
  | write (i : Nat)

def remember (memo : List Seen) (e : Seen) : List Seen := e :: memo.filter (·.key ≠ e.key)

/-- Whether a write forgets what was remembered of a key. -/
def forgets (key : String) : Call → Bool
  | .put k _ _ | .add k _ _ | .increment k _ _ | .touch k _ | .forget k => k = key
  | .flush _ => true
  | .get _ | .many _ => false

/-- A read answers what is remembered, under one lock. -/
def State.look (s : State) (keys : List String) : State :=
  { s with
    calls := s.calls ++ [.read s.past.length (keys.filter fun key => !s.memo.any (·.key = key)) []]
    answers := s.answers ++ (s.memo.filter (·.key ∈ keys)).map (s.past.length, ·) }

def State.start (s : State) : Call → State
  | .get key => s.look [key]
  | .many keys => s.look keys
  | call => { s with memo := s.memo.filter (!forgets ·.key call), calls := s.calls ++ [.write call] }

def State.see (s : State) (key : String) : Seen := ⟨key, s.store key, s.now⟩

section

variable (round : Nat → Nat) (batch : Bool)

/-- One step.  `batch` says that the store underneath answers several keys in one call; it is asked
for one after the other if it does not. -/
def step (s : State) : Action → Option State
  | .tick d => some { s with now := s.now + d }
  | .start call => some (s.start call)
  | .ask i =>
    match s.calls[i]? with
    | some (.read since missing retrieved) =>
      let n := if batch then missing.length else 1
      let seen := (missing.take n).map s.see
      some { s with
        calls := s.calls.set i (.read since (missing.drop n) (seen.foldl remember retrieved))
        answers := s.answers ++ seen.map (since, ·) }
    | _ => none
  | .fill i j =>
    match s.calls[i]? with
    | some (.read since [] retrieved) =>
      retrieved[j]?.map fun e =>
        { s with memo := remember s.memo e, calls := s.calls.set i (.read since [] (retrieved.eraseIdx j)) }
    | _ => none
  | .write i =>
    match s.calls[i]? with
    | some (.write call) =>
      some { s with
        store := (answer round s.now call s.store).2
        past := s.past ++ [s.store]
        calls := s.calls.set i .done }
    | _ => none

/-- What is remembered is still in the store, and a write changes nothing that is remembered. -/
def timely (s : State) : Action → Bool
  | .fill i j =>
    match s.calls[i]? with
    | some (.read _ _ retrieved) => retrieved[j]?.all fun e => s.store e.key = e.entry
    | _ => true
  | .write i =>
    match s.calls[i]? with
    | some (.write call) => s.memo.all fun e => (answer round s.now call s.store).2 e.key = s.store e.key
    | _ => true
  | _ => true

end

def State.initial (now : Nat) (store : Table String) : State := ⟨now, store, [], [], [], []⟩

/-- What the store has been since a number of writes. -/
def State.tables (s : State) (since : Nat) : List (Table String) := (s.past ++ [s.store]).drop since

/-- **No read answers what a write replaced** that had returned when the read began. -/
def State.Fresh (s : State) : Prop :=
  ∀ a ∈ s.answers, ∃ t ∈ s.tables a.1, a.2.value = t.get a.2.time a.2.key

/-! ### One step -/

/-- What is remembered is what the store holds. -/
structure Remembers (s : State) : Prop where
  memo : ∀ e ∈ s.memo, s.store e.key = e.entry
  since : ∀ c ∈ s.calls, c.since ≤ s.past.length
  fresh : s.Fresh

theorem value_eq_get {e : Seen} {t : Table String} (h : t e.key = e.entry) : e.value = t.get e.time e.key := by
  rw [Seen.value, Table.get, Table.get, Table.live, Table.live, h]

namespace Remembers

variable {round : Nat → Nat} {batch : Bool} {s t : State}

theorem store_mem {since : Nat} (h : since ≤ s.past.length) : s.store ∈ s.tables since := by
  rw [State.tables, drop_append_of_le_length h]
  exact mem_concat_self

variable (h : Remembers s)
include h

/-- Answers that the store gives now are fresh. -/
theorem fresh_append {since : Nat} {seen : List Seen} (hsince : since ≤ s.past.length)
    (hseen : ∀ e ∈ seen, s.store e.key = e.entry) :
    ∀ a ∈ s.answers ++ seen.map (since, ·), ∃ t ∈ s.tables a.1, a.2.value = t.get a.2.time a.2.key := by
  intro a ha
  rcases mem_append.mp ha with ha | ha
  · exact h.fresh a ha
  · obtain ⟨e, he, rfl⟩ := mem_map.mp ha
    exact ⟨s.store, store_mem hsince, value_eq_get (hseen e he)⟩

theorem start (call : Call) : Remembers (s.start call) := by
  have look : ∀ keys, Remembers (s.look keys) := fun keys =>
    ⟨h.memo, forall_concat h.since (Nat.le_refl _),
      h.fresh_append (Nat.le_refl _) fun e he => h.memo e (mem_of_mem_filter he)⟩
  unfold State.start
  split
  · exact look _
  · exact look _
  · exact ⟨fun e he => h.memo e (mem_of_mem_filter he), forall_concat h.since (Nat.zero_le _), h.fresh⟩

theorem ask {i : Nat} (ht : step round batch s (.ask i) = some t) : Remembers t := by
  simp only [step] at ht
  split at ht
  · next since missing retrieved hi =>
    cases ht
    have hsince : since ≤ s.past.length := h.since _ (mem_of_getElem? hi)
    refine ⟨h.memo, forall_set h.since hsince, h.fresh_append hsince fun e he => ?_⟩
    obtain ⟨_, _, rfl⟩ := mem_map.mp he
    rfl
  · cases ht

theorem fill {i j : Nat} (hok : timely round s (.fill i j))
    (ht : step round batch s (.fill i j) = some t) : Remembers t := by
  simp only [step] at ht
  split at ht
  · next since retrieved hi =>
    obtain ⟨e, he, rfl⟩ := Option.map_eq_some_iff.mp ht
    simp only [timely, hi, he, Option.all_some, decide_eq_true_eq] at hok
    have hsince : since ≤ s.past.length := h.since _ (mem_of_getElem? hi)
    refine ⟨fun e' he' => ?_, forall_set h.since hsince, h.fresh⟩
    rcases mem_cons.mp he' with rfl | he'
    · exact hok
    · exact h.memo e' (mem_of_mem_filter he')
  · cases ht

theorem write {i : Nat} (hok : timely round s (.write i))
    (ht : step round batch s (.write i) = some t) : Remembers t := by
  simp only [step] at ht
  split at ht
  · next call hi =>
    cases ht
    simp only [timely, hi, all_eq_true, decide_eq_true_eq] at hok
    have hlength : ∀ c ∈ s.calls, c.since ≤ (s.past ++ [s.store]).length := fun c hc => by
      rw [length_append]
      exact Nat.le_add_right_of_le (h.since c hc)
    refine ⟨fun e he => (hok e he).trans (h.memo e he), forall_set hlength (Nat.zero_le _), fun a ha => ?_⟩
    obtain ⟨u, hu, hvalue⟩ := h.fresh a ha
    refine ⟨u, ?_, hvalue⟩
    rw [State.tables, drop_append]
    exact mem_append_left _ hu
  · cases ht

end Remembers

/-- **In a run in which no value is remembered that was replaced**, and none written through that has
been remembered again, the reads are fresh. -/
theorem fresh_of_reach {round : Nat → Nat} {batch : Bool} {now : Nat} {store : Table String} {s : State}
    (h : Reach (step round batch) (timely round) (State.initial now store) s) : s.Fresh := by
  have hfirst : Remembers (State.initial now store) :=
    ⟨forall_mem_nil _, forall_mem_nil _, forall_mem_nil _⟩
  refine (h.invariant hfirst fun s a t hs hok ht => ?_).fresh
  cases a with
  | tick =>
    cases ht
    exact ⟨hs.memo, hs.since, hs.fresh⟩
  | start call =>
    cases ht
    exact hs.start call
  | ask => exact hs.ask ht
  | fill => exact hs.fill hok ht
  | write => exact hs.write hok ht

/-- A flag, set for a minute. -/
def put : Call := .put "flag" "on" 60

/-- A read after a write. -/
theorem fresh_after_put : ∃ s : State, s.answers.map (·.2.value) = [none, some "on", some "on"] ∧ s.Fresh := by
  obtain ⟨s, hrun, hs⟩ : ∃ s, Reach (step id false) (timely id) (State.initial 0 Table.empty) s ∧
      s.answers.map (·.2.value) = [none, some "on", some "on"] :=
    Run.exists_reach [.start (.get "flag"), .ask 0, .fill 0 0, .start put, .write 1, .start (.get "flag"), .ask 2,
      .fill 2 0, .start (.many ["flag"])] (by decide)
  exact ⟨s, hs, fresh_of_reach hrun⟩

/-- **A miss outlives the write.**  A read finds nothing and remembers it when a write of the key has
returned.  A read that begins after both answers that there is nothing. -/
theorem miss_after_put : ∃ s : State, Reach (step id false) (fun _ _ => true) (State.initial 0 Table.empty) s ∧
    s.past.length = 1 ∧ s.store.get s.now "flag" = some "on" ∧
    s.answers.map (fun a => (a.1, a.2.key, a.2.value)) = [(0, "flag", none), (1, "flag", none)] := by
  refine Run.exists_reach [.start (.get "flag"), .ask 0, .start put, .write 1, .fill 0 0, .start (.get "flag")] ?_
  decide

end Hesape.Cache.Memoized
