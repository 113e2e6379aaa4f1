import Hesape.Auth.Tenant
import Hesape.Scheduling.Mutex
import Mathlib.Data.List.Nodup

/-!
# Scheduled tasks

`TaskScheduler` runs the tasks modules declare.  A replica's tick fires what is due in a minute, one
task and one tenant after another, each for as long as it takes up to its timeout; `RunNow` fires one
by hand.  A singleton claims its occurrence, one task for one tenant in one UTC minute, by a lock that
is never released and lives an hour, or the task's timeout if that is longer.

The minute was fixed when the tick began, the lock's lifetime begins when the first replica comes to
the task, and how late another one comes depends on what it ran before.  So an occurrence happens once
if every replica comes to it within the lifetime of a claim made in its minute (`inTime`).  The claim
is named after the tenant of the system grant the task runs under, which is empty for a tenant that is
not valid, so occurrences are told apart for valid tenants only.
-/

namespace Hesape.Scheduling.Tasks

open Hesape.Cache
open Hesape.Run (Reach forall_set forall_concat)
open Hesape.Scheduling (At minute hour)
open List

/-! ### Tasks -/

inductive Scope
  | global
  | perTenant

/-- A task as a module declares it.  `spec` is what its cron expression parses to: when it is due. -/
structure Task where
  id : String
  spec : At → Bool
  scope : Scope
  singleton : Bool
  timeout : Int

/-- A scheduler: `NewTaskScheduler` refuses an id that comes twice, and a task without a timeout gets
the default one. -/
structure TaskScheduler where
  entries : List Task
  unique : (entries.map Task.id).Nodup
  timeout_pos : ∀ t ∈ entries, 0 < t.timeout

/-- Tasks of one id are one task. -/
theorem TaskScheduler.eq_of_id (ts : TaskScheduler) {t u : Task} (ht : t ∈ ts.entries) (hu : u ∈ ts.entries)
    (h : t.id = u.id) : t = u :=
  inj_on_of_nodup_map ts.unique ht hu h

/-! ### Occurrences -/

/-- One task for one tenant in one UTC minute. -/
structure Occurrence where
  id : String
  tenant : String
  minute : Nat
deriving DecidableEq

/-- `TaskOccurrenceName`, with the tenant of the grant: the minute stands as the second it begins
with. -/
def Occurrence.name (o : Occurrence) : String :=
  "sched:" ++ (Auth.systemTenant o.tenant ++ ":" ++ o.id ++ ":" ++ toString (o.minute * 60))

/-- The grant is for the tenant it was asked for. -/
def Occurrence.granted (o : Occurrence) : Bool := Auth.systemTenant o.tenant = o.tenant

/-- How long a claim of the task lives. -/
def Task.claimTTL (t : Task) : Int := max hour t.timeout

/-- The names tell the occurrences of granted tenants apart: a tenant of a grant holds no colon. -/
theorem Occurrence.name_inj {o p : Occurrence} (ho : o.granted) (hp : p.granted)
    (h : o.name = p.name) : o = p := by
  obtain ⟨hleft, hminute⟩ := Text.last_colon_inj (Text.colon_notMem_toString _) (Text.colon_notMem_toString _)
    (Text.append_left_inj h)
  obtain ⟨htenant, hid⟩ := Text.colon_inj (Auth.systemTenant_colon _) (Auth.systemTenant_colon _) hleft
  rw [of_decide_eq_true ho, of_decide_eq_true hp] at htenant
  have hminute := Text.toString_inj hminute
  cases o
  cases p
  simp only [Occurrence.mk.injEq] at *
  exact ⟨hid, htenant, by omega⟩

/-! ### The system -/

/-- A tick or a manual run: its window, the tasks and tenants it still has to come to, and since when
it is running one. -/
structure Party where
  window : At
  pending : List (Task × String)
  running : Option (Task × Nat) := none

/-- A singleton's occurrence that was executed, with the token of its claim. -/
structure Execution where
  occurrence : Occurrence
  token : Nat

/-- An occurrence that was skipped, with the token of the claim in its way. -/
structure Skip where
  occurrence : Occurrence
  holder : Nat

structure State where
  now : Nat
  locks : Locks
  parties : List Party
  executed : List Execution
  skipped : List Skip

inductive Action
  | tick (d : Nat)
  /-- `Tick`; `tenants` is what the resolver will answer when a per-tenant task is come to. -/
  | fire (window : At) (tenants : String → Option (List String))
  | runNow (id tenant : String) (window : At)
  /-- A party comes to `runOne` of its next task. -/
  | reach (i : Nat)
  /-- The task it is running is done. -/
  | done (i : Nat)

variable (ts : TaskScheduler)

/-- What `Runner.Run` comes to in one window, in order. -/
def due (window : At) (tenants : String → Option (List String)) : List (Task × String) :=
  (ts.entries.filter fun t => t.spec window).flatMap fun t =>
    match t.scope with
    | .global => [(t, "")]
    | .perTenant => ((tenants t.id).getD []).map fun tenant => (t, tenant)

/-- What `RunNow` comes to: nothing for an unknown id, or a per-tenant task without a tenant. -/
def manual (id tenant : String) : List (Task × String) :=
  match ts.entries.find? (·.id = id) with
  | none => []
  | some t =>
    match t.scope with
    | .global => [(t, "")]
    | .perTenant => if tenant = "" then [] else [(t, tenant)]

namespace State

variable (s : State)

def move (i : Nat) (p : Party) : State := { s with parties := s.parties.set i p }

/-- The occurrence a party is about to come to. -/
def occurrence (p : Party) (t : Task) (tenant : String) : Occurrence := ⟨t.id, tenant, p.window.minute⟩

/-- `runOne`: a singleton is executed under its claim, anything else at once. -/
def runOne (i : Nat) (p : Party) (t : Task) (tenant : String) (rest : List (Task × String)) : State :=
  if !t.singleton then s.move i { p with pending := rest, running := some (t, s.now) }
  else
    match s.locks.acquire s.now (occurrence p t tenant).name t.claimTTL with
    | (.ok token, l) =>
      move { s with locks := l, executed := s.executed ++ [⟨occurrence p t tenant, token⟩] } i
        { p with pending := rest, running := some (t, s.now) }
    | (.error .locked, l) =>
      move { s with locks := l
                    skipped := s.skipped ++ ((s.locks.table.live s.now (lockKey (occurrence p t tenant).name)).map
                      fun e => Skip.mk (occurrence p t tenant) e.value).toList } i { p with pending := rest }
    | (.error _, l) => move { s with locks := l } i { p with pending := rest }

/-- A run takes no longer than its timeout. -/
def step : Action → Option State
  | .tick d => some { s with now := s.now + d }
  | .fire window tenants => some { s with parties := s.parties ++ [{ window, pending := due ts window tenants }] }
  | .runNow id tenant window => some { s with parties := s.parties ++ [{ window, pending := manual ts id tenant }] }
  | .reach i =>
    match s.parties[i]? with
    | some ⟨window, (t, tenant) :: rest, none⟩ => some (s.runOne i ⟨window, (t, tenant) :: rest, none⟩ t tenant rest)
    | _ => none
  | .done i =>
    match s.parties[i]? with
    | some ⟨window, pending, some (t, since)⟩ =>
      if s.now ≤ since + t.timeout then some (s.move i ⟨window, pending, none⟩) else none
    | _ => none

def initial (now : Nat) : State := ⟨now, ⟨Table.empty, 0⟩, [], [], []⟩

end State

/-- A singleton is come to between the beginning of its minute and the end of a claim made then, and
its grant is for its tenant. -/
def inTime (s : State) : Action → Bool
  | .reach i =>
    match s.parties[i]? with
    | some ⟨window, (t, tenant) :: _, none⟩ =>
      !t.singleton || (window.minute * minute ≤ s.now && s.now < window.minute * minute + t.claimTTL
        && Occurrence.granted ⟨t.id, tenant, window.minute⟩)
    | _ => true
  | _ => true

/-! ### Every execution keeps its claim -/

/-- What holds in a run whose steps are in time. -/
structure Kept (s : State) : Prop where
  pending : ∀ p ∈ s.parties, ∀ x ∈ p.pending, x.1 ∈ ts.entries
  claimed : ∀ x ∈ s.executed, x.occurrence.granted ∧ x.token < s.locks.minted ∧
    ∃ t ∈ ts.entries, t.id = x.occurrence.id ∧ ∃ expires : Nat,
      (x.occurrence.minute * minute + t.claimTTL : Int) ≤ expires ∧
      s.locks.Holds s.now x.occurrence.name x.token expires
  origin : ∀ key e, s.locks.table key = some e → s.now < e.expires →
    ∃ x ∈ s.executed, lockKey x.occurrence.name = key ∧ x.token = e.value
  once : (s.executed.map Execution.occurrence).Nodup
  own : ∀ k ∈ s.skipped, ∃ x ∈ s.executed, x.token = k.holder ∧ x.occurrence = k.occurrence

theorem kept_initial (now : Nat) : Kept ts (State.initial now) where
  pending := nofun
  claimed := nofun
  origin := nofun
  once := nodup_nil
  own := nofun

namespace Kept

variable {ts} {s : State}

variable (h : Kept ts s)
include h

theorem tick (d : Nat) : Kept ts { s with now := s.now + d } := by
  refine ⟨h.pending, fun x hx => ?_, fun key e he hlive => ?_, h.once, h.own⟩
  · obtain ⟨hgranted, htoken, t, ht, hid, expires, hle, hholds⟩ := h.claimed x hx
    exact ⟨hgranted, htoken, t, ht, hid, expires, hle, hholds.later d⟩
  · exact h.origin key e he (Nat.lt_of_le_of_lt (Nat.le_add_right _ d) hlive)

/-- What moves only the parties. -/
theorem parties {parties : List Party} (hp : ∀ p ∈ parties, ∀ x ∈ p.pending, x.1 ∈ ts.entries) :
    Kept ts { s with parties := parties } :=
  ⟨hp, h.claimed, h.origin, h.once, h.own⟩

theorem move (i : Nat) {p : Party} (hp : ∀ x ∈ p.pending, x.1 ∈ ts.entries) : Kept ts (s.move i p) :=
  h.parties (forall_set h.pending hp)

/-- A lock nobody got. -/
theorem refused {locks : Locks} (htable : locks.table = s.locks.table)
    (hminted : s.locks.minted ≤ locks.minted) : Kept ts { s with locks := locks } := by
  refine ⟨h.pending, fun x hx => ?_, fun key e he => ?_, h.once, h.own⟩
  · obtain ⟨hgranted, htoken, t, ht, hid, expires, hle, hholds⟩ := h.claimed x hx
    refine ⟨hgranted, Nat.lt_of_lt_of_le htoken hminted, t, ht, hid, expires, hle, fun hlive => ?_⟩
    show locks.table _ = _
    rw [htable]
    exact hholds hlive
  · have he : locks.table key = some e := he
    rw [htable] at he
    exact h.origin key e he

variable {o : Occurrence}

/-- An occurrence whose claim is free was not executed. -/
theorem new_of_free {t : Task} (ht : t ∈ ts.entries) (ho : o.id = t.id)
    (hlate : (s.now : Int) < o.minute * minute + t.claimTTL)
    (hfree : s.locks.table.live s.now (lockKey o.name) = none) :
    o ∉ s.executed.map Execution.occurrence := by
  intro hmem
  obtain ⟨x, hx, rfl⟩ := mem_map.mp hmem
  obtain ⟨-, -, u, hu, hid, _, _, hholds⟩ := h.claimed x hx
  have htu : u = t := ts.eq_of_id hu ht (hid.trans ho)
  subst htu
  exact hholds.not_free (by omega) hfree

/-- A singleton is executed. -/
theorem execute {t : Task} (ht : t ∈ ts.entries) (ho : o.id = t.id)
    (hgranted : o.granted) (hbegun : o.minute * minute ≤ s.now)
    (hlate : (s.now : Int) < o.minute * minute + t.claimTTL) {token : Nat} {r : Locks}
    (hr : s.locks.acquire s.now o.name t.claimTTL = (.ok token, r)) :
    Kept ts { s with locks := r, executed := s.executed ++ [⟨o, token⟩] } := by
  have hholds : ∀ other k x, s.locks.Holds s.now other k x → r.Holds s.now other k x := by
    intro other k x hx
    have hacquire : (s.locks.acquire s.now o.name t.claimTTL).2.Holds s.now other k x := hx.acquire
    rwa [hr] at hacquire
  have htaken := Locks.Holds.taken hr
  have hnew := h.new_of_free ht ho hlate (Locks.acquire_ok hr).2.1
  obtain ⟨_, -, htoken, hrt⟩ := Locks.acquire_ok hr
  have hminted : r.minted = s.locks.minted + 1 := by rw [hrt]
  refine ⟨h.pending, fun x hx => ?_, fun key e he hlive => ?_, ?_, fun k hk => ?_⟩
  · rcases (mem_append.mp hx).imp_right mem_singleton.mp with hx | rfl
    · obtain ⟨hc, _, u, hu, hid, expires, hle, hx'⟩ := h.claimed x hx
      exact ⟨hc, by show x.token < r.minted; omega, u, hu, hid, expires, hle, hholds _ _ _ hx'⟩
    · refine ⟨hgranted, by show token < r.minted; omega, t, ht, ho.symm, _, ?_, htaken⟩
      show (o.minute * minute + t.claimTTL : Int) ≤ ((s.now + t.claimTTL.toNat : Nat) : Int)
      omega
  · have he : r.table key = some e := he
    rw [hrt] at he
    have he : s.locks.table.put (lockKey o.name) s.locks.minted (s.now + t.claimTTL.toNat) key = some e := he
    by_cases hkey : key = lockKey o.name
    · subst hkey
      rw [Table.put_self] at he
      cases he
      exact ⟨_, mem_append_right _ mem_cons_self, rfl, htoken⟩
    · rw [Table.put_of_ne _ _ _ hkey] at he
      obtain ⟨x, hx, hrest⟩ := h.origin key e he hlive
      exact ⟨x, mem_append_left _ hx, hrest⟩
  · rw [map_append, map_singleton]
    exact h.once.append (nodup_singleton _) (by simpa using hnew)
  · obtain ⟨x, hx, hrest⟩ := h.own k hk
    exact ⟨x, mem_append_left _ hx, hrest⟩

/-- An occurrence is skipped: the claim in its way is its own. -/
theorem skip (hgranted : o.granted) {locks : Locks}
    (htable : locks.table = s.locks.table) (hminted : s.locks.minted ≤ locks.minted) :
    Kept ts { s with locks := locks
                     skipped := s.skipped ++ ((s.locks.table.live s.now (lockKey o.name)).map
                       fun e => Skip.mk o e.value).toList } := by
  have hk := h.refused htable hminted
  refine ⟨hk.pending, hk.claimed, hk.origin, hk.once, fun k hmem => ?_⟩
  rcases mem_append.mp hmem with hmem | hmem
  · exact h.own k hmem
  · obtain ⟨e, he, rfl⟩ := Option.map_eq_some_iff.mp (Option.mem_toList.mp hmem)
    obtain ⟨hentry, hlive⟩ := Table.live_eq_some.mp he
    obtain ⟨x, hx, hkey, htoken⟩ := h.origin _ e hentry hlive
    exact ⟨x, hx, htoken, Occurrence.name_inj (h.claimed x hx).1 hgranted (lockKey_inj hkey)⟩

end Kept

variable {x : Task × String}

/-- What a tick and a manual run come to are tasks of the scheduler. -/
theorem mem_due {window : At} {tenants : String → Option (List String)}
    (hx : x ∈ due ts window tenants) : x.1 ∈ ts.entries := by
  obtain ⟨t, ht, hx⟩ := mem_flatMap.mp hx
  have ht := (mem_filter.mp ht).1
  split at hx
  · rw [mem_singleton.mp hx]
    exact ht
  · obtain ⟨_, -, rfl⟩ := mem_map.mp hx
    exact ht

theorem mem_manual {id tenant : String} (hx : x ∈ manual ts id tenant) : x.1 ∈ ts.entries := by
  unfold manual at hx
  split at hx
  · cases hx
  · next t ht =>
    have hmem := mem_of_find?_eq_some ht
    split at hx
    · rw [mem_singleton.mp hx]
      exact hmem
    · split at hx
      · cases hx
      · rw [mem_singleton.mp hx]
        exact hmem

theorem Kept.begin {ts : TaskScheduler} {s : State} (h : Kept ts s) {p : Party}
    (hp : ∀ x ∈ p.pending, x.1 ∈ ts.entries) : Kept ts { s with parties := s.parties ++ [p] } :=
  h.parties (forall_concat h.pending hp)

variable {ts}

/-- **One step.** -/
theorem kept_step {s u : State} {a : Action} (h : Kept ts s) (hok : inTime s a)
    (hu : s.step ts a = some u) : Kept ts u := by
  cases a with
  | tick d =>
    cases hu
    exact h.tick d
  | fire =>
    cases hu
    exact h.begin fun x hx => mem_due ts hx
  | runNow =>
    cases hu
    exact h.begin fun x hx => mem_manual ts hx
  | reach i =>
    simp only [State.step] at hu
    split at hu
    · next window t tenant rest hp =>
      cases hu
      have hpending := h.pending _ (mem_of_getElem? hp)
      have ht : t ∈ ts.entries := hpending (t, tenant) mem_cons_self
      have hrest : ∀ x ∈ rest, x.1 ∈ ts.entries := fun x hx => hpending x (mem_cons_of_mem _ hx)
      simp only [inTime, hp] at hok
      unfold State.runOne
      split
      · exact h.move i hrest
      · next hsingle =>
        have hsingle : t.singleton := by simpa using hsingle
        simp only [hsingle, Bool.not_true, Bool.false_or, Bool.and_eq_true, decide_eq_true_eq] at hok
        obtain ⟨⟨hbegun, hlate⟩, hgranted⟩ := hok
        split
        · next token r hr =>
          exact (h.execute (o := ⟨t.id, tenant, window.minute⟩) ht rfl hgranted hbegun hlate hr).move i hrest
        · next r hr =>
          obtain ⟨htable, hle⟩ := Locks.acquire_error hr
          exact (h.skip (o := ⟨t.id, tenant, window.minute⟩) hgranted htable hle).move i hrest
        · next e r hr =>
          obtain ⟨htable, hle⟩ := Locks.acquire_error hr
          exact (h.refused htable hle).move i hrest
    · cases hu
  | done i =>
    simp only [State.step] at hu
    split at hu
    · next window pending t since hp =>
      split at hu
      · cases hu
        have hpending := h.pending _ (mem_of_getElem? hp)
        exact h.move i hpending
      · cases hu
    · cases hu

theorem kept_of_reach {now : Nat} {s : State} (h : Reach (State.step ts) inTime (State.initial now) s) : Kept ts s :=
  h.invariant (kept_initial ts now) fun _ _ _ hs hok hu => kept_step hs hok hu

/-- **An occurrence runs at most once, and suppresses no other.**  In a run whose steps are in time no
occurrence was executed twice over all replicas, and what was skipped was skipped for an execution of
that very occurrence. -/
theorem occurrence_runs_once {now : Nat} {s : State} (h : Reach (State.step ts) inTime (State.initial now) s) :
    (s.executed.map Execution.occurrence).Nodup ∧
      ∀ k ∈ s.skipped, ∃ x ∈ s.executed, x.token = k.holder ∧ x.occurrence = k.occurrence :=
  ⟨(kept_of_reach h).once, (kept_of_reach h).own⟩

/-! ### Where it fails -/

/-- A task that is due every minute. -/
def everyMinute (id : String) (scope : Scope) (singleton : Bool) (timeout : Int) : Task :=
  ⟨id, fun _ => true, scope, singleton, timeout⟩

/-- Two long tasks before a singleton. -/
def slowFirst : TaskScheduler where
  entries := [everyMinute "a" .global false hour, everyMinute "b" .global false hour,
    everyMinute "c" .global true (5 * minute)]
  unique := by decide
  timeout_pos := by decide

/-- A singleton of every tenant. -/
def eachTenant : TaskScheduler where
  entries := [everyMinute "c" .perTenant true hour]
  unique := by decide
  timeout_pos := by decide

/-- Two replicas come to the singleton in its minute: one of them runs it, the other skips it. -/
theorem occurrence_runs_once_in_turn :
    ∃ s : State, s.skipped.length = 1 ∧ (s.executed.map Execution.occurrence).Nodup ∧
      ∀ k ∈ s.skipped, ∃ x ∈ s.executed, x.token = k.holder ∧ x.occurrence = k.occurrence := by
  obtain ⟨s, hrun, hp⟩ : ∃ s, Reach (State.step slowFirst) inTime (State.initial 0) s ∧
      s.skipped.length = 1 :=
    Run.exists_reach [.fire ⟨0, 0⟩ (fun _ => none), .fire ⟨0, 0⟩ (fun _ => none), .reach 0, .reach 1, .done 0,
      .done 1, .reach 0, .reach 1, .tick minute, .done 0, .done 1, .reach 0, .reach 1] (by decide +kernel)
  obtain ⟨honce, hown⟩ := occurrence_runs_once hrun
  exact ⟨s, hp, honce, hown⟩

/-- **An occurrence runs twice, and one suppresses another.**  The second replica runs two tasks of
an hour each, within their timeouts, before it comes to the singleton the first one ran; and a tenant
whose name is not valid takes the claim of another such tenant. -/
theorem occurrence_runs_twice_or_never :
    (Run.follow (State.step slowFirst) (fun _ _ => true) (State.initial 0)
      [.fire ⟨0, 0⟩ (fun _ => none), .fire ⟨0, 0⟩ (fun _ => none), .reach 0, .done 0, .reach 0, .done 0, .reach 0,
        .reach 1, .tick hour, .done 1, .reach 1, .tick hour, .done 1, .reach 1]).any
        (fun s => s.executed.map Execution.occurrence = [⟨"c", "", 0⟩, ⟨"c", "", 0⟩]) = true ∧
    (Run.follow (State.step eachTenant) (fun _ _ => true) (State.initial 0)
      [.runNow "c" "A" ⟨0, 0⟩, .runNow "c" "B" ⟨0, 0⟩, .reach 0, .reach 1]).any
        (fun s => s.executed.map Execution.occurrence = [⟨"c", "A", 0⟩]
          && s.skipped.map Skip.occurrence = [⟨"c", "B", 0⟩]) = true := by
  constructor
  · decide +kernel
  · decide +kernel

end Hesape.Scheduling.Tasks
