import Hesape.Scheduling.Mutex

/-!
# One claim a window, one run at a time

A window is claimed by a lock that lives an hour and is named after the time of day, so what a
`Create` finds under that name is the claim of its own minute if it comes within the hour that
minute begins; unless an `Exists` has the lock just then, or another event's mutex has that name,
or two replicas read the clock in different places.  A run keeps its mutex from others while the
mutex lives.  One that outlives it and is still in progress when the next one begins overlaps it,
and gives back the mutex of its successor, since a process remembers its locks by the event's name.

`inTime` is the condition that none of this happens.  The invariant `Kept` says where every lock
in the store comes from, and what its owner knows about it.
-/

namespace Hesape.Scheduling

open Hesape.Cache
open Hesape.Run (Reach at_set at_append forall_concat)
open List
open Function

/-- The name of the lock a claim is made by. -/
def Claim.name (c : Claim) : String := schedulingMutexName c.event c.at_

/-- A window is claimed within the hour that begins with its minute, on the clock of `zone`, while
no `Exists` of it is under way; an event is run when no run of it has outlived its mutex; and no mutex
is named like a window. -/
def inTime (zone : Int) (s : State) : Action → Bool
  | .claim event a =>
    a.offset = zone && a.minute * minute ≤ s.now && s.now < a.minute * minute + hour
      && (s.probes.all fun p => p.name ≠ schedulingMutexName event a)
      && s.runs.all fun r => r.event.mutexName ≠ schedulingMutexName event a
  | .run _ event =>
    (s.claims.all fun c => c.name ≠ event.mutexName)
      && s.runs.all fun r => r.finished || r.event.mutexName ≠ event.mutexName || s.now < r.expires
  | _ => true

/-- Two claims of one event and one minute. -/
def Claim.same (c d : Claim) : Bool := c.event.mutexName = d.event.mutexName && c.at_.minute = d.at_.minute

theorem Claim.same_iff {c d : Claim} :
    c.same d ↔ c.event.mutexName = d.event.mutexName ∧ c.at_.minute = d.at_.minute := by
  simp [Claim.same]

/-- How often the window of a claim was granted. -/
def State.grants (s : State) (c : Claim) : Nat := s.claims.countP fun d => d.granted && c.same d

/-- The claim was made on the clock of `zone`, in the hour of its minute. -/
structure Claim.Timely (zone : Int) (now : Nat) (c : Claim) : Prop where
  offset : c.at_.offset = zone
  begun : c.at_.minute * minute ≤ c.time
  hour : c.time < c.at_.minute * minute + hour
  past : c.time ≤ now

/-- What one process remembers under one name is nothing to the others. -/
theorem held_of_ne (held : Nat → Held) (replica other : Nat) {name name' : String} (hne : name' ≠ name)
    (x : Option Nat) :
    update held replica (update (held replica) name x) other name' = held other name' := by
  by_cases hrep : other = replica
  · rw [hrep, update_self, update_of_ne hne]
  · rw [update_of_ne hrep]

/-- What holds in a run whose steps are in time. -/
structure Kept (zone : Int) (s : State) : Prop where
  fresh : s.locks.Fresh
  named : ∀ r ∈ s.runs, (∀ c ∈ s.claims, c.name ≠ r.event.mutexName) ∧ r.token < s.locks.minted
  running : ∀ r ∈ s.runs, r.finished = false → s.held r.replica r.event.mutexName = some r.token
    ∧ s.locks.Holds s.now r.event.mutexName r.token r.expires
  alone : ∀ (i j : Nat) (r q : Run), s.runs[i]? = some r → s.runs[j]? = some q → r.finished = false →
    q.finished = false → r.event.mutexName = q.event.mutexName → i = j
  probing : ∀ p ∈ s.probes, p.token < s.locks.minted ∧ (∀ r ∈ s.runs, r.token ≠ p.token)
    ∧ ∀ c ∈ s.claims, c.granted = true → c.token ≠ p.token
  timely : ∀ c ∈ s.claims, c.Timely zone s.now
  marked : ∀ c ∈ s.claims, c.granted = true →
    c.token < s.locks.minted ∧ s.locks.Holds s.now c.name c.token (c.time + hour)
  origin : ∀ key e, s.locks.table key = some e → s.now < e.expires →
    (∃ p ∈ s.probes, lockKey p.name = key ∧ p.token = e.value) ∨
    (∃ r ∈ s.runs, lockKey r.event.mutexName = key) ∨
    ∃ c ∈ s.claims, c.granted = true ∧ lockKey c.name = key ∧ e.expires = c.time + hour
  once : ∀ c ∈ s.claims, s.grants c = 1

theorem kept_initial (zone : Int) (now : Nat) : Kept zone (State.initial now) where
  fresh := nofun
  named := nofun
  running := nofun
  alone := by simp [State.initial]
  probing := nofun
  timely := nofun
  marked := nofun
  origin := nofun
  once := nofun

namespace Kept

variable {zone : Int} {s : State}

theorem tick (h : Kept zone s) (d : Nat) : Kept zone { s with now := s.now + d } where
  fresh := h.fresh
  named := h.named
  running := fun r hr hf => ⟨(h.running r hr hf).1, (h.running r hr hf).2.later d⟩
  alone := h.alone
  probing := h.probing
  timely := fun c hc =>
    ⟨(h.timely c hc).offset, (h.timely c hc).begun, (h.timely c hc).hour,
      Nat.le_add_right_of_le (h.timely c hc).past⟩
  marked := fun c hc hg => ⟨(h.marked c hc hg).1, (h.marked c hc hg).2.later d⟩
  origin := fun key e he hlive => h.origin key e he (Nat.lt_of_le_of_lt (Nat.le_add_right _ d) hlive)
  once := h.once

/-- A lock nobody got. -/
theorem refused (h : Kept zone s) {locks : Locks} (htable : locks.table = s.locks.table)
    (hminted : s.locks.minted ≤ locks.minted) : Kept zone { s with locks := locks } where
  fresh := by
    intro key e he
    have he : locks.table key = some e := he
    rw [htable] at he
    exact Nat.lt_of_lt_of_le (h.fresh key e he) hminted
  named := fun r hr => ⟨(h.named r hr).1, Nat.lt_of_lt_of_le (h.named r hr).2 hminted⟩
  running := by
    intro r hr hf
    refine ⟨(h.running r hr hf).1, fun hlive => ?_⟩
    show locks.table _ = _
    rw [htable]
    exact (h.running r hr hf).2 hlive
  alone := h.alone
  probing := fun p hp => ⟨Nat.lt_of_lt_of_le (h.probing p hp).1 hminted, (h.probing p hp).2⟩
  timely := h.timely
  marked := by
    intro c hc hg
    refine ⟨Nat.lt_of_lt_of_le (h.marked c hc hg).1 hminted, fun hlive => ?_⟩
    show locks.table _ = _
    rw [htable]
    exact (h.marked c hc hg).2 hlive
  origin := by
    intro key e he
    have he : locks.table key = some e := he
    rw [htable] at he
    exact h.origin key e he
  once := h.once

variable {ttl : Int} {token : Nat} {r : Locks}

variable (h : Kept zone s)
include h

variable {name : String}

/-- Somebody took a lock: all that was held still is, and the new entry is the taker's. -/
theorem origin_taken
    (hr : s.locks.acquire s.now name ttl = (.ok token, r)) (key : String) (e : Entry Nat)
    (he : r.table key = some e) (hlive : s.now < e.expires) :
    (key = lockKey name ∧ e = ⟨token, s.now + ttl.toNat⟩) ∨
    (∃ p ∈ s.probes, lockKey p.name = key ∧ p.token = e.value) ∨
    (∃ r ∈ s.runs, lockKey r.event.mutexName = key) ∨
    ∃ c ∈ s.claims, c.granted ∧ lockKey c.name = key ∧ e.expires = c.time + hour := by
  obtain ⟨-, -, rfl, rfl⟩ := Locks.acquire_ok hr
  have he : s.locks.table.put (lockKey name) s.locks.minted (s.now + ttl.toNat) key = some e := he
  by_cases hkey : key = lockKey name
  · subst hkey
    rw [Table.put_self] at he
    exact .inl ⟨rfl, (Option.some.inj he).symm⟩
  · rw [Table.put_of_ne _ _ _ hkey] at he
    exact .inr (h.origin key e he hlive)

/-- What the other fields say after a lock was taken. -/
theorem taken
    (hr : s.locks.acquire s.now name ttl = (.ok token, r)) :
    r.Fresh ∧ token = s.locks.minted ∧ r.minted = s.locks.minted + 1 ∧
      (∀ q ∈ s.runs, (∀ c ∈ s.claims, c.name ≠ q.event.mutexName) ∧ q.token < r.minted) ∧
      (∀ q ∈ s.runs, q.finished = false → s.held q.replica q.event.mutexName = some q.token
        ∧ r.Holds s.now q.event.mutexName q.token q.expires) ∧
      ∀ c ∈ s.claims, c.granted → c.token < r.minted ∧ r.Holds s.now c.name c.token (c.time + hour) := by
  have hfresh := h.fresh.acquire s.now name ttl
  have hholds : ∀ other t x, s.locks.Holds s.now other t x → (s.locks.acquire s.now name ttl).2.Holds s.now other t x :=
    fun _ _ _ hx => hx.acquire
  rw [hr] at hfresh hholds
  obtain ⟨-, -, htoken, rfl⟩ := Locks.acquire_ok hr
  exact ⟨hfresh, htoken, rfl, fun q hq => ⟨(h.named q hq).1, Nat.lt_succ_of_lt (h.named q hq).2⟩,
    fun q hq hf => ⟨(h.running q hq hf).1, hholds _ _ _ (h.running q hq hf).2⟩,
    fun c hc hg => ⟨Nat.lt_succ_of_lt (h.marked c hc hg).1, hholds _ _ _ (h.marked c hc hg).2⟩⟩

/-- An `Exists` takes the lock it asks about. -/
theorem probe
    (hr : s.locks.acquire s.now name ttl = (.ok token, r)) :
    Kept zone { s with locks := r, probes := s.probes ++ [⟨name, token⟩] } := by
  obtain ⟨hfresh, _, _, hnamed, hrunning, hmarked⟩ := h.taken hr
  have hle : s.locks.minted ≤ r.minted := by omega
  refine ⟨hfresh, hnamed, hrunning, h.alone, ?_, h.timely, hmarked, ?_, h.once⟩
  · intro p hp
    rcases mem_append.mp hp with hp | hp
    · exact ⟨Nat.lt_of_lt_of_le (h.probing p hp).1 hle, (h.probing p hp).2⟩
    · -- The token is a new one.
      rw [mem_singleton.mp hp]
      refine ⟨by show token < r.minted; omega, fun q hq => ?_, fun c hc hg => ?_⟩
      · have := (h.named q hq).2
        show q.token ≠ token
        omega
      · have := (h.marked c hc hg).1
        show c.token ≠ token
        omega
  · intro key e he hlive
    rcases h.origin_taken hr key e he hlive with ⟨rfl, rfl⟩ | ⟨p, hp, hkey⟩ | hrest
    · exact .inl ⟨_, mem_append_right _ mem_cons_self, rfl, rfl⟩
    · exact .inl ⟨p, mem_append_left _ hp, hkey⟩
    · exact .inr hrest

/-- Both halves of what an `Exists` asks first. -/
theorem asked (name : String) (ttl : Int) :
    Kept zone (s.asked name (Scheduling.probe s.locks s.now name ttl)) := by
  unfold Scheduling.probe
  cases hr : s.locks.acquire s.now name ttl with
  | mk answer =>
    cases answer with
    | ok => exact h.probe hr
    | error e =>
      obtain ⟨htable, hle⟩ := Locks.acquire_error hr
      cases e <;> exact h.refused htable hle

/-- An `Exists` gives its lock back. -/
theorem giveBack {i : Nat} {p : Probe} (hp : s.probes[i]? = some p) :
    Kept zone { s with locks := s.locks.release s.now p.name p.token, probes := s.probes.eraseIdx i } := by
  have hmem := mem_of_getElem? hp
  obtain ⟨-, hruns, hclaims⟩ := h.probing p hmem
  refine ⟨h.fresh.release _ _ _, fun q hq => ⟨(h.named q hq).1, ?_⟩, fun q hq hf => ⟨(h.running q hq hf).1, ?_⟩, h.alone,
    fun q hq => ?_, h.timely, fun c hc hg => ⟨?_, ?_⟩, fun key e he hlive => ?_, h.once⟩
  · rw [Locks.release_minted]
    exact (h.named q hq).2
  · exact (h.running q hq hf).2.release fun _ => hruns q hq
  · rw [Locks.release_minted]
    exact h.probing q (mem_of_mem_eraseIdx hq)
  · rw [Locks.release_minted]
    exact (h.marked c hc hg).1
  · exact (h.marked c hc hg).2.release fun _ => hclaims c hc hg
  · rcases h.origin key e (Locks.release_sub he) hlive with ⟨q, hq, hkey, htoken⟩ | hrest
    · -- The entry is another probe's, since this one's is gone.
      have hne : q ≠ p := by
        rintro rfl
        subst hkey
        exact Locks.release_gone he hlive htoken.symm
      refine .inl ⟨q, ?_, hkey, htoken⟩
      obtain ⟨j, hj⟩ := mem_iff_getElem?.mp hq
      refine mem_eraseIdx_iff_getElem?.mpr ⟨j, ?_, hj⟩
      rintro rfl
      exact hne (Option.some.inj (hj.symm.trans hp))
    · exact .inr hrest

/-- A run begins with the mutex. -/
theorem run {replica : Nat} {event : Event}
    (hapart : ∀ c ∈ s.claims, c.name ≠ event.mutexName)
    (hover : ∀ q ∈ s.runs, q.finished = false → q.event.mutexName = event.mutexName → s.now < q.expires)
    (hr : s.locks.acquire s.now event.mutexName event.lifetime = (.ok token, r)) :
    Kept zone { s with
      locks := r
      held := update s.held replica (update (s.held replica) event.mutexName (some token))
      runs := s.runs ++ [{ replica, event, token, expires := s.now + event.lifetime.toNat }] } := by
  obtain ⟨hfresh, _, _, hnamed, hrunning, hmarked⟩ := h.taken hr
  have hle : s.locks.minted ≤ r.minted := by omega
  -- A run of the event in progress would be in its mutex's lifetime, and the mutex was free.
  have hnone : ∀ q ∈ s.runs, q.finished = false → q.event.mutexName ≠ event.mutexName := by
    intro q hq hf hname
    have hheld := (h.running q hq hf).2
    rw [hname] at hheld
    exact hheld.not_free (hover q hq hf hname) (Locks.acquire_ok hr).2.1
  refine ⟨hfresh, forall_concat hnamed ⟨hapart, by show token < r.minted; omega⟩,
    forall_concat (fun q hq hf => ?_) fun _ => ⟨?_, Locks.Holds.taken hr⟩,
    fun i j q p hi hj hq hp hname => ?_, fun p hp => ?_, h.timely, hmarked, fun key e he hlive => ?_, h.once⟩
  · obtain ⟨hheld, hholds⟩ := hrunning q hq hf
    exact ⟨(held_of_ne s.held replica q.replica (hnone q hq hf) _).trans hheld, hholds⟩
  · show update s.held replica _ replica event.mutexName = _
    rw [update_self, update_self]
  · rcases at_append hi with hi | ⟨rfl, rfl⟩ <;> rcases at_append hj with hj | ⟨rfl, rfl⟩
    · exact h.alone i j q p hi hj hq hp hname
    · exact absurd hname (hnone q (mem_of_getElem? hi) hq)
    · exact absurd hname.symm (hnone p (mem_of_getElem? hj) hp)
    · rfl
  · obtain ⟨hlt, hruns, hclaims⟩ := h.probing p hp
    exact ⟨Nat.lt_of_lt_of_le hlt hle, forall_concat hruns (by show token ≠ p.token; omega), hclaims⟩
  · rcases h.origin_taken hr key e he hlive with ⟨rfl, rfl⟩ | hp | ⟨q, hq, hkey⟩ | hc
    · exact .inr (.inl ⟨_, mem_append_right _ mem_cons_self, rfl⟩)
    · exact .inl hp
    · exact .inr (.inl ⟨q, mem_append_left _ hq, hkey⟩)
    · exact .inr (.inr hc)

/-- A run gives back its own mutex, which is nobody else's. -/
theorem finish {i : Nat} {r : Run} (hi : s.runs[i]? = some r) (hf : r.finished = false) :
    Kept zone (s.finish i r) := by
  have hmem := mem_of_getElem? hi
  have hheld := (h.running r hmem hf).1
  have hothers : ∀ (j : Nat) (q : Run), (s.runs.set i { r with finished := true })[j]? = some q →
      q.finished = false → s.runs[j]? = some q ∧ q.event.mutexName ≠ r.event.mutexName := by
    intro j q hj hq
    rcases at_set hj with ⟨rfl, rfl⟩ | ⟨hne, hj⟩
    · cases hq
    · exact ⟨hj, fun hname => hne (h.alone j i q r hj hi hq hf hname)⟩
  have hruns : ∀ q ∈ s.runs.set i { r with finished := true },
      ∃ q' ∈ s.runs, q.event = q'.event ∧ q.token = q'.token := by
    intro q hq
    rcases mem_or_eq_of_mem_set hq with hq | rfl
    · exact ⟨q, hq, rfl, rfl⟩
    · exact ⟨r, hmem, rfl, rfl⟩
  unfold State.finish CacheEventMutex.forget
  rw [hheld]
  refine ⟨h.fresh.release _ _ _, fun q hq => ?_, fun q hq hq' => ?_, fun j k q p hj hk hq hp hname => ?_, fun p hp => ?_,
    h.timely, fun c hc hg => ⟨?_, ?_⟩, fun key e he hlive => ?_, h.once⟩
  · obtain ⟨q', hq', hevent, htoken⟩ := hruns q hq
    rw [Locks.release_minted, hevent, htoken]
    exact h.named q' hq'
  · obtain ⟨j, hj⟩ := mem_iff_getElem?.mp hq
    obtain ⟨hj, hne⟩ := hothers j q hj hq'
    obtain ⟨hq1, hq2⟩ := h.running q (mem_of_getElem? hj) hq'
    exact ⟨(held_of_ne s.held r.replica q.replica hne _).trans hq1, hq2.release fun hname => absurd hname hne⟩
  · exact h.alone j k q p (hothers j q hj hq).1 (hothers k p hk hp).1 hq hp hname
  · obtain ⟨hlt, hr, hc⟩ := h.probing p hp
    rw [Locks.release_minted]
    refine ⟨hlt, fun q hq => ?_, hc⟩
    obtain ⟨q', hq', -, htoken⟩ := hruns q hq
    rw [htoken]
    exact hr q' hq'
  · rw [Locks.release_minted]
    exact (h.marked c hc hg).1
  · exact (h.marked c hc hg).2.release fun hname => absurd hname ((h.named r hmem).1 c hc)
  · rcases h.origin key e (Locks.release_sub he) hlive with hp | ⟨q, hq, hkey⟩ | hc
    · exact .inl hp
    · obtain ⟨j, hj⟩ := mem_iff_getElem?.mp hq
      by_cases hij : j = i
      · subst hij
        rw [hj] at hi
        cases hi
        exact .inr (.inl ⟨{ r with finished := true }, List.mem_set (List.getElem?_eq_some_iff.mp hj).1 _, hkey⟩)
      · refine .inr (.inl ⟨q, List.mem_iff_getElem?.mpr ⟨j, ?_⟩, hkey⟩)
        rw [List.getElem?_set_ne (Ne.symm hij)]
        exact hj
    · exact .inr (.inr hc)

/-- In its hour, a window that was granted is still marked. -/
theorem marked_now {c d : Claim} (hc : c ∈ s.claims)
    (hsame : d.same c) (hhour : s.now < d.at_.minute * minute + hour) : s.now < c.time + hour := by
  obtain ⟨-, hminute⟩ := Claim.same_iff.mp hsame
  have hbegun := (h.timely c hc).begun
  rw [← hminute] at hbegun
  omega

/-- A lock in the way of a window is a claim of that window. -/
theorem same_of_locked {d : Claim} (hd : d.Timely zone s.now) (hnow : d.time = s.now)
    (hprobes : ∀ p ∈ s.probes, p.name ≠ d.name) (hruns : ∀ r ∈ s.runs, r.event.mutexName ≠ d.name) {e : Entry Nat}
    (he : s.locks.table.live s.now (lockKey d.name) = some e) :
    ∃ c ∈ s.claims, c.granted ∧ d.same c := by
  obtain ⟨hentry, hlive⟩ := Table.live_eq_some.mp he
  rcases h.origin _ e hentry hlive with ⟨p, hp, hkey, -⟩ | ⟨r, hr, hkey⟩ | ⟨c, hc, hg, hkey, hexpires⟩
  · exact absurd (lockKey_inj hkey) (hprobes p hp)
  · exact absurd (lockKey_inj hkey) (hruns r hr)
  · refine ⟨c, hc, hg, Claim.same_iff.mpr ?_⟩
    obtain ⟨hname, hday⟩ := schedulingMutexName_inj (lockKey_inj hkey)
    refine ⟨hname.symm, ?_⟩
    -- Two minutes of one time of day less than two hours apart are one.
    have hct := h.timely c hc
    have h1 := hct.begun
    have h2 := hct.hour
    have h3 := hct.past
    have h4 := hd.begun
    have h5 := hd.hour
    rw [hexpires] at hlive
    simp only [At.ofDay, hct.offset, hd.offset] at hday
    unfold hour minute at *
    omega

/-- A window whose lock is free was not claimed, or it would still be marked. -/
theorem unclaimed {d : Claim} (hd : d.Timely zone s.now) (hnow : d.time = s.now)
    (hr : s.locks.acquire s.now d.name ttl = (.ok token, r)) : ∀ c ∈ s.claims, c.same d = false := by
  intro c hc
  rw [Bool.eq_false_iff]
  intro hsame
  obtain ⟨hname, hminute⟩ := Claim.same_iff.mp hsame
  obtain ⟨g, hg, hgrant⟩ := countP_pos_iff.mp (show 0 < s.grants c by rw [h.once c hc]; exact Nat.one_pos)
  rw [Bool.and_eq_true, Claim.same_iff] at hgrant
  obtain ⟨hgranted, hgname, hgminute⟩ := hgrant
  rw [hname] at hgname
  rw [hminute] at hgminute
  have hkey : g.name = d.name := by
    have hofDay : g.at_.ofDay = d.at_.ofDay := by
      rw [At.ofDay, At.ofDay, (h.timely g hg).offset, hd.offset, hgminute]
    rw [Claim.name, Claim.name, schedulingMutexName, schedulingMutexName, At.format, At.format, hofDay, hgname]
  have hheld := (h.marked g hg hgranted).2
  rw [hkey] at hheld
  exact hheld.not_free (h.marked_now hg (Claim.same_iff.mpr ⟨hgname, hgminute⟩) (hnow ▸ hd.hour))
    (Locks.acquire_ok hr).2.1

/-- A window is claimed, or found claimed. -/
theorem claim {event : Event} {a : At} (hoffset : a.offset = zone) (hbegun : a.minute * minute ≤ s.now)
    (hhour : s.now < a.minute * minute + hour) (hprobes : ∀ p ∈ s.probes, p.name ≠ schedulingMutexName event a)
    (hruns : ∀ r ∈ s.runs, r.event.mutexName ≠ schedulingMutexName event a) : Kept zone (s.claim event a) := by
  have htimely : ∀ granted token, (Claim.mk event a granted s.now token).Timely zone s.now := fun _ _ =>
    ⟨hoffset, hbegun, hhour, Nat.le_refl _⟩
  have htimely' : ∀ granted token, ∀ c ∈ s.claims ++ [Claim.mk event a granted s.now token], c.Timely zone s.now :=
    fun granted token => forall_concat h.timely (htimely granted token)
  have hapart : ∀ granted token, ∀ r ∈ s.runs, ∀ c ∈ s.claims ++ [Claim.mk event a granted s.now token],
      c.name ≠ r.event.mutexName :=
    fun _ _ r hr => forall_concat (h.named r hr).1 (hruns r hr).symm
  unfold State.claim CacheSchedulingMutex.create
  cases hr : s.locks.acquire s.now (schedulingMutexName event a) schedulingMutexTTL with
  | mk answer r =>
    cases answer with
    | ok token =>
      obtain ⟨hfresh, _, _, hnamed, hrunning, hmarked⟩ := h.taken hr
      have hle : s.locks.minted ≤ r.minted := by omega
      have hnone := h.unclaimed (htimely true token) rfl hr
      refine ⟨hfresh, fun q hq => ⟨hapart true token q hq, (hnamed q hq).2⟩, hrunning, h.alone, fun p hp => ?_, htimely' true token,
        forall_concat hmarked fun _ => ⟨by show token < r.minted; omega, Locks.Holds.taken hr⟩,
        fun key e he hlive => ?_, fun c hc => ?_⟩
      · obtain ⟨hlt, hruns, hclaims⟩ := h.probing p hp
        exact ⟨Nat.lt_of_lt_of_le hlt hle, hruns, forall_concat hclaims fun _ => by show token ≠ p.token; omega⟩
      · rcases h.origin_taken hr key e he hlive with ⟨rfl, rfl⟩ | hp | hq | ⟨c, hc, hrest⟩
        · exact .inr (.inr ⟨_, mem_append_right _ mem_cons_self, rfl, rfl, rfl⟩)
        · exact .inl hp
        · exact .inr (.inl hq)
        · exact .inr (.inr ⟨c, mem_append_left _ hc, hrest⟩)
      · rw [State.grants, countP_append, countP_singleton]
        rcases (mem_append.mp hc).imp_right mem_singleton.mp with hc | rfl
        · rw [hnone c hc, Bool.and_false]
          exact h.once c hc
        · rw [countP_eq_zero.mpr fun d hd hsame => ?_]
          · simp [Claim.same]
          · rw [Bool.and_eq_true, Claim.same_iff] at hsame
            have := hnone d hd
            rw [Bool.eq_false_iff] at this
            exact this (Claim.same_iff.mpr ⟨hsame.2.1.symm, hsame.2.2.symm⟩)
    | error =>
      have hlocked := Locks.acquire_error_eq (by decide) (schedulingMutexName_ne_empty event a) hr
      subst hlocked
      obtain ⟨htable, hle⟩ := Locks.acquire_error hr
      obtain ⟨e, he⟩ := Locks.acquire_locked hr
      have hk := h.refused htable hle
      obtain ⟨g, hg, hgranted, hsame⟩ :=
        h.same_of_locked (d := ⟨event, a, false, s.now, 0⟩) (htimely false 0) rfl hprobes hruns he
      have hmem : ∀ c ∈ s.claims ++ [(⟨event, a, false, s.now, 0⟩ : Claim)], c.granted → c ∈ s.claims :=
        forall_concat (fun _ hc _ => hc) fun hg => by cases hg
      refine ⟨hk.fresh, fun q hq => ⟨hapart false 0 q hq, (hk.named q hq).2⟩, hk.running, hk.alone, fun p hp => ?_, htimely' false 0,
        fun c hc hcg => hk.marked c (hmem c hc hcg) hcg, fun key x hx hlive => ?_, fun c hc => ?_⟩
      · obtain ⟨hlt, hruns, hclaims⟩ := hk.probing p hp
        exact ⟨hlt, hruns, fun c hc hcg => hclaims c (hmem c hc hcg) hcg⟩
      · rcases hk.origin key x hx hlive with hp | hq | ⟨c, hc, hrest⟩
        · exact .inl hp
        · exact .inr (.inl hq)
        · exact .inr (.inr ⟨c, mem_append_left _ hc, hrest⟩)
      · rw [State.grants, countP_append, countP_singleton, Bool.false_and]
        rcases mem_append.mp hc with hc | hc
        · exact h.once c hc
        · -- The claims like this one are those like the one that was granted.
          rw [mem_singleton.mp hc]
          obtain ⟨hname, hminute⟩ := Claim.same_iff.mp hsame
          have heq : ∀ d : Claim, Claim.same ⟨event, a, false, s.now, 0⟩ d = g.same d := by
            intro d
            rw [Claim.same, Claim.same, ← hname, ← hminute]
          simp only [heq]
          exact h.once g hg

end Kept

/-- **One operation.** -/
theorem kept_step {zone : Int} {s t : State} {act : Action} (h : Kept zone s) (hok : inTime zone s act)
    (ht : s.step act = some t) : Kept zone t := by
  cases act with
  | tick d =>
    cases ht
    exact h.tick d
  | claim =>
    cases ht
    simp only [inTime, Bool.and_eq_true, decide_eq_true_eq, all_eq_true] at hok
    obtain ⟨⟨⟨⟨hoffset, hbegun⟩, hhour⟩, hprobes⟩, hruns⟩ := hok
    exact h.claim hoffset hbegun hhour hprobes hruns
  | askWindow =>
    cases ht
    exact h.asked _ _
  | askEvent =>
    cases ht
    unfold CacheEventMutex.exists
    split
    · exact h.refused rfl (Nat.le_refl _)
    · exact h.asked _ _
  | giveBack =>
    simp only [State.step] at ht
    split at ht
    · cases ht
    · next p hp =>
      cases ht
      exact h.giveBack hp
  | run replica event =>
    cases ht
    simp only [inTime, Bool.and_eq_true, decide_eq_true_eq, all_eq_true, Bool.or_eq_true] at hok
    obtain ⟨hapart, hover⟩ := hok
    unfold State.run CacheEventMutex.create
    cases hr : s.locks.acquire s.now event.mutexName event.lifetime with
    | mk answer =>
      cases answer with
      | ok =>
        refine h.run hapart (fun q hq hf hname => ?_) hr
        rcases hover q hq with (hfin | hne) | hlive
        · rw [hf] at hfin
          cases hfin
        · exact absurd hname hne
        · exact hlive
      | error e =>
        obtain ⟨htable, hle⟩ := Locks.acquire_error hr
        have hheld : update s.held replica (s.held replica) = s.held := update_eq_self ..
        cases e <;> simp only [hheld] <;> exact h.refused htable hle
  | finish =>
    simp only [State.step] at ht
    split at ht
    · cases ht
    · next r hr =>
      split at ht
      · cases ht
      · next hf =>
        cases ht
        exact h.finish hr (Bool.eq_false_iff.mpr hf)

theorem kept_of_reach {zone : Int} {now : Nat} {s : State}
    (h : Reach State.step (inTime zone) (State.initial now) s) : Kept zone s :=
  h.invariant (kept_initial zone now) fun _ _ _ hs hok ht => kept_step hs hok ht

/-- The run is in progress. -/
def State.inProgress (s : State) (i : Nat) (r : Run) : Prop := s.runs[i]? = some r ∧ r.finished = false

/-- **A window is claimed once and a mutex is not stolen.**  In a run whose steps are in time: of the
claims of a window exactly one was granted; no two runs of an event are in progress while the mutex of
one of them lives; and a run that finishes leaves the lock of every other one in the store. -/
theorem claimed_once_and_not_stolen {zone : Int} {now : Nat} {s : State}
    (h : Reach State.step (inTime zone) (State.initial now) s) :
    (∀ c ∈ s.claims, s.grants c = 1) ∧
    (∀ i j r q, s.inProgress i r → s.inProgress j q → r.event.mutexName = q.event.mutexName →
      s.now < r.expires ∨ s.now < q.expires → i = j) ∧
    ∀ i j q t, i ≠ j → s.inProgress j q → s.step (.finish i) = some t →
      t.locks.Holds t.now q.event.mutexName q.token q.expires := by
  have hkept := kept_of_reach h
  refine ⟨hkept.once, fun i j r q hi hj hname _ => hkept.alone i j r q hi.1 hj.1 hi.2 hj.2 hname,
    fun i j q t hij hq ht => ?_⟩
  have hnext : Kept zone t := kept_step hkept rfl ht
  simp only [State.step] at ht
  split at ht
  · cases ht
  · next r hr =>
    split at ht
    · cases ht
    · cases ht
      refine (hnext.running q ?_ hq.2).2
      refine List.mem_iff_getElem?.mpr ⟨j, ?_⟩
      show (s.runs.set i _)[j]? = _
      rw [List.getElem?_set_ne hij]
      exact hq.1

/-! ### Where it fails -/

/-- An event whose mutex lives a minute. -/
def everyMinute : Event := ⟨"framework/schedule-0123456789012345678901234567890123456789", 1⟩

/-- The first minute, on the clock of UTC. -/
def midnight : At := ⟨0, 0⟩

/-- The run is in progress and its mutex has not expired. -/
def State.guarded (s : State) (i : Nat) : Bool := s.runs[i]?.any fun r => !r.finished && s.now < r.expires

/-- Two replicas claim one window, after somebody asked about it, and run the event in turn. -/
theorem claimed_once_and_not_stolen_in_turn :
    ∃ s : State, (s.claims.length = 2 ∧ ∀ c ∈ s.claims, s.grants c = 1) ∧
      s.guarded 1 = true ∧ ∀ i r q, s.inProgress i r → s.inProgress 1 q → r.event.mutexName = q.event.mutexName →
        s.now < q.expires → i = 1 := by
  obtain ⟨s, hrun, hlen, hguarded⟩ : ∃ s, Reach State.step (inTime 0) (State.initial 0) s ∧
      s.claims.length = 2 ∧ s.guarded 1 :=
    Run.exists_reach [.askWindow everyMinute midnight, .giveBack 0, .claim everyMinute midnight, .tick minute,
      .claim everyMinute midnight, .run 0 everyMinute, .finish 0, .run 1 everyMinute] (by decide +kernel)
  obtain ⟨honce, halone, -⟩ := claimed_once_and_not_stolen hrun
  exact ⟨s, ⟨hlen, honce⟩, hguarded, fun i r q hi hq hname hlive => halone i 1 r q hi hq hname (.inr hlive)⟩

/-- **Nobody has the window, two have it, and a mutex is given back by the wrong run.**  An `Exists`
holds the lock while the only `Create` asks for it; a second `Create` comes an hour after the first;
and a run that outlived its mutex finishes in the process that has begun the next one, whose lock it
gives back, so that a third one begins beside it. -/
theorem claimed_never_or_twice_and_stolen :
    (Run.follow State.step (fun _ _ => true) (State.initial 0)
      [.askWindow everyMinute midnight, .claim everyMinute midnight, .giveBack 0]).any
        (fun s => s.claims.length = 1 && s.claims.all fun c => s.grants c = 0) = true ∧
    (Run.follow State.step (fun _ _ => true) (State.initial 0)
      [.claim everyMinute midnight, .tick hour, .claim everyMinute midnight]).any
        (fun s => s.claims.all fun c => s.grants c = 2) = true ∧
    (Run.follow State.step (fun _ _ => true) (State.initial 0)
      [.run 0 everyMinute, .tick minute, .run 0 everyMinute, .finish 0]).any
        (fun s => s.guarded 1 && (s.locks.table (lockKey everyMinute.mutexName)).isNone) = true ∧
    (Run.follow State.step (fun _ _ => true) (State.initial 0)
      [.run 0 everyMinute, .tick minute, .run 0 everyMinute, .finish 0, .run 1 everyMinute]).any
        (fun s => s.guarded 1 && s.guarded 2) = true := by
  refine ⟨?_, ?_, ?_, ?_⟩
  · decide +kernel
  · decide +kernel
  · decide +kernel
  · decide +kernel

end Hesape.Scheduling
