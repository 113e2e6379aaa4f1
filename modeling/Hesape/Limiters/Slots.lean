import Hesape.Limiters.Concurrency
import Mathlib.Order.Interval.Finset.Nat

/-!
# Slots bound the work

What one step of a caller can do is said once (`Moves`): it goes on without a slot, takes one nobody
has, goes on with the one it has, or returns, having found another's id under its key, removed its
own, or seen that the key was written since it watched it.  So an id is only ever under the key its
caller remembers (`Sound`), whatever expires in between, and that gives the limit, that nobody's
slot is removed by another, and that nothing is left when `Block` returns.

The callers of two limiters meet where their keys do.  The key of slot `11` of `a` is the key of
slot `1` of `a1`, so one limiter's work takes slots of the other (`export_squeezed`).  Where
limiters of different names share no key (`Separate`), leaving out of a run everything the others
do changes nothing for the callers of one name.
-/

namespace Hesape.Limiters

open Hesape.Redis (Keys)
open Function

/-- A caller's id is under a key. -/
def Has (store : Keys String Holding) (who : Caller) (k : String) : Prop :=
  ∃ e, store.entries k = some e ∧ e.id = who

/-- The slot a place remembers. -/
def Place.slot? : Place → Option String
  | .running slot | .leaving slot _ | .watching slot _ _ | .checked slot _ _ => some slot
  | .trying _ | .waiting | .returned _ => none

/-! ### What a step does -/

/-- What one step of a call can be, read off what is under its target. -/
inductive Moves (who : Caller) (entry : Option Holding) (version : Nat) :
    Place → Place → Option (Option Holding) → Prop
  | rest {p q : Place} (hp : p.slot? = none) (hq : q.slot? = none) (hi : ∀ i, q = .trying i → 0 < i) :
      Moves who entry version p q none
  | take (i : Nat) (expires : Bool) (within : (i : Int) ≤ who.limiter.maxLocks) (free : entry = none) :
      Moves who entry version (.trying i) (.running (who.limiter.slot i)) (some (some ⟨who, expires⟩))
  | finish (slot : String) (o : Outcome) : Moves who entry version (.running slot) (.leaving slot o) none
  | watch (slot : String) (o : Outcome) :
      Moves who entry version (.leaving slot o) (.watching slot o version) none
  | check (slot : String) (o : Outcome) (n : Nat) (own : entry.any (·.id = who) = true) :
      Moves who entry version (.watching slot o n) (.checked slot o n) none
  | miss (slot : String) (o : Outcome) (n : Nat) (other : entry.any (·.id = who) = false) :
      Moves who entry version (.watching slot o n) (.returned (.ran o)) none
  | remove (slot : String) (o : Outcome) (n : Nat) (same : version = n) :
      Moves who entry version (.checked slot o n) (.returned (.ran o)) (some none)
  | late (slot : String) (o : Outcome) (n : Nat) (moved : version ≠ n) :
      Moves who entry version (.checked slot o n) (.returned (.ran o)) none

variable {entry v : Option Holding} {version : Nat} {op : Op} {p q : Place} {w : Option (Option Holding)}
variable {store : Keys String Holding} {k : String}

theorem moves_of_effect {who : Caller}
    (h : effect who entry version op p = some (q, w)) :
    Moves who entry version p q w := by
  unfold effect at h
  split at h
  · next i =>
    split at h
    · cases h
      exact .rest rfl rfl nofun
    · next hle =>
      split at h
      · cases h
        exact .rest rfl rfl nofun
      · next expires _ =>
        split at h
        · cases h
          exact .rest rfl rfl (by rintro j ⟨⟩; omega)
        · next hfree =>
          cases h
          exact .take i expires (by omega) (by simpa using hfree)
  · cases h
    exact .rest rfl rfl nofun
  · cases h
    exact .rest rfl rfl (by rintro j ⟨⟩; omega)
  · cases h
    exact .rest rfl rfl nofun
  · cases h
    exact .finish ..
  · cases h
    exact .watch ..
  · split at h
    · next hown =>
      cases h
      exact .check _ _ _ hown
    · next hother =>
      cases h
      exact .miss _ _ _ (by simpa using hother)
  · cases h
    split
    · next hsame => exact .remove _ _ _ hsame
    · next hmoved => exact .late _ _ _ hmoved
  · cases h

variable {s u : State}

theorem step_move {who : Caller} (h : step s (.move who op) = some u) :
    ∃ q w, effect who (s.store.entries (target who (s.callers who)))
        (s.store.versions (target who (s.callers who))) op (s.callers who) = some (q, w) ∧
      u = ⟨wrote s.store (target who (s.callers who)) w, update s.callers who q⟩ := by
  obtain ⟨⟨q, w⟩, he, rfl⟩ := Option.map_eq_some_iff.mp h
  exact ⟨q, w, he, rfl⟩

theorem step_expire {who : Caller} {slot : String} (h : step s (.expire who slot) = some u) :
    s.store.entries slot = some ⟨who, true⟩ ∧ u = ⟨s.store.write slot none, s.callers⟩ := by
  rw [step] at h
  split at h
  · next hentry =>
    cases h
    exact ⟨hentry, rfl⟩
  · cases h

/-! ### An id is under the key its caller remembers -/

/-- What a caller that watched a key knows of it: if it was written since, its own id is gone. -/
structure Sees (store : Keys String Holding) (who : Caller) (slot : String) (n : Nat) : Prop where
  past : n ≤ store.versions slot
  moved : n < store.versions slot → ¬Has store who slot

theorem Sees.write {who : Caller} {slot : String} {n : Nat}
    (h : Sees store who slot n) (k : String) (hv : ∀ e, v = some e → e.id ≠ who) :
    Sees (store.write k v) who slot n := by
  refine ⟨Nat.le_trans h.past Keys.versions_le_write, fun hlt => ?_⟩
  rintro ⟨e, he, hid⟩
  by_cases hk : slot = k
  · subst hk
    rw [Keys.entries_write_self] at he
    exact hv e he hid
  · rw [Keys.versions_write_of_ne hk] at hlt
    rw [Keys.entries_write_of_ne hk] at he
    exact h.moved hlt ⟨e, he, hid⟩

/-- What a caller's place says about the store. -/
def Place.Fits (store : Keys String Holding) (who : Caller) : Place → Prop
  | .trying i => 0 < i
  | .watching slot _ n => Sees store who slot n
  | .checked slot _ n => Sees store who slot n ∧ (store.versions slot = n → Has store who slot)
  | .waiting | .running _ | .leaving _ _ | .returned _ => True

theorem Place.Fits.write {who : Caller} (h : p.Fits store who)
    (k : String) (hv : ∀ e, v = some e → e.id ≠ who) :
    p.Fits (store.write k v) who := by
  cases p with
  | trying => exact h
  | watching => exact Sees.write h k hv
  | checked slot =>
    refine ⟨Sees.write h.1 k hv, fun hn => ?_⟩
    have hpast := h.1.past
    -- The count is the one that was watched, so the key was not written.
    have hk : slot ≠ k := by
      rintro rfl
      rw [Keys.versions_write_self] at hn
      omega
    rw [Keys.versions_write_of_ne hk] at hn
    obtain ⟨e, he, hid⟩ := h.2 hn
    exact ⟨e, (Keys.entries_write_of_ne hk).trans he, hid⟩
  | waiting | running | leaving | returned => trivial

/-- A slot of a limiter. -/
def ConcurrencyLimiter.IsSlot (l : ConcurrencyLimiter) (k : String) : Prop :=
  ∃ i : Nat, 0 < i ∧ (i : Int) ≤ l.maxLocks ∧ k = l.slot i

/-- **An id is under the key its caller remembers, and under no other.** -/
structure Stands (store : Keys String Holding) (who : Caller) (p : Place) : Prop where
  own : ∀ k, Has store who k → p.slot? = some k
  slots : ∀ k, p.slot? = some k → who.limiter.IsSlot k
  fits : p.Fits store who

/-- Every caller stands at a place that is true of the store. -/
def Sound (s : State) : Prop := ∀ who, Stands s.store who (s.callers who)

theorem sound_initial : Sound initial := by
  refine fun who => ⟨?_, nofun, Nat.one_pos⟩
  rintro k ⟨e, he, -⟩
  cases he

theorem has_of_has_write {who : Caller} {k' : String}
    (hv : ∀ e, v = some e → e.id ≠ who) (h : Has (store.write k v) who k') : Has store who k' := by
  obtain ⟨e, he, hid⟩ := h
  by_cases hk : k' = k
  · subst hk
    rw [Keys.entries_write_self] at he
    exact absurd hid (hv e he)
  · exact ⟨e, (Keys.entries_write_of_ne hk).symm.trans he, hid⟩

/-- What others write leaves a caller where it stands. -/
theorem Stands.write {who : Caller} (h : Stands store who p)
    (k : String) (hv : ∀ e, v = some e → e.id ≠ who) :
    Stands (store.write k v) who p :=
  ⟨fun k' hk => h.own k' (has_of_has_write hv hk), h.slots, h.fits.write k hv⟩

theorem any_id {who : Caller} :
    entry.any (·.id = who) ↔ ∃ e, entry = some e ∧ e.id = who := by
  cases entry <;> simp

/-- Where a caller's own step puts it. -/
theorem Stands.moves {who : Caller}
    (h : Stands store who p)
    (hm : Moves who (store.entries (target who p)) (store.versions (target who p)) p q w) :
    Stands (wrote store (target who p) w) who q := by
  cases hm with
  | rest hp hq hi =>
    refine ⟨fun k hk => ?_, fun k hk => ?_, ?_⟩
    · cases hp.symm.trans (h.own k hk)
    · cases hq.symm.trans hk
    · cases q with
      | trying i => exact hi i rfl
      | waiting | returned => trivial
      | running | leaving | watching | checked => cases hq
  | take i _ within =>
    refine ⟨fun k hk => ?_, fun k hk => ?_, trivial⟩
    · by_cases he : k = who.limiter.slot i
      · rw [he]
        rfl
      · obtain ⟨e, hentry, hid⟩ := hk
        have hentry := (Keys.entries_write_of_ne he).symm.trans hentry
        cases h.own k ⟨e, hentry, hid⟩
    · cases hk
      exact ⟨i, h.fits, within, rfl⟩
  | finish => exact ⟨h.own, h.slots, trivial⟩
  | watch => exact ⟨h.own, h.slots, Nat.le_refl _, fun hlt => absurd hlt (Nat.lt_irrefl _)⟩
  | check _ o n own => exact ⟨h.own, h.slots, h.fits, fun _ => any_id.mp own⟩
  | miss _ o n other =>
    refine ⟨fun k hk => ?_, nofun, trivial⟩
    cases h.own k hk
    exact absurd (any_id.mpr hk) (Bool.eq_false_iff.mp other)
  | remove slot =>
    refine ⟨fun k hk => ?_, nofun, trivial⟩
    have hnone : ∀ e : Holding, none = some e → e.id ≠ who := nofun
    have hslot : slot = k := Option.some.inj (h.own k (has_of_has_write hnone hk))
    obtain ⟨e, he, -⟩ := hk
    subst hslot
    cases Keys.entries_write_self.symm.trans he
  | late _ o n moved =>
    refine ⟨fun k hk => ?_, nofun, trivial⟩
    cases h.own k hk
    exact absurd hk (h.fits.1.moved (Nat.lt_of_le_of_ne h.fits.1.past (Ne.symm moved)))

/-- All that a step writes is the caller's own id. -/
theorem Moves.id_eq {who : Caller}
    (hm : Moves who entry version p q w) {e : Holding}
    (he : w = some (some e)) : e.id = who := by
  cases hm <;> cases he
  rfl

theorem Stands.others {who c : Caller} {r : Place}
    (h : Stands store c r)
    (hm : Moves who entry version p q w) (hc : c ≠ who) : Stands (wrote store k w) c r := by
  cases w with
  | none => exact h
  | some => exact h.write k fun e he hid => hc (hid.symm.trans (hm.id_eq (congrArg some he)))

theorem sound_step {a : Action} (h : Sound s) (hs : step s a = some u) : Sound u := by
  cases a with
  | move who =>
    obtain ⟨q, w, he, rfl⟩ := step_move hs
    have hm := moves_of_effect he
    exact (forall_update_iff s.callers fun c p => Stands (wrote s.store _ w) c p).mpr
      ⟨(h who).moves hm, fun c hc => (h c).others hm hc⟩
  | expire _ slot =>
    obtain ⟨-, rfl⟩ := step_expire hs
    exact fun c => (h c).write slot nofun

theorem sound_of_follow {ok : State → Action → Bool} {as : List Action} {s : State}
    (h : Run.follow step ok initial as = some s) : Sound s :=
  (Run.reach_of_follow h).invariant sound_initial fun _ _ _ hsound _ hs => sound_step hsound hs

/-! ### The limit, the release and the return -/

/-- No step of a caller touches what another holds. -/
theorem Sound.has_of_move (h : Sound s) {who other : Caller} (hne : other ≠ who)
    (hs : step s (.move who op) = some u) (hk : Has s.store other k) : Has u.store other k := by
  obtain ⟨q, w, he, rfl⟩ := step_move hs
  have hm := moves_of_effect he
  obtain ⟨e, hentry, rfl⟩ := hk
  by_cases hkey : target who (s.callers who) = k
  · -- The key is the one the step is about, where another's id is: it writes nothing.
    have hstands := h who
    generalize hp : s.callers who = p at hm hstands hkey ⊢
    subst hkey
    cases hm with
    | take i _ _ free => exact absurd (free.symm.trans hentry) nofun
    | remove _ o n same =>
      obtain ⟨_, he', hid⟩ := hstands.fits.2 same
      cases Option.some.inj (he'.symm.trans hentry)
      exact absurd hid hne
    | rest | finish | watch | check | miss | late => exact ⟨e, hentry, rfl⟩
  · cases w with
    | none => exact ⟨e, hentry, rfl⟩
    | some => exact ⟨e, (Keys.entries_write_of_ne (Ne.symm hkey)).trans hentry, rfl⟩

/-- **A limiter's slots bound the callers that hold one.** -/
theorem Sound.card_le {s : State} (h : Sound s) (l : ConcurrencyLimiter) (holders : Finset Caller)
    (hh : ∀ c ∈ holders, c.limiter = l ∧ ∃ k, Has s.store c k) : holders.card ≤ l.maxLocks.toNat := by
  have hslot : ∀ c ∈ holders, ∃ i : Nat, i ∈ Finset.Icc 1 l.maxLocks.toNat ∧ Has s.store c (l.slot i) := by
    intro c hc
    obtain ⟨rfl, k, hk⟩ := hh c hc
    obtain ⟨i, hpos, _, rfl⟩ := (h c).slots k ((h c).own k hk)
    exact ⟨i, Finset.mem_Icc.mpr ⟨hpos, by omega⟩, hk⟩
  choose! i hi hhas using hslot
  have hcard := Finset.card_le_card_of_injOn i hi ?_
  · simpa using hcard
  · intro c hc d hd hcd
    obtain ⟨e, he, hid⟩ := hhas c hc
    obtain ⟨_, he', hid'⟩ := hhas d hd
    rw [← show i c = i d from hcd, he] at he'
    cases Option.some.inj he'
    exact hid.symm.trans hid'

/-! ### Limiters keep to their name -/

def Action.who : Action → Caller
  | .move who _ => who
  | .expire who _ => who

/-- The calls are of these limiters. -/
def among (limiters : List ConcurrencyLimiter) (_ : State) (a : Action) : Bool :=
  a.who.limiter ∈ limiters

/-- Limiters of different names share no slot's key. -/
def Separate (limiters : List ConcurrencyLimiter) : Prop :=
  ∀ l ∈ limiters, ∀ l' ∈ limiters, l.name ≠ l'.name → ∀ k, l.IsSlot k → ¬l'.IsSlot k

/-- Two states are the same to the callers of one name. -/
structure Alike (limiters : List ConcurrencyLimiter) (name : String) (s t : State) : Prop where
  callers : ∀ who, who.limiter.name = name → t.callers who = s.callers who
  entries : ∀ l ∈ limiters, l.name = name → ∀ k, l.IsSlot k → t.store.entries k = s.store.entries k
  versions : ∀ l ∈ limiters, l.name = name → ∀ k, l.IsSlot k → t.store.versions k = s.store.versions k

/-- A step looks at nothing but a slot of its own limiter. -/
theorem effect_congr {who : Caller}
    {entry' : Option Holding} {version' : Nat} (h : Stands store who p)
    (hsame : who.limiter.IsSlot (target who p) → entry' = entry ∧ version' = version) :
    effect who entry' version' op p = effect who entry version op p := by
  have own : p.slot? = some (target who p) → effect who entry' version' op p = effect who entry version op p := by
    intro hp
    obtain ⟨rfl, rfl⟩ := hsame (h.slots _ hp)
    rfl
  cases p with
  | trying i =>
    by_cases hi : (i : Int) ≤ who.limiter.maxLocks
    · obtain ⟨rfl, rfl⟩ := hsame ⟨i, h.fits, hi, rfl⟩
      rfl
    · have hlt : who.limiter.maxLocks < i := by omega
      cases op with
      | acquire => simp only [effect, if_pos hlt]
      | giveUp timedOut => cases timedOut <;> rfl
      | again | finish | watch | get | exec => rfl
  | waiting | returned =>
    cases op with
    | giveUp timedOut => cases timedOut <;> rfl
    | acquire | again | finish | watch | get | exec => rfl
  | running | leaving | watching | checked => exact own rfl

/-- What a step writes, it writes under a slot of its own limiter. -/
theorem Stands.isSlot_target {who : Caller}
    (h : Stands store who p)
    (hm : Moves who entry version p q (some v)) : who.limiter.IsSlot (target who p) := by
  cases hm with
  | take i _ within => exact ⟨i, h.fits, within, rfl⟩
  | remove slot => exact h.slots slot rfl

section Alone

variable {limiters : List ConcurrencyLimiter} {name : String} {s t u : State}

variable (h : Alike limiters name s t)
include h

/-- One write made in two states that are the same to a name. -/
theorem Alike.write (k : String) (v : Option Holding) :
    Alike limiters name ⟨s.store.write k v, s.callers⟩ ⟨t.store.write k v, t.callers⟩ := by
  refine ⟨h.callers, fun l hl hname k' hk => ?_, fun l hl hname k' hk => ?_⟩
  · by_cases hkey : k' = k
    · subst hkey
      exact Keys.entries_write_self.trans Keys.entries_write_self.symm
    · exact (Keys.entries_write_of_ne hkey).trans
        ((h.entries l hl hname k' hk).trans (Keys.entries_write_of_ne hkey).symm)
  · by_cases hkey : k' = k
    · subst hkey
      have := h.versions l hl hname k' hk
      exact Keys.versions_write_self.trans ((congrArg (· + 1) this).trans Keys.versions_write_self.symm)
    · exact (Keys.versions_write_of_ne hkey).trans
        ((h.versions l hl hname k' hk).trans (Keys.versions_write_of_ne hkey).symm)

/-- A write under no slot of the name. -/
theorem Alike.write_left {k : String}
    (hk : ∀ l ∈ limiters, l.name = name → ¬l.IsSlot k) (v : Option Holding) :
    Alike limiters name ⟨s.store.write k v, s.callers⟩ t := by
  refine ⟨h.callers, fun l hl hname k' hk' => ?_, fun l hl hname k' hk' => ?_⟩
  · have hkey : k' ≠ k := fun he => hk l hl hname (he ▸ hk')
    exact (h.entries l hl hname k' hk').trans (Keys.entries_write_of_ne hkey).symm
  · have hkey : k' ≠ k := fun he => hk l hl hname (he ▸ hk')
    exact (h.versions l hl hname k' hk').trans (Keys.versions_write_of_ne hkey).symm

/-- What a caller of the name does, it does in the other state too. -/
theorem Alike.step_own (hs : Sound s) {a : Action}
    (hmem : a.who.limiter ∈ limiters) (hname : a.who.limiter.name = name) (hstep : step s a = some u) :
    ∃ v, step t a = some v ∧ Alike limiters name u v := by
  cases a with
  | move who op =>
    obtain ⟨q, w, he, rfl⟩ := step_move hstep
    have hplace : t.callers who = s.callers who := h.callers who hname
    have he' : effect who (t.store.entries (target who (t.callers who)))
        (t.store.versions (target who (t.callers who))) op (t.callers who) = some (q, w) := by
      rw [hplace]
      refine (effect_congr (hs who) fun hslot => ?_).trans he
      exact ⟨h.entries _ hmem hname _ hslot, h.versions _ hmem hname _ hslot⟩
    refine ⟨⟨wrote t.store (target who (s.callers who)) w, update t.callers who q⟩, ?_, ?_⟩
    · rw [step, he', hplace]
      rfl
    · have hwrote : Alike limiters name ⟨wrote s.store (target who (s.callers who)) w, s.callers⟩
          ⟨wrote t.store (target who (s.callers who)) w, t.callers⟩ := by
        cases w with
        | none => exact h
        | some v => exact h.write _ v
      refine ⟨fun c hc => ?_, hwrote.entries, hwrote.versions⟩
      show update t.callers who q c = update s.callers who q c
      by_cases hw : c = who
      · subst hw
        rw [update_self, update_self]
      · rw [update_of_ne hw, update_of_ne hw]
        exact h.callers c hc
  | expire who slot =>
    obtain ⟨hentry, rfl⟩ := step_expire hstep
    have hslot := (hs who).slots slot ((hs who).own slot ⟨_, hentry, rfl⟩)
    refine ⟨⟨t.store.write slot none, t.callers⟩, ?_, h.write slot none⟩
    rw [step, if_pos ((h.entries _ hmem hname slot hslot).trans hentry)]

omit h

/-- What a caller of another name does is nothing to this one. -/
theorem Alike.step_other (hsep : Separate limiters) (h : Alike limiters name s t) (hs : Sound s) {a : Action}
    (hmem : a.who.limiter ∈ limiters) (hname : a.who.limiter.name ≠ name) (hstep : step s a = some u) :
    Alike limiters name u t := by
  have far : ∀ k, a.who.limiter.IsSlot k → ∀ l ∈ limiters, l.name = name → ¬l.IsSlot k := by
    intro k hk l hl hl'
    exact hsep _ hmem l hl (fun he => hname (he.trans hl')) k hk
  cases a with
  | move who =>
    obtain ⟨q, w, he, rfl⟩ := step_move hstep
    have hwrote : Alike limiters name ⟨wrote s.store (target who (s.callers who)) w, s.callers⟩ t := by
      cases w with
      | none => exact h
      | some v => exact h.write_left (far _ ((hs who).isSlot_target (moves_of_effect he))) v
    refine ⟨fun c hc => ?_, hwrote.entries, hwrote.versions⟩
    have hw : c ≠ who := fun hw => hname (hw ▸ hc)
    exact (h.callers c hc).trans (update_of_ne hw ..).symm
  | expire who slot =>
    obtain ⟨hentry, rfl⟩ := step_expire hstep
    exact h.write_left (far slot ((hs who).slots slot ((hs who).own slot ⟨_, hentry, rfl⟩))) none

/-- The actions of the callers of a name. -/
def only (name : String) (as : List Action) : List Action := as.filter (·.who.limiter.name = name)

/-- Leaving out of a run what the callers of other names do. -/
theorem Alike.follow (hsep : Separate limiters) : ∀ {as : List Action} {s t : State},
    Alike limiters name s t → Sound s → Run.follow step (among limiters) s as = some u →
    ∃ v, Run.follow step (fun _ _ => true) t (only name as) = some v ∧ Alike limiters name u v := by
  intro as
  induction as with
  | nil =>
    intro s t h hs hrun
    cases hrun
    exact ⟨t, rfl, h⟩
  | cons a _ ih =>
    intro s t h hs hrun
    obtain ⟨hmem, _, hstep, hrest⟩ := Run.follow_cons.mp hrun
    have hmem : a.who.limiter ∈ limiters := of_decide_eq_true hmem
    by_cases hname : a.who.limiter.name = name
    · obtain ⟨t', hstep', h'⟩ := h.step_own hs hmem hname hstep
      obtain ⟨v, hv, huv⟩ := ih h' (sound_step hs hstep) hrest
      refine ⟨v, ?_, huv⟩
      rw [only, List.filter_cons_of_pos (by simpa using hname)]
      exact Run.follow_cons.mpr ⟨rfl, t', hstep', hv⟩
    · obtain ⟨v, hv, huv⟩ := ih (h.step_other hsep hs hmem hname hstep) (sound_step hs hstep) hrest
      refine ⟨v, ?_, huv⟩
      rw [only, List.filter_cons_of_neg (by simpa using hname)]
      exact hv

end Alone

/-- What holds after the actions `as`, which led to `s`. -/
structure Proper (as : List Action) (s : State) : Prop where
  /-- The callers that hold a slot of a limiter are no more than its limit. -/
  limit : ∀ (l : ConcurrencyLimiter) (holders : Finset Caller),
    (∀ c ∈ holders, c.limiter = l ∧ ∃ k, Has s.store c k) → holders.card ≤ l.maxLocks.toNat
  /-- Nothing a caller does, its release included, removes what another holds. -/
  release : ∀ who op u, step s (.move who op) = some u → ∀ other, other ≠ who →
    ∀ k, Has s.store other k → Has u.store other k
  /-- A call that returned holds nothing. -/
  returned : ∀ who r, s.callers who = .returned r → ∀ k, ¬Has s.store who k
  /-- Without the callers of other names, those of one name come to the same places. -/
  alone : ∀ name, ∃ t, Run.follow step (fun _ _ => true) initial (only name as) = some t ∧
    ∀ who, who.limiter.name = name → t.callers who = s.callers who

/-- **Slots bound the work and keep to their name**, for limiters that share no key. -/
theorem slots_proper {limiters : List ConcurrencyLimiter} (hsep : Separate limiters) {as : List Action}
    {s : State} (h : Run.follow step (among limiters) initial as = some s) : Proper as s := by
  have hs := sound_of_follow h
  refine ⟨hs.card_le, fun who op u hu other hne k hk => hs.has_of_move hne hu hk, ?_, fun name => ?_⟩
  · intro who r hr k hk
    have hslot := (hs who).own k hk
    rw [hr] at hslot
    cases hslot
  · have hfirst : Alike limiters name initial initial := ⟨fun _ _ => rfl, fun _ _ _ _ _ => rfl, fun _ _ _ _ _ => rfl⟩
    obtain ⟨t, ht, halike⟩ := hfirst.follow hsep sound_initial h
    exact ⟨t, ht, halike.callers⟩

/-- Mail and reports, one at a time each. -/
def mail : ConcurrencyLimiter := ⟨"", "mail", 1, 60000000000⟩

@[inherit_doc mail]
def report : ConcurrencyLimiter := ⟨"", "report", 1, 60000000000⟩

/-- A mail outlives its slot, a second one takes it over and is waited for by a third; the first returns
without the slot and the second releases it, while a report runs. -/
def relay : List Action :=
  [.move ⟨mail, 1⟩ .acquire, .move ⟨report, 1⟩ .acquire, .expire ⟨mail, 1⟩ "mail1", .move ⟨mail, 2⟩ .acquire,
    .move ⟨mail, 3⟩ .acquire, .move ⟨mail, 1⟩ (.finish .ok), .move ⟨mail, 1⟩ .watch, .move ⟨mail, 1⟩ .get,
    .move ⟨mail, 2⟩ (.finish .ok), .move ⟨mail, 2⟩ .watch, .move ⟨mail, 2⟩ .get, .move ⟨mail, 2⟩ .exec]

theorem slots_proper_apart : ∃ s, Proper relay s ∧ s.callers ⟨mail, 1⟩ = .returned (.ran .ok) ∧
    s.callers ⟨mail, 2⟩ = .returned (.ran .ok) ∧ s.store.entries "mail1" = none ∧
    s.store.entries "report1" = some ⟨⟨report, 1⟩, true⟩ := by
  have hsep : Separate [mail, report] := by
    rintro l hl l' hl' hne k ⟨i, hi, _, rfl⟩ ⟨j, hj, _, he⟩
    have hone : ∀ m ∈ [mail, report], m.maxLocks = 1 := by decide
    have hi : i = 1 := by have := hone l hl; omega
    have hj : j = 1 := by have := hone l' hl'; omega
    subst hi hj
    have hkeys : ∀ m ∈ [mail, report], ∀ m' ∈ [mail, report], m.name ≠ m'.name → m.slot 1 ≠ m'.slot 1 := by decide
    exact hkeys l hl l' hl' hne he
  have hrun : (Run.follow step (among [mail, report]) initial relay).any (fun s =>
      s.callers ⟨mail, 1⟩ = .returned (.ran .ok) ∧ s.callers ⟨mail, 2⟩ = .returned (.ran .ok) ∧
      s.store.entries "mail1" = none ∧ s.store.entries "report1" = some ⟨⟨report, 1⟩, true⟩) := by
    decide +kernel
  obtain ⟨s, hs, hends⟩ := (Option.any_eq_true _ _).mp hrun
  exact ⟨s, slots_proper hsep hs, of_decide_eq_true hends⟩

/-- Eleven exports at a time, and one of another kind. -/
def export11 : ConcurrencyLimiter := ⟨"", "export", 11, 60000000000⟩

@[inherit_doc export11]
def export1 : ConcurrencyLimiter := ⟨"", "export1", 1, 60000000000⟩

/-- Ten exports take the slots `1` to `10`, the export of the other kind takes its only one, and the
eleventh export asks for all. -/
def squeeze : List Action :=
  (List.range' 1 10).flatMap (fun n => List.replicate n (.move ⟨export11, n⟩ .acquire)) ++
    .move ⟨export1, 1⟩ .acquire :: List.replicate 11 (.move ⟨export11, 11⟩ .acquire)

/-- The eleventh export finds no slot, where alone it has the last one. -/
theorem export_squeezed :
    ∃ s, Run.follow step (among [export11, export1]) initial squeeze = some s ∧ ¬Proper squeeze s := by
  have hrun : (Run.follow step (among [export11, export1]) initial squeeze).any
      (fun s => s.callers ⟨export11, 11⟩ = .trying 12) := by decide +kernel
  have halone : (Run.follow step (fun _ _ => true) initial (only "export" squeeze)).any
      (fun s => s.callers ⟨export11, 11⟩ = .running "export11") := by decide +kernel
  obtain ⟨s, hs, hplace⟩ := (Option.any_eq_true _ _).mp hrun
  refine ⟨s, hs, fun hproper => ?_⟩
  obtain ⟨t, ht, hsame⟩ := hproper.alone "export"
  rw [ht] at halone
  have hrunning : t.callers ⟨export11, 11⟩ = .running "export11" := of_decide_eq_true halone
  rw [hsame _ rfl, of_decide_eq_true hplace] at hrunning
  cases hrunning

end Hesape.Limiters
