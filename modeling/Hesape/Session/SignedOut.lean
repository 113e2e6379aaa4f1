import Hesape.Session.Store

/-!
# Signed out is out

`Invalidate` and `DestroyOthers` remove records; what can bring one back is a `Slide` or a
`Confirm` that had read it and writes its copy.  The same write takes a confirmation back when
the copy is older than the stamp.  `current` is the condition under which neither happens: the
record is still there when it is written back, and a renewal finds on it the stamp it had read.

Under it an id that was signed out holds nothing in any state of any run, since the only other
write is `Start`'s, under an id of its own.  Two facts carry the induction: a stored record, and
a record some call is about to write back, belong to whom their id was issued for.
-/

namespace Hesape.Session

open Hesape.Run (Reach forall_set forall_concat)
open Function
open Option

variable {T : Type}

/-- The record a call has read under an id and writes back. -/
def Point.carries : Point T → Option (String × Record T)
  | .slideStamp id rec => some (id, rec)
  | .slideWrite id rec => some (id, rec)
  | .confirmStamp id rec => some (id, rec)
  | .confirmWrite id rec => some (id, rec)
  | _ => none

/-- A record is written back while the session holds one, and by a renewal only over the
confirmation stamp it read. -/
def current (s : State T) : Action T → Bool
  | .perform i _ =>
    match s.parties[i]?.map Party.point with
    | some (.slideWrite id fresh) =>
      (s.handler id).any fun e => e.record.passwordConfirmedAt = fresh.passwordConfirmedAt
    | some (.confirmWrite id _) => (s.handler id).isSome
    | _ => true
  | _ => true

/-- What holds in a run whose writes are current. -/
structure Sound (s : State T) : Prop where
  stored : ∀ id e, s.handler id = some e → s.owners id = some (e.record.tenant, e.record.subjectID)
  carried : ∀ p ∈ s.parties, ∀ id rec, p.point.carries = some (id, rec) →
    s.owners id = some (rec.tenant, rec.subjectID)
  out : ∀ id, s.signedOut id = true → s.handler id = none
  stand : ∀ p ∈ s.parties, p.undone = false

theorem sound_initial (now : Int) (handler : ArrayHandler T) : Sound (State.initial now handler) where
  stored := by
    intro id e he
    show (handler id).map _ = _
    rw [show handler id = some e from he]
    rfl
  carried := by simp [State.initial]
  out := by simp [State.initial]
  stand := by simp [State.initial]

namespace Sound

variable {s : State T} {i : Nat} {p : Party T}

variable {point : Point T} {id : String}

variable (h : Sound s)
include h

/-- A step that only takes records away, and signs out none that stays. -/
theorem remove (hp : p ∈ s.parties) {handler : ArrayHandler T}
    {signedOut : String → Bool} (hsub : ∀ id e, handler id = some e → s.handler id = some e)
    (hcarry : ∀ id rec, point.carries = some (id, rec) → s.owners id = some (rec.tenant, rec.subjectID))
    (hout : ∀ id, signedOut id → handler id = none) :
    Sound ({ s with signedOut := signedOut }.move i p point handler) where
  stored := fun id e he => h.stored id e (hsub id e he)
  carried := forall_set h.carried hcarry
  out := hout
  stand := forall_set h.stand (h.stand p hp)

/-- What was signed out stays so when nothing is added. -/
theorem out_of_sub {handler : ArrayHandler T}
    (hsub : ∀ id e, handler id = some e → s.handler id = some e) :
    ∀ id, s.signedOut id → handler id = none := by
  intro id hid
  rw [eq_none_iff_forall_ne_some]
  intro e he
  have := hsub id e he
  rw [h.out id hid] at this
  cases this

/-- A step that reads. -/
theorem read (hp : p ∈ s.parties)
    (hcarry : ∀ other rec, point.carries = some (other, rec) →
      other = id ∧ ∃ e, s.handler id = some e ∧ e.record = rec) :
    Sound (s.move i p point (s.handler.read s.now id).2) := by
  refine h.remove hp (fun _ _ => ArrayHandler.read_sub) (fun other rec hc => ?_)
    (h.out_of_sub fun _ _ => ArrayHandler.read_sub)
  obtain ⟨rfl, e, he, rfl⟩ := hcarry other rec hc
  exact h.stored _ e he

/-- A step that writes under an id that is not signed out. -/
theorem write {q : Party T} {rec : Record T} {ttl : Int} {owners : String → Option (String × String)}
    (howners : owners id = some (rec.tenant, rec.subjectID))
    (hothers : ∀ other o, s.owners other = some o → owners other = some o)
    (hin : s.signedOut id = false) (hcarry : point.carries = none) (hq : q.undone = false) :
    Sound ({ s with owners := owners }.move i q point (s.handler.write s.now id rec ttl)) where
  stored := by
    intro other e he
    have he : update s.handler id (some ⟨rec, s.now + ttl⟩) other = some e := he
    by_cases hid : other = id
    · subst hid
      rw [update_self] at he
      cases he
      exact howners
    · rw [update_of_ne hid] at he
      exact hothers other _ (h.stored other e he)
  carried := by
    refine forall_set (fun r hr other carried hc => hothers other _ (h.carried r hr other carried hc)) ?_
    rw [hcarry]
    exact nofun
  out := by
    intro other hother
    have hout : s.signedOut other := hother
    have hid : other ≠ id := by
      rintro rfl
      rw [hin] at hout
      cases hout
    show update s.handler id _ other = none
    rw [update_of_ne hid]
    exact h.out other hout
  stand := forall_set h.stand hq

/-- An id that holds a record is not signed out. -/
theorem signedOut_of_some (he : (s.handler id).isSome) :
    s.signedOut id = false := by
  rw [Bool.eq_false_iff]
  intro hout
  rw [h.out id hout] at he
  cases he

end Sound

/-- A renewal over the stamp it read undoes no confirmation. -/
theorem overwritten_eq {h : ArrayHandler T} {id : String} {fresh : Record T} (p : Party T)
    (hsame : (h id).any (fun e => e.record.passwordConfirmedAt = fresh.passwordConfirmedAt)) :
    p.overwritten h id fresh = p := by
  obtain ⟨e, he, hstamp⟩ := (any_eq_true _ _).mp hsame
  unfold Party.overwritten
  split
  · rfl
  · next other stamp hs =>
    rw [if_neg]
    rintro ⟨-, hany, hnot⟩
    rw [he, any_some, Record.confirmedSince, of_decide_eq_true hstamp] at hany
    rw [Record.confirmedSince, hany] at hnot
    cases hnot

variable {st : RecordStore}

/-- **One operation of a call.** -/
theorem sound_perform {s t : State T} {i : Nat} {newID : String} {p : Party T} (h : Sound s)
    (hp : s.parties[i]? = some p) (hok : current s (.perform i newID))
    (ht : s.perform st i newID p = some t) : Sound t := by
  have hmem : p ∈ s.parties := List.mem_of_getElem? hp
  simp only [current, hp, map_some] at hok
  unfold State.perform at ht
  generalize hpoint : p.point = point at ht
  cases point with
  | slideRead id =>
    cases ht
    refine h.read hmem fun other rec hc => ?_
    cases hr : (s.handler.read s.now id).1 with
    | error => simp [hr, slideRead, Point.carries] at hc
    | ok =>
      rw [hr, slideRead] at hc
      split at hc
      · cases hc
      · cases hc
        exact ⟨rfl, ArrayHandler.read_ok hr⟩
  | slideStamp id rec | confirmStamp id rec =>
    cases ht
    refine h.remove hmem (fun _ _ he => he) (fun other carried hc => ?_) h.out
    cases hc
    exact h.carried p hmem id rec (by rw [hpoint]; rfl)
  | slideWrite id fresh =>
    simp only [hpoint] at hok
    cases ht
    have howned := h.carried p hmem id fresh (by rw [hpoint]; rfl)
    have hsome : (s.handler id).isSome := by
      obtain ⟨e, he, -⟩ := (any_eq_true _ _).mp hok
      rw [he]
      rfl
    have hmap : s.parties.map (Party.overwritten s.handler id fresh) = s.parties :=
      (List.map_congr_left fun q _ => overwritten_eq q hok).trans (List.map_id _)
    rw [hmap]
    exact h.write howned (fun _ _ ho => ho) (h.signedOut_of_some hsome) rfl (h.stand p hmem)
  | confirmRead id =>
    cases ht
    refine h.read hmem fun other rec hc => ?_
    cases hr : (s.handler.read s.now id).1 with
    | error => simp [hr, confirmRead, Point.carries] at hc
    | ok =>
      rw [hr] at hc
      cases hc
      exact ⟨rfl, ArrayHandler.read_ok hr⟩
  | confirmWrite id rec =>
    simp only [hpoint] at hok
    cases ht
    have howned := h.carried p hmem id rec (by rw [hpoint]; rfl)
    exact h.write howned (fun _ _ ho => ho) (h.signedOut_of_some hok) rfl (h.stand p hmem)
  | confirmCheck id =>
    cases ht
    refine h.read hmem fun other rec hc => ?_
    cases hr : (s.handler.read s.now id).1 with
    | error => simp [hr, confirmCheck, Point.carries] at hc
    | ok =>
      rw [hr, confirmCheck] at hc
      split at hc <;> cases hc
  | start =>
    dsimp only at ht
    split at ht
    · next hfresh =>
      cases ht
      simp only [State.fresh, Bool.and_eq_true, Bool.not_eq_true', isNone_iff_eq_none] at hfresh
      obtain ⟨⟨-, hnone⟩, hin⟩ := hfresh
      refine h.write (update_self ..) (fun other o ho => ?_) hin ?_ (h.stand p hmem)
      · -- The id is a new one, so the owners of the others stay.
        have hne : other ≠ newID := by
          rintro rfl
          rw [hnone] at ho
          cases ho
        rwa [update_of_ne hne]
      · unfold started
        split <;> rfl
    · cases ht
  | destroyOld =>
    cases ht
    exact h.remove hmem (fun _ _ he => (ArrayHandler.destroy_sub he).2) (fun _ _ hc => by cases hc)
      (h.out_of_sub fun _ _ he => (ArrayHandler.destroy_sub he).2)
  | destroy id =>
    cases ht
    refine h.remove hmem (fun _ _ he => (ArrayHandler.destroy_sub he).2) (fun _ _ hc => by cases hc) fun other hout => ?_
    by_cases hid : other = id
    · subst hid
      exact update_self ..
    · rw [update_of_ne hid] at hout
      rw [ArrayHandler.destroy, update_of_ne hid]
      exact h.out other hout
  | destroyIndex tenant subjectID keepID =>
    dsimp only at ht
    have hsub : ∀ other e, (s.handler.destroyIndex tenant subjectID keepID).2 other = some e →
        s.handler other = some e := fun _ _ => ArrayHandler.destroyIndex_sub
    have hother : (s.handler.destroyIndex tenant subjectID keepID).1 = .ok () → ∀ other e,
        (s.handler.destroyIndex tenant subjectID keepID).2 other = some e → other ≠ keepID →
        (e.record.tenant, e.record.subjectID) ≠ (tenant, subjectID) :=
      fun hok _ _ => ArrayHandler.destroyIndex_other hok
    generalize s.handler.destroyIndex tenant subjectID keepID = r at ht hsub hother
    obtain ⟨_ | _, handler⟩ := r
    · cases ht
      exact h.remove hmem hsub (fun _ _ hc => by cases hc) (h.out_of_sub hsub)
    · cases ht
      refine h.remove hmem hsub (fun _ _ hc => by cases hc) fun other hout => ?_
      rw [Bool.or_eq_true, Bool.and_eq_true, decide_eq_true_eq, decide_eq_true_eq] at hout
      rcases hout with hout | ⟨hkeepID, howner⟩
      · exact h.out_of_sub hsub other hout
      · rw [eq_none_iff_forall_ne_some]
        intro e he
        have howned := h.stored other e (hsub other e he)
        rw [howner] at howned
        exact hother rfl other e he hkeepID (some.inj howned).symm
  | readAll | readExists =>
    cases ht
    exact h.read hmem fun _ _ hc => by cases hc
  | done => cases ht

/-- No call begins with a record to write back. -/
theorem carries_first (st : RecordStore) (now : Int) (call : Call T) : (call.first st now).carries = none := by
  cases call with
  | regenerate => rfl
  | slide r rec | confirm r | invalidate id | destroyOthers rec keepID | all r | «exists» id =>
    simp only [Call.first]
    split_ifs <;> rfl

theorem sound_step {s t : State T} {a : Action T} (h : Sound s) (hok : current s a)
    (ht : s.step st a = some t) : Sound t := by
  cases a with
  | tick =>
    cases ht
    exact ⟨h.stored, h.carried, h.out, h.stand⟩
  | begin =>
    cases ht
    refine ⟨h.stored, forall_concat h.carried fun id rec hc => ?_, h.out, forall_concat h.stand rfl⟩
    rw [carries_first] at hc
    cases hc
  | perform =>
    obtain ⟨p, hp, ht⟩ := bind_eq_some_iff.mp ht
    exact sound_perform h hp hok ht

theorem sound_of_reach {now : Int} {handler : ArrayHandler T} {s : State T}
    (h : Reach (State.step st) current (State.initial now handler) s) : Sound s :=
  h.invariant (sound_initial now handler) fun _ _ _ hs hok ht => sound_step hs hok ht

/-- **A signed-out session stays signed out.**  In a run whose writes are current neither `All`
nor `Exists` finds an id that was signed out, and no confirmation is written over by a renewal. -/
theorem signed_out_stays_out {st : RecordStore} {now : Int} {handler : ArrayHandler T} {s : State T}
    (h : Reach (State.step st) current (State.initial now handler) s) :
    (∀ id, s.signedOut id = true → s.holds id = false) ∧ ∀ p ∈ s.parties, p.undone = false := by
  have hsound := sound_of_reach h
  refine ⟨fun id hid => ?_, hsound.stand⟩
  rw [State.holds, ArrayHandler.read, hsound.out id hid]
  rfl

/-! ### Where it fails -/

/-- A store of one hour's sessions whose digest is the id itself. -/
def hourly : RecordStore := ⟨60 * 60 * second, fun id => id⟩

/-- The session of one subject. -/
def signedIn : Record Unit := { payload := (), tenant := "t", subjectID := "u" }

/-- A handler that holds that session under `a`. -/
def oneSession : State Unit :=
  .initial 0 fun id => if id = "a" then some ⟨signedIn, 60 * 60 * second⟩ else none

/-- A request of that session. -/
def ofSession : Request := ⟨some "a.a"⟩

/-- The session is renewed, confirmed and signed out, one after the other. -/
theorem signed_out_stays_out_in_turn : ∃ s : State Unit, s.signedOut "a" = true ∧ s.holds "a" = false := by
  obtain ⟨s, hrun, hout⟩ : ∃ s, Reach (State.step hourly) current oneSession s ∧ s.signedOut "a" :=
    Run.exists_reach [.begin (.slide ofSession signedIn), .perform 0 "", .perform 0 "", .perform 0 "", .tick 1,
      .begin (.confirm ofSession), .perform 1 "", .perform 1 "", .perform 1 "", .perform 1 "",
      .begin (.invalidate "a"), .perform 2 ""] (by decide +kernel)
  exact ⟨s, hout, (signed_out_stays_out hrun).1 "a" hout⟩

/-- The confirmation of a party that was told it went through is written over. -/
def State.lost (s : State T) (i : Nat) : Bool :=
  s.parties[i]?.any fun p => p.undone && match p.point with | .done (.ok .nil) _ => true | _ => false

/-- **A session comes back, and a confirmation is lost.**  A renewal writes its copy after the
sign-out; a confirmation does, after the subject's other sessions were ended; and a renewal writes
a copy from before the confirmation. -/
theorem signed_out_comes_back :
    (Run.follow (State.step hourly) (fun _ _ => true) oneSession
      [.begin (.slide ofSession signedIn), .perform 0 "", .perform 0 "", .begin (.invalidate "a"), .perform 1 "",
        .perform 0 ""]).any (fun s => s.signedOut "a" && s.holds "a") = true ∧
    (Run.follow (State.step hourly) (fun _ _ => true) oneSession
      [.begin (.confirm ofSession), .perform 0 "", .perform 0 "", .begin (.destroyOthers signedIn "b"), .perform 1 "",
        .perform 0 ""]).any (fun s => s.signedOut "a" && s.holds "a") = true ∧
    (Run.follow (State.step hourly) (fun _ _ => true) oneSession
      [.begin (.slide ofSession signedIn), .perform 0 "", .perform 0 "", .begin (.confirm ofSession), .perform 1 "",
        .perform 1 "", .perform 1 "", .perform 1 "", .perform 0 ""]).any (fun s => s.lost 1) = true := by
  refine ⟨?_, ?_, ?_⟩
  · decide +kernel
  · decide +kernel
  · decide +kernel

end Hesape.Session
