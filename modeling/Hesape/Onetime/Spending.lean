import Hesape.Onetime.Records

/-!
# A code is spent at most once

Two moments of `Consume` carry its promise.  At the burn it writes the spent marker, for as
long as the code had left when the clock was read; the marker therefore outlives the code, and
whoever burns later while the code is alive finds it.  At the end it removes the record, by
its key alone: that is harmless while the record there is still the one it read.

Neither is guaranteed by the code.  A client that stalls before its burn until the marker of
another has run out spends the code again, after its expiry; a client that stalls before its
last operation until a new code is out removes the new record.  `timely` is the condition on
the two steps, and `Spent` what every run meeting it keeps: a code that was won is marked for
the rest of its life (`marked`), and nobody else has won it (`once`).
-/

namespace Hesape.Onetime

open Hesape.Cache (Entry Table)
open Hesape.Run (Reach at_set at_append)

variable {Mac : Type} [DecidableEq Mac] {c : Codes} {h : Hashing Mac}

/-- The burn comes before the code runs out; so does the end, and it finds the record that was
read, or none. -/
def timely (h : Hashing Mac) (s : State Mac) : Action → Bool
  | .go i _ _ =>
    match s.clients[i]? with
    | none => true
    | some cl =>
      match cl.point with
      | .burn r _ => s.now < r.deadline
      | .housekeep r => s.now < r.deadline
        && (s.store.live s.now (recordKey (cl.scope h))).all fun e => e.value = .record r
      | _ => true
  | _ => true

variable {s : State Mac} {draw : Option Draw} {i : Nat} {cl : Client Mac}

theorem timely_burn {fault : Fault}
    {r : Record Mac} {remaining : Nat} (ht : timely h s (.go i fault draw))
    (hi : s.clients[i]? = some cl) (hp : cl.point = .burn r remaining) : s.now < r.deadline := by
  simpa [timely, hi, hp] using ht

theorem timely_housekeep {fault : Fault} {r : Record Mac} (ht : timely h s (.go i fault draw))
    (hi : s.clients[i]? = some cl) (hp : cl.point = .housekeep r) :
    s.now < r.deadline ∧ ∀ e, s.store.live s.now (recordKey (cl.scope h)) = some e →
      e.value = .record r := by
  simpa [timely, hi, hp, Option.all_eq_true] using ht

/-! ### The invariant -/

/-- **What every timely run keeps.** -/
structure Spent (h : Hashing Mac) (s : State Mac) : Prop where
  marked : ∀ (i : Nat) (cl : Client Mac) (r : Record Mac), s.clients[i]? = some cl →
    cl.point.won = some r →
    ∃ e, s.store (spentKey (cl.scope h) r.nonce) = some e ∧ r.deadline ≤ e.expires
  once : ∀ (i j : Nat) (a b : Client Mac) (r r' : Record Mac), s.clients[i]? = some a →
    s.clients[j]? = some b → a.point.won = some r → b.point.won = some r' → r.nonce = r'.nonce → i = j
  early : ∀ (i : Nat) (cl : Client Mac) (r : Record Mac) (t : Nat), s.clients[i]? = some cl →
    cl.point = .done (.spent r t) → t < r.deadline

omit [DecidableEq Mac] in
theorem spent_initial (now : Nat) : Spent h (State.initial now) where
  marked := by intro i cl r hi; simp [State.initial] at hi
  once := by intro i j a b r _ hi; simp [State.initial] at hi
  early := by intro i cl r t hi; simp [State.initial] at hi

section Go

variable {s : State Mac} {i : Nat} {fault : Fault} {draw : Option Draw} {cl cl' : Client Mac}
variable {after : Store Mac}

/-- A code is won by burning it, and then it stays won. -/
theorem Moves.won_cases (hmove : Moves c h s.now s.store fault draw cl cl' after) {r : Record Mac}
    (hr : cl'.point.won = some r) :
    cl.point.won = some r
      ∨ ∃ remaining, cl.point = .burn r remaining
          ∧ s.store.live s.now (spentKey (cl.scope h) r.nonce) = none
          ∧ after (spentKey (cl.scope h) r.nonce) = some ⟨.number 1, s.now + remaining⟩ := by
  cases hmove with
  | idle => exact .inl hr
  | refuse | draw | write | read | clock | failure | giveBack => cases hr
  | attempt =>
    simp only [Client.compare] at hr
    split at hr <;> cases hr
  | burn at_point free =>
    cases hr
    exact .inr ⟨_, at_point, free, Table.put_self ..⟩
  | housekeep at_point =>
    cases hr
    exact .inl (by rw [at_point]; rfl)

variable (hsound : Sound h s) (hspent : Spent h s) (ht : timely h s (.go i fault draw) = true)
  (hi : s.clients[i]? = some cl)
include hsound hspent ht hi

/-- A code that was won is not won again: its marker is still there. -/
theorem Spent.marker_live {r r' : Record Mac}
    {remaining : Nat} (hp : cl.point = .burn r remaining) {k : Nat} {x : Client Mac}
    (hk : s.clients[k]? = some x) (hx : x.point.won = some r') (hn : r.nonce = r'.nonce) :
    s.store.live s.now (spentKey (cl.scope h) r.nonce) ≠ none := by
  have hcl := hsound.held i cl r hi (by rw [hp]; rfl)
  have hxm := hsound.held k x r' hk (Point.outstanding_of_won hx)
  obtain ⟨hpurpose, hsubject, hrr⟩ := hsound.made_unique hcl hxm hn
  subst hrr
  obtain ⟨e, he, _⟩ := hspent.marked k x r hk hx
  have hscope : cl.scope h = x.scope h := by
    unfold Client.scope
    rw [hpurpose, hsubject]
  rw [hscope]
  intro hnone
  have hold := Table.live_eq_none.mp hnone e he
  have hearly := timely_burn ht hi hp
  omega

variable (hmove : Moves c h s.now s.store fault draw cl cl' after)
include hmove

theorem Spent.marked_move {k : Nat} {x : Client Mac}
    {r : Record Mac} (hk : s.clients[k]? = some x) (hx : x.point.won = some r) :
    ∃ e, after (spentKey (x.scope h) r.nonce) = some e ∧ r.deadline ≤ e.expires := by
  obtain ⟨e, he, hexp⟩ := hspent.marked k x r hk hx
  rcases hmove.touch.spentKey_cases x.call.purpose x.call.subject r.nonce with
    hsame | ⟨r', remaining, hp, hscope, hn, hfree⟩
  · exact ⟨e, by rw [Client.scope, hsame]; exact he, hexp⟩
  · have hlive := hspent.marker_live hsound ht hi hp hk hx hn
    rw [hscope, hn] at hlive
    exact absurd hfree hlive

theorem spent_go :
    Spent h ⟨s.now, after, s.clients.set i cl'⟩ := by
  have hscope : cl'.scope h = cl.scope h := by
    unfold Client.scope
    rw [hmove.call_eq]
  refine ⟨?_, ?_, ?_⟩
  · intro k x r hk hr
    rcases at_set hk with ⟨-, rfl⟩ | ⟨-, hk⟩
    · rcases hmove.won_cases hr with hr | ⟨remaining, hp, -, hput⟩
      · rw [hscope]
        exact hspent.marked_move hsound ht hi hmove hi hr
      · rw [hscope]
        exact ⟨_, hput, hsound.left i cl r remaining hi (by rw [hp]; rfl)⟩
    · exact hspent.marked_move hsound ht hi hmove hk hr
  · -- Only the burn adds a winner, and it found no marker.
    have hnew : ∀ k x r r', s.clients[k]? = some x → x.point.won = some r' →
        cl'.point.won = some r → r.nonce = r'.nonce → k = i := by
      intro k x r r' hk hx hr hn
      rcases hmove.won_cases hr with hr | ⟨remaining, hp, hfree, -⟩
      · exact hspent.once k i x cl r' r hk hi hx hr hn.symm
      · exact absurd hfree (hspent.marker_live hsound ht hi hp hk hx hn)
    intro k l a b r r' hk hl ha hb hn
    rcases at_set hk with ⟨rfl, rfl⟩ | ⟨-, hk'⟩
    · rcases at_set hl with ⟨rfl, -⟩ | ⟨-, hl'⟩
      · rfl
      · exact (hnew l b r r' hl' hb ha hn).symm
    · rcases at_set hl with ⟨rfl, rfl⟩ | ⟨-, hl'⟩
      · exact hnew k a r' r hk' ha hb hn.symm
      · exact hspent.once k l a b r r' hk' hl' ha hb hn
  · intro k x r t hk hr
    rcases at_set hk with ⟨-, rfl⟩ | ⟨-, hk⟩
    · cases hmove with
      | idle => exact hspent.early i _ r t hi hr
      | housekeep at_point =>
        cases hr
        exact (timely_housekeep ht hi at_point).1
      | attempt =>
        simp only [Client.compare] at hr
        split at hr <;> cases hr
      | _ => cases hr
    · exact hspent.early k x r t hk hr

end Go

theorem spent_step {s s' : State Mac} {a : Action} (hsound : Sound h s) (hspent : Spent h s)
    (ht : timely h s a) (hs : step c h s a = some s') : Spent h s' := by
  obtain ⟨d⟩ | ⟨call⟩ | ⟨hi, -, hmove⟩ := step_taken hs
  · exact ⟨hspent.marked, hspent.once, hspent.early⟩
  · -- The client that begins holds no record.
    obtain ⟨-, -, -, -, ho⟩ := Call.start_point Mac call s.now
    have hwon : ∀ r, (call.start s.now : Client Mac).point.won ≠ some r := by
      intro r hr
      rw [Point.outstanding_of_won hr] at ho
      cases ho
    refine ⟨?_, ?_, ?_⟩
    · intro k cl r hk hr
      rcases at_append hk with hk | ⟨-, rfl⟩
      · exact hspent.marked k cl r hk hr
      · exact absurd hr (hwon r)
    · intro k l a b r r' hk hl ha hb hn
      rcases at_append hk with hk | ⟨-, rfl⟩
      · rcases at_append hl with hl | ⟨-, rfl⟩
        · exact hspent.once k l a b r r' hk hl ha hb hn
        · exact absurd hb (hwon r')
      · exact absurd ha (hwon r)
    · intro k cl r t hk hr
      rcases at_append hk with hk | ⟨-, rfl⟩
      · exact hspent.early k cl r t hk hr
      · rw [hr] at ho
        cases ho
  · exact spent_go hsound hspent ht hi hmove

theorem spent_of_reach {now : Nat}
    (hr : Reach (step c h) (timely h) (State.initial now) s) : Spent h s :=
  (hr.invariant (I := fun s => Sound h s ∧ Spent h s) ⟨sound_initial now, spent_initial now⟩
    fun _ _ _ hi ht hs => ⟨sound_step hi.1 hs, spent_step hi.1 hi.2 ht hs⟩).2

/-! ### A later code replaces an earlier one -/

/-- The call `i` was an `Issue` and has returned this code. -/
def Returned (s : State Mac) (i : Nat) (p sub code : String) (r : Record Mac) : Prop :=
  ∃ cl, s.clients[i]? = some cl ∧ cl.call = .issue p sub ∧ cl.point = .done (.issued code r)

/-- The call `i` was a `Consume` and has returned nil at the moment `t`. -/
def Succeeded (s : State Mac) (i : Nat) (p sub code : String) (r : Record Mac) (t : Nat) : Prop :=
  ∃ cl, s.clients[i]? = some cl ∧ cl.call = .consume p sub code ∧ cl.point = .done (.spent r t)

/-- The record under the purpose and subject is not `r`. -/
def Elsewhere (h : Hashing Mac) (s : State Mac) (p sub : String) (r : Record Mac) : Prop :=
  ∀ e, s.store (recordKey (h.scope p sub)) = some e → e.value ≠ .record r

section Replace

variable {s s' : State Mac} {a : Action} {p sub code : String} {r : Record Mac} {cl : Client Mac}

/-- A call that has returned stays as it is. -/
theorem done_step {k : Nat} {x : Answer Mac} (hs : step c h s a = some s')
    (hk : s.clients[k]? = some cl) (hp : cl.point = .done x) : s'.clients[k]? = some cl := by
  have hlt : k < s.clients.length := (List.getElem?_eq_some_iff.mp hk).1
  obtain ⟨d⟩ | ⟨_⟩ | @⟨i, _, _, _, cl', _, hi, -, hmove⟩ := step_taken hs
  · exact hk
  · exact (List.getElem?_append_left hlt).trans hk
  · by_cases hki : k = i
    · subst hki
      rw [hk] at hi
      cases hi
      have hsame : cl' = cl := by
        cases hmove with
        | idle => rfl
        | refuse e running => exact absurd hp (running x)
        | _ => simp_all
      rw [hsame]
      exact List.getElem?_set_self hlt
    · exact (List.getElem?_set_ne (Ne.symm hki)).trans hk

variable {i : Nat}

theorem Returned.kept (hret : Returned s i p sub code r) (hs : step c h s a = some s') :
    Returned s' i p sub code r := by
  obtain ⟨cl, hi, hcall, hp⟩ := hret
  exact ⟨cl, done_step hs hi hp, hcall, hp⟩

theorem Returned.reach {ok : State Mac → Action → Bool} (hret : Returned s i p sub code r)
    (hr : Reach (step c h) ok s s') : Returned s' i p sub code r :=
  hr.invariant (I := fun s => Returned s i p sub code r) hret fun _ _ _ ht _ hs => ht.kept hs

/-- The record of a call that has returned is never written again. -/
theorem Elsewhere.kept (hsound : Sound h s) (hret : Returned s i p sub code r)
    (helse : Elsewhere h s p sub r) (hs : step c h s a = some s') : Elsewhere h s' p sub r := by
  obtain ⟨d⟩ | ⟨_⟩ | @⟨k, _, _, cl, _, after, hk, -, hmove⟩ := step_taken hs
  · exact helse
  · exact helse
  · intro e (he : after (recordKey (h.scope p sub)) = some e)
    rcases hmove.touch.recordKey_cases p sub with hsame | ⟨code', fresh, hp, -, hput⟩ | ⟨_, -, -, hnone⟩
    · rw [hsame] at he
      exact helse e he
    · rw [hput] at he
      cases he
      intro hfresh
      obtain ⟨x, hi, -, hx⟩ := hret
      have hdx := (hsound.valid i x hi).written (code, r) (by rw [hx]; rfl)
      have hdc := (hsound.valid k cl hk).written (code', fresh) (by rw [hp]; rfl)
      cases hfresh
      have hik : i = k := hsound.nonces i k x cl r.nonce hi hk (by simp [Client.drawnNonce, hdx])
        (by simp [Client.drawnNonce, hdc])
      subst hik
      rw [hi] at hk
      cases hk
      rw [hx] at hp
      cases hp
    · rw [hnone] at he
      cases he

/-- A call that returns a code has just written its record. -/
theorem returned_cases {j : Nat} (hs : step c h s a = some s') (hret : Returned s' j p sub code r) :
    Returned s j p sub code r
      ∨ ∃ n, s'.store (recordKey (h.scope p sub)) = some ⟨.record r, n⟩ := by
  obtain ⟨x, hj, hcall, hx⟩ := hret
  obtain ⟨d⟩ | ⟨call⟩ | @⟨k, _, _, cl, _, _, hk, -, hmove⟩ := step_taken hs
  · exact .inl ⟨x, hj, hcall, hx⟩
  · rcases at_append hj with hj | ⟨-, rfl⟩
    · exact .inl ⟨x, hj, hcall, hx⟩
    · obtain ⟨-, -, -, hw, -⟩ := Call.start_point Mac call s.now
      rw [hx] at hw
      cases hw
  · rcases at_set hj with ⟨rfl, rfl⟩ | ⟨-, hj⟩
    · cases hmove with
      | idle _ => exact .inl ⟨_, hk, hcall, hx⟩
      | write =>
        have hcl : cl.call = .issue p sub := hcall
        refine .inr ⟨s.now + max c.ttl c.cooldown, ?_⟩
        cases hx
        have hscope : cl.scope h = h.scope p sub := by
          unfold Client.scope
          rw [hcl]
          rfl
        rw [hscope]
        exact Table.put_self ..
      | attempt =>
        simp only [Client.compare] at hx
        split at hx <;> cases hx
      | _ => cases hx
    · exact .inl ⟨x, hj, hcall, hx⟩

variable {ok : State Mac → Action → Bool} {now : Nat}

variable (h₀ : Reach (step c h) ok (State.initial now) s)
include h₀

/-- Once a later code is out, the earlier one is no longer in the store. -/
theorem elsewhere_of_returned {i j : Nat} {code' : String} {r' : Record Mac} (h₁ : Reach (step c h) ok s s')
    (hret : Returned s i p sub code r) (hnot : ∀ code'' r'', ¬ Returned s j p sub code'' r'')
    (hret' : Returned s' j p sub code' r') : Elsewhere h s' p sub r := by
  have hij : i ≠ j := by
    intro e
    subst e
    exact hnot code r hret
  have hinv : Sound h s' ∧ Returned s' i p sub code r
      ∧ ∀ code'' r'', Returned s' j p sub code'' r'' → Elsewhere h s' p sub r := by
    refine h₁.invariant (I := fun s' => Sound h s' ∧ Returned s' i p sub code r
      ∧ ∀ code'' r'', Returned s' j p sub code'' r'' → Elsewhere h s' p sub r)
      ⟨sound_of_reach h₀, hret, fun code'' r'' hj => absurd hj (hnot code'' r'')⟩ ?_
    intro t a u ⟨hsound, ht, helse⟩ _ hs
    refine ⟨sound_step hsound hs, ht.kept hs, ?_⟩
    intro code'' r'' hj
    rcases returned_cases hs hj with hold | ⟨n, hstored⟩
    · exact (helse code'' r'' hold).kept hsound ht hs
    · -- The record just written is the other call's.
      intro e he hr
      rw [hstored] at he
      cases he
      cases hr
      obtain ⟨x, hx, -, hpx⟩ := ht.kept hs
      obtain ⟨y, hy, -, hpy⟩ := hj
      have hsound' := sound_step hsound hs
      have hdx := (hsound'.valid i x hx).written (code, r) (by rw [hpx]; rfl)
      have hdy := (hsound'.valid j y hy).written (code'', r) (by rw [hpy]; rfl)
      exact hij (hsound'.nonces i j x y r.nonce hx hy (by simp [Client.drawnNonce, hdx])
        (by simp [Client.drawnNonce, hdy]))
  exact hinv.2.2 code' r' hret'

/-- A call that begins when the earlier code is no longer in the store never gets hold of it. -/
theorem never_outstanding
    (h₁ : Reach (step c h) ok s s') (hret : Returned s i p sub code r)
    (helse : Elsewhere h s p sub r) {k : Nat} (hk : s.clients.length ≤ k)
    (hcl : s'.clients[k]? = some cl) : cl.point.outstanding ≠ some r := by
  have hinv : Sound h s' ∧ Returned s' i p sub code r ∧ Elsewhere h s' p sub r
      ∧ ∀ cl, s'.clients[k]? = some cl → cl.point.outstanding ≠ some r := by
    refine h₁.invariant (I := fun s' => Sound h s' ∧ Returned s' i p sub code r
      ∧ Elsewhere h s' p sub r ∧ ∀ cl, s'.clients[k]? = some cl → cl.point.outstanding ≠ some r)
      ⟨sound_of_reach h₀, hret, helse, ?_⟩ ?_
    · intro cl hcl
      rw [List.getElem?_eq_none hk] at hcl
      cases hcl
    · intro t a u ⟨hsound, ht, hstill, hnot⟩ _ hs
      refine ⟨sound_step hsound hs, ht.kept hs, hstill.kept hsound ht hs, ?_⟩
      intro cl hcl
      have hmade := ht
      obtain ⟨d⟩ | ⟨call⟩ | @⟨l, _, _, x, _, _, hl, -, hmove⟩ := step_taken hs
      · exact hnot cl hcl
      · rcases at_append hcl with hcl | ⟨-, rfl⟩
        · exact hnot cl hcl
        · obtain ⟨-, -, -, -, ho⟩ := Call.start_point Mac call t.now
          rw [ho]
          exact nofun
      · rcases at_set hcl with ⟨rfl, rfl⟩ | ⟨-, hcl⟩
        · intro hr
          rcases hmove.outstanding_cases hr with hr | ⟨-, hg⟩
          · exact hnot x hl hr
          · -- What it reads is under its own purpose and subject, so it is not `r`.
            obtain ⟨e, he, hv, -⟩ := get_eq_some hg
            obtain ⟨_, hr', hm'⟩ := hsound.stored _ _ e he
            rw [hv] at hr'
            cases hr'
            obtain ⟨y, hy, hcall, hpy⟩ := hmade
            have hm : Made t p sub r := ⟨i, y, code, hy, by rw [hcall]; rfl, by rw [hcall]; rfl,
              (hsound.valid i y hy).written (code, r) (by rw [hpy]; rfl)⟩
            obtain ⟨hp, hsub, -⟩ := hsound.made_unique hm' hm rfl
            have hkey : x.scope h = h.scope p sub := by rw [Client.scope, hp, hsub]
            rw [hkey] at he
            exact hstill e he hv
        · exact hnot cl hcl
  exact hinv.2.2.2 cl hcl

end Replace

/-! ### The promise -/

section Promise

variable {s s' : State Mac}

/-- A `Consume` leaves alone every code but the one it read: the record, the spent marker and the
attempt counter. -/
theorem consume_keeps_others {i : Nat} {fault : Fault} {draw : Option Draw} {cl : Client Mac}
    {r r' : Record Mac} (ht : timely h s (.go i fault draw)) (hi : s.clients[i]? = some cl)
    (hr : cl.point.outstanding = some r) (hs : step c h s (.go i fault draw) = some s')
    (hn : r.nonce ≠ r'.nonce) {p sub : String} {e : Entry (Value Mac)}
    (he : s.store (recordKey (h.scope p sub)) = some e) (hv : e.value = .record r')
    (hlive : s.now < e.expires) :
    s'.store (recordKey (h.scope p sub)) = some e
      ∧ s'.store (spentKey (h.scope p sub) r'.nonce) = s.store (spentKey (h.scope p sub) r'.nonce)
      ∧ s'.store (attemptKey (h.scope p sub) r'.nonce)
        = s.store (attemptKey (h.scope p sub) r'.nonce) := by
  obtain _ | _ | ⟨hk, -, hmove⟩ := step_taken hs
  rw [hi] at hk
  cases hk
  refine ⟨?_, ?_, ?_⟩
  · rcases hmove.touch.recordKey_cases p sub with hsame | ⟨_, _, hp, -⟩ | ⟨r₂, hp, hscope, -⟩
    · exact hsame.trans he
    · rw [hp] at hr
      cases hr
    · -- The record it removes is the one it read.
      rw [hp] at hr
      cases hr
      have hfound := (timely_housekeep ht hi hp).2 e
        (Table.live_eq_some.mpr ⟨by rw [hscope]; exact he, hlive⟩)
      rw [hv] at hfound
      cases hfound
      exact absurd rfl hn
  · rcases hmove.touch.spentKey_cases p sub r'.nonce with hsame | ⟨r₂, _, hp, -, hn₂, -⟩
    · exact hsame
    · rw [hp] at hr
      cases hr
      exact absurd hn₂ hn
  · rcases hmove.touch.attemptKey_cases p sub r'.nonce with hsame | ⟨r₂, _, _, hp, -, hn₂, -⟩
    · exact hsame
    · rw [hp] at hr
      cases hr
      exact absurd hn₂ hn

/-- A code that succeeds was issued for the purpose and subject it is presented for. -/
theorem Succeeded.issued (hsound : Sound h s) {k : Nat} {p sub code : String} {r : Record Mac}
    {t : Nat} (hk : Succeeded s k p sub code r t) :
    Made s p sub r ∧ ∀ i p' sub' code' r', Returned s i p' sub' code' r' → r'.nonce = r.nonce →
      p' = p ∧ sub' = sub ∧ code' = code := by
  obtain ⟨cl, hcl, hcall, hp⟩ := hk
  have hm : Made s p sub r := by
    have := hsound.held k cl r hcl (by rw [hp]; rfl)
    rwa [hcall] at this
  refine ⟨hm, ?_⟩
  rintro i p' sub' code' r' ⟨x, hi, hcall', hx⟩ hn
  have hd := (hsound.valid i x hi).written (code', r') (by rw [hx]; rfl)
  have hm' : Made s p' sub' r' := ⟨i, x, code', hi, by rw [hcall']; rfl, by rw [hcall']; rfl, hd⟩
  obtain ⟨rfl, rfl, rfl⟩ := hsound.made_unique hm' hm hn
  -- Both digests are the record's, and a digest has one code.
  have hissued := (hsound.valid i x hi).drawn _ hd
  have hmatch := (hsound.valid k cl hcl).matched r' (by rw [hp]; rfl)
  simp only [Client.matching, decide_eq_true_eq, Client.presented, hcall] at hmatch
  rw [hcall'] at hissued
  exact ⟨rfl, rfl, (h.digest_inj (hissued.symm.trans hmatch)).2.2.2⟩

end Promise

/-- **A code is spent at most once, and only while it is the current one.**  In a timely run,
cut at two moments: no two calls succeed with one code; one that begins after a later code is
out never succeeds with an earlier one; none succeeds once the code has expired, or for another
purpose or subject; and a `Consume` does nothing to another code. -/
theorem code_spent_at_most_once (now : Nat) {s₀ s₁ s : State Mac}
    (h₀ : Reach (step c h) (timely h) (State.initial now) s₀)
    (h₁ : Reach (step c h) (timely h) s₀ s₁) (h₂ : Reach (step c h) (timely h) s₁ s) :
    (∀ i j p sub code r t p' sub' code' r' t', Succeeded s i p sub code r t →
      Succeeded s j p' sub' code' r' t' → r.nonce = r'.nonce → i = j)
    ∧ (∀ i j p sub code code' r r', Returned s₀ i p sub code r →
      (∀ code'' r'', ¬ Returned s₀ j p sub code'' r'') → Returned s₁ j p sub code' r' →
      ∀ k p' sub' x r'' t, s₁.clients.length ≤ k → Succeeded s k p' sub' x r'' t →
        r''.nonce ≠ r.nonce)
    ∧ (∀ k p sub code r t, Succeeded s k p sub code r t → t < r.deadline)
    ∧ (∀ k p sub code r t, Succeeded s k p sub code r t →
      Made s p sub r ∧ ∀ i p' sub' code' r', Returned s i p' sub' code' r' → r'.nonce = r.nonce →
        p' = p ∧ sub' = sub ∧ code' = code)
    ∧ (∀ i fault draw cl r r' s', timely h s (.go i fault draw) = true → s.clients[i]? = some cl →
      cl.point.outstanding = some r → step c h s (.go i fault draw) = some s' → r.nonce ≠ r'.nonce →
      ∀ p sub e, s.store (recordKey (h.scope p sub)) = some e → e.value = .record r' →
        s.now < e.expires →
        s'.store (recordKey (h.scope p sub)) = some e
          ∧ s'.store (spentKey (h.scope p sub) r'.nonce) = s.store (spentKey (h.scope p sub) r'.nonce)
          ∧ s'.store (attemptKey (h.scope p sub) r'.nonce)
            = s.store (attemptKey (h.scope p sub) r'.nonce)) := by
  have hrun := (h₀.trans h₁).trans h₂
  have hsound := sound_of_reach hrun
  have hspent := spent_of_reach hrun
  refine ⟨?_, ?_, ?_, ?_, ?_⟩
  · rintro i j p sub code r t p' sub' code' r' t' ⟨a, hi, -, ha⟩ ⟨b, hj, -, hb⟩ hn
    exact hspent.once i j a b r r' hi hj (by rw [ha]; rfl) (by rw [hb]; rfl) hn
  · intro i j p sub code code' r r' hret hnot hret' k p' sub' x r'' t hk hsucc hn
    have helse := elsewhere_of_returned h₀ h₁ hret hnot hret'
    have hret₁ : Returned s₁ i p sub code r := hret.reach h₁
    have hret₂ : Returned s i p sub code r := hret₁.reach h₂
    obtain ⟨hm, _⟩ := hsucc.issued hsound
    obtain ⟨cl, hcl, -, hp⟩ := hsucc
    obtain ⟨y, hy, hcall, hpy⟩ := hret₂
    have hm' : Made s p sub r := ⟨i, y, code, hy, by rw [hcall]; rfl, by rw [hcall]; rfl,
      (hsound.valid i y hy).written (code, r) (by rw [hpy]; rfl)⟩
    obtain ⟨-, -, rfl⟩ := hsound.made_unique hm hm' hn
    exact never_outstanding (h₀.trans h₁) h₂ hret₁ helse hk hcl (by rw [hp]; rfl)
  · rintro k p sub code r t ⟨cl, hcl, -, hp⟩
    exact hspent.early k cl r t hcl hp
  · intro k p sub code r t hk
    exact hk.issued hsound
  · intro i fault draw cl r r' s' ht hi hr hs hn p sub e he hv hlive
    exact consume_keeps_others ht hi hr hs hn he hv hlive

/-! ### What goes wrong when a client stalls -/

/-- The first code of the runs below, and the second. -/
def firstRecord : Record (List String) := freshRecord .brief .plain "reset" "ann" 0 ⟨"1234", "n1"⟩
def secondRecord : Record (List String) := freshRecord .brief .plain "reset" "ann" 2 ⟨"5678", "n2"⟩

/-- A call stands at a point, checked. -/
def State.stands (s : State Mac) (i : Nat) (call : Call) (p : Point Mac) : Bool :=
  s.clients[i]?.any fun cl => cl.call = call && cl.point = p

theorem State.stands_iff {call : Call} {p : Point Mac} :
    s.stands i call p ↔ ∃ cl, s.clients[i]? = some cl ∧ cl.call = call ∧ cl.point = p := by
  unfold State.stands
  cases hcl : s.clients[i]? with
  | none => simp
  | some => simp

instance {s : State Mac} {i : Nat} {call : Call} {p : Point Mac} :
    Decidable (∃ cl, s.clients[i]? = some cl ∧ cl.call = call ∧ cl.point = p) :=
  decidable_of_iff _ State.stands_iff

/-- A code, a second one in its place, and both of them presented, the second twice. -/
theorem code_spent_at_most_once_reset : ∃ s, Succeeded s 3 "reset" "ann" "5678" secondRecord 2 ∧
    2 < secondRecord.deadline ∧ (∀ j p sub code t, Succeeded s j p sub code secondRecord t → j = 3) ∧
    ∀ k, 2 ≤ k → ∀ p sub code t, ¬Succeeded s k p sub code firstRecord t := by
  have hrun : (Run.follow (step .brief .plain) (timely .plain) (State.initial 0)
      (issues 0 "reset" "ann" ⟨"1234", "n1"⟩)).any fun s₀ =>
      s₀.stands 0 (.issue "reset" "ann") (.done (.issued "1234" firstRecord)) && s₀.clients[1]?.isNone &&
      (Run.follow (step .brief .plain) (timely .plain) s₀
        (.tick 2 :: issues 1 "reset" "ann" ⟨"5678", "n2"⟩)).any fun s₁ =>
        s₁.stands 1 (.issue "reset" "ann") (.done (.issued "5678" secondRecord)) && s₁.clients.length = 2 &&
        (Run.follow (step .brief .plain) (timely .plain) s₁ (.call (.consume "reset" "ann" "1234") :: goes 2 2
          ++ .call (.consume "reset" "ann" "5678") :: goes 3 7 ++ .call (.consume "reset" "ann" "5678") :: goes 4 1)).any
          fun s => s.stands 3 (.consume "reset" "ann" "5678") (.done (.spent secondRecord 2)) := by
    decide +kernel
  obtain ⟨s₀, h₀, hrun⟩ := (Option.any_eq_true _ _).mp hrun
  obtain ⟨hfirst, hrun⟩ := Bool.and_eq_true_iff.mp hrun
  obtain ⟨hfirst, hnone⟩ := Bool.and_eq_true_iff.mp hfirst
  obtain ⟨s₁, h₁, hrun⟩ := (Option.any_eq_true _ _).mp hrun
  obtain ⟨hsecond, hrun⟩ := Bool.and_eq_true_iff.mp hrun
  obtain ⟨hsecond, hlength⟩ := Bool.and_eq_true_iff.mp hsecond
  obtain ⟨s, h₂, hspent⟩ := (Option.any_eq_true _ _).mp hrun
  have hsucc : Succeeded s 3 "reset" "ann" "5678" secondRecord 2 := State.stands_iff.mp hspent
  have hnot : ∀ code r, ¬Returned s₀ 1 "reset" "ann" code r := by
    rintro _ _ ⟨cl, hcl, -⟩
    rw [hcl] at hnone
    cases hnone
  obtain ⟨honce, hsuperseded, htime, -⟩ := code_spent_at_most_once 0 (Run.reach_of_follow h₀) (Run.reach_of_follow h₁)
    (Run.reach_of_follow h₂)
  refine ⟨s, hsucc, htime _ _ _ _ _ _ hsucc, fun j p sub code t hj => honce _ _ _ _ _ _ _ _ _ _ _ _ hj hsucc rfl,
    fun k hk p sub code t hsucc => ?_⟩
  exact hsuperseded 0 1 "reset" "ann" _ _ _ _ (State.stands_iff.mp hfirst) hnot (State.stands_iff.mp hsecond) k p sub code
    firstRecord t (by rwa [of_decide_eq_true hlength]) hsucc rfl

/-- **A client that stalls breaks the promise.**  In one run two calls succeed with one code, the
second of them after the code's expiry; in another a call that spends the first code removes the
record of the second, which is then unknown to whoever presents it. -/
theorem stalled_consume :
    (∃ s, Reach (step .brief .plain) (fun _ _ => true) (State.initial 0) s
      ∧ Succeeded s 1 "reset" "ann" "1234" firstRecord 0
      ∧ Succeeded s 2 "reset" "ann" "1234" firstRecord (11 * millisecond)
      ∧ firstRecord.deadline ≤ 11 * millisecond)
    ∧ ∃ s, Reach (step .brief .plain) (fun _ _ => true) (State.initial 0) s
      ∧ Returned s 2 "reset" "ann" "5678" secondRecord ∧ s.now < secondRecord.deadline
      ∧ Succeeded s 1 "reset" "ann" "1234" firstRecord 2
      ∧ ∃ cl, s.clients[3]? = some cl ∧ cl.call = .consume "reset" "ann" "5678"
        ∧ cl.point = .done (.refused .noCode) := by
  unfold Succeeded Returned
  constructor
  · exact Run.exists_reach (issues 0 "reset" "ann" ⟨"1234", "n1"⟩
      ++ .call (.consume "reset" "ann" "1234") :: goes 1 5
      ++ .call (.consume "reset" "ann" "1234") :: goes 2 5
      ++ goes 1 2 ++ .tick (11 * millisecond) :: goes 2 2) (by decide +kernel)
  · exact Run.exists_reach (issues 0 "reset" "ann" ⟨"1234", "n1"⟩
      ++ .call (.consume "reset" "ann" "1234") :: goes 1 6
      ++ .tick 2 :: issues 2 "reset" "ann" ⟨"5678", "n2"⟩
      ++ goes 1 1 ++ .call (.consume "reset" "ann" "5678") :: goes 3 1) (by decide +kernel)

end Hesape.Onetime
