import Hesape.Onetime.Moves

/-!
# Where records come from

A record in the store, or in the hands of a `Consume`, was made by a call for the same purpose
and subject (`Made`), and a nonce belongs to one record.  These facts hold along every run,
whatever the clock does and whatever fails: `sound_step` is the step and `sound_of_reach` the
run.
-/

namespace Hesape.Onetime

open Hesape.Cache (Entry Table)
open Hesape.Run (Reach at_set at_append)

variable {Mac : Type}

/-! ### What a point holds -/

namespace Point

/-- The record a `Consume` read. -/
def outstanding : Point Mac → Option (Record Mac)
  | .consumeClock r => some r
  | .countFailure r _ => some r
  | .countAttempt r _ _ => some r
  | .giveBack r _ _ => some r
  | .burn r _ => some r
  | .housekeep r => some r
  | .done (.spent r _) => some r
  | _ => none

/-- The record a `Consume` presented the right code for. -/
def matched : Point Mac → Option (Record Mac)
  | .giveBack r _ _ => some r
  | .burn r _ => some r
  | .housekeep r => some r
  | .done (.spent r _) => some r
  | _ => none

/-- The record a `Consume` spent: it has returned nil for it, or is about to. -/
def won : Point Mac → Option (Record Mac)
  | .housekeep r => some r
  | .done (.spent r _) => some r
  | _ => none

/-- The code and record an `Issue` writes, or has returned. -/
def written : Point Mac → Option (String × Record Mac)
  | .issuePut code r => some (code, r)
  | .done (.issued code r) => some (code, r)
  | _ => none

variable {p : Point Mac} {r : Record Mac}

theorem outstanding_of_matched (hr : p.matched = some r) :
    p.outstanding = some r := by
  revert hr
  cases p with
  | done a => cases a <;> exact id
  | _ => simp [matched, outstanding]

theorem matched_of_won (hr : p.won = some r) :
    p.matched = some r := by
  revert hr
  cases p with
  | done a => cases a <;> exact id
  | _ => simp [matched, won]

theorem outstanding_of_won (hr : p.won = some r) :
    p.outstanding = some r :=
  outstanding_of_matched (matched_of_won hr)

/-- The record a `Consume` works on, and the time it found the code to have left. -/
def remaining : Point Mac → Option (Record Mac × Nat)
  | .countFailure r n => some (r, n)
  | .countAttempt r n _ => some (r, n)
  | .giveBack r n _ => some (r, n)
  | .burn r n => some (r, n)
  | _ => none

theorem outstanding_of_remaining {n : Nat}
    (hr : p.remaining = some (r, n)) : p.outstanding = some r := by
  revert hr
  cases p <;> simp +contextual [remaining, outstanding]

end Point

section Valid

variable {c : Codes} {h : Hashing Mac}

theorem Call.start_point (Mac : Type) (call : Call) (now : Nat) :
    (call.start now : Client Mac).drawn = none ∧ (call.start now : Client Mac).compared = none
      ∧ (call.start now : Client Mac).call = call
      ∧ (call.start now : Client Mac).point.written = none
      ∧ (call.start now : Client Mac).point.outstanding = none := by
  cases call with
  | issue =>
    unfold Call.start
    dsimp only
    split
    · exact ⟨rfl, rfl, rfl, rfl, rfl⟩
    · split <;> exact ⟨rfl, rfl, rfl, rfl, rfl⟩
  | consume =>
    unfold Call.start
    dsimp only
    split
    · exact ⟨rfl, rfl, rfl, rfl, rfl⟩
    · split
      · exact ⟨rfl, rfl, rfl, rfl, rfl⟩
      · split <;> exact ⟨rfl, rfl, rfl, rfl, rfl⟩

variable [DecidableEq Mac]

/-- What is true of a client on its own. -/
structure Client.Valid (h : Hashing Mac) (cl : Client Mac) : Prop where
  drawn : ∀ d, cl.drawn = some d →
    d.2.digest = h.digest cl.call.purpose cl.call.subject d.2.nonce d.1
  undrawn : ∀ start, cl.point = .issueGet start → cl.drawn = none
  written : ∀ d, cl.point.written = some d → cl.drawn = some d
  matched : ∀ r, cl.point.matched = some r → cl.matching h r = true

theorem Call.start_valid (call : Call) (now : Nat) : (call.start now : Client Mac).Valid h := by
  obtain ⟨hd, -, -, hw, ho⟩ := Call.start_point Mac call now
  refine ⟨?_, fun _ _ => hd, ?_, ?_⟩
  · intro d hdrawn
    rw [hd] at hdrawn
    cases hdrawn
  · intro d hwritten
    rw [hw] at hwritten
    cases hwritten
  · intro r hr
    rw [Point.outstanding_of_matched hr] at ho
    cases ho

variable {now : Nat} {store after : Store Mac} {fault : Fault} {draw : Option Draw}
variable {cl cl' : Client Mac}

/-- A client that moves on without drawing. -/
theorem Client.Valid.goTo (v : cl.Valid h) {p : Point Mac} (hstart : ∀ start, p ≠ .issueGet start)
    (hw : ∀ d, p.written = some d → cl.drawn = some d)
    (hm : ∀ r, p.matched = some r → cl.matching h r) : (cl.goTo p).Valid h :=
  ⟨v.drawn, fun start hp => absurd hp (hstart start), hw, hm⟩

theorem Client.Valid.move (v : cl.Valid h) (m : Moves c h now store fault draw cl cl' after) :
    cl'.Valid h := by
  cases m with
  | idle => exact v
  | refuse | read | clock | failure =>
    exact v.goTo (by simp) (by simp [Point.written]) (by simp [Point.matched])
  | draw d _ _ =>
    refine ⟨?_, by simp [generate], ?_, by simp [generate, Point.matched]⟩
    · intro d' hd'
      cases hd'
      rfl
    · intro d' hd'
      simpa [generate, Point.written] using hd'
  | write at_point =>
    refine v.goTo (by simp) ?_ (by simp [Point.matched])
    intro d hd
    exact v.written d (by rw [at_point]; exact hd)
  | @attempt r _ _ _ _ _ _ _ _ =>
    refine ⟨v.drawn, ?_, ?_, ?_⟩
    · intro _ hp
      simp only [Client.compare] at hp
      split at hp <;> cases hp
    · intro d hd
      simp only [Client.compare] at hd
      split at hd <;> cases hd
    · intro _ hr'
      simp only [Client.compare] at hr'
      split at hr'
      · next hmatch =>
        cases hr'
        exact hmatch
      · cases hr'
  | giveBack at_point _ | burn at_point _ | housekeep at_point _ =>
    refine v.goTo (by simp) (by simp [Point.written]) ?_
    intro r hr
    exact v.matched r (by rw [at_point]; exact hr)

/-- A client has the record it had, or the one the store holds for its purpose and subject. -/
theorem Moves.outstanding_cases (m : Moves c h now store fault draw cl cl' after) {r : Record Mac}
    (hr : cl'.point.outstanding = some r) :
    cl.point.outstanding = some r
      ∨ (cl.point = .consumeGet ∧ store.get now (recordKey (cl.scope h)) = some (.record r)) := by
  cases m with
  | idle => exact .inl hr
  | refuse | draw | write => cases hr
  | read at_point found =>
    cases hr
    exact .inr ⟨at_point, found⟩
  | clock at_point _ | failure at_point _ _ _ | giveBack at_point _ | burn at_point _
  | housekeep at_point => exact .inl (by rw [at_point]; exact hr)
  | attempt at_point =>
    simp only [Client.compare] at hr
    split at hr
    · exact .inl (by rw [at_point]; exact hr)
    · cases hr

end Valid

/-! ### The clients of a state -/

/-- A call for this purpose and subject made the record. -/
def Made (s : State Mac) (p sub : String) (r : Record Mac) : Prop :=
  ∃ (i : Nat) (cl : Client Mac) (code : String), s.clients[i]? = some cl ∧ cl.call.purpose = p
    ∧ cl.call.subject = sub ∧ cl.drawn = some (code, r)

section Sound

theorem get_eq_some {store : Store Mac} {now : Nat} {key : String} {v : Value Mac}
    (hg : store.get now key = some v) : ∃ e, store key = some e ∧ e.value = v ∧ now < e.expires := by
  unfold Table.get at hg
  obtain ⟨e, he, hv⟩ := Option.map_eq_some_iff.mp hg
  obtain ⟨hk, hlt⟩ := Table.live_eq_some.mp he
  exact ⟨e, hk, hv, hlt⟩

variable [DecidableEq Mac] {c : Codes} {h : Hashing Mac}

/-- **What holds of records along every run.** -/
structure Sound (h : Hashing Mac) (s : State Mac) : Prop where
  valid : ∀ (i : Nat) (cl : Client Mac), s.clients[i]? = some cl → cl.Valid h
  nonces : ∀ (i j : Nat) (a b : Client Mac) (n : String), s.clients[i]? = some a →
    s.clients[j]? = some b → a.drawnNonce = some n → b.drawnNonce = some n → i = j
  stored : ∀ (p sub : String) (e : Entry (Value Mac)), s.store (recordKey (h.scope p sub)) = some e →
    ∃ r, e.value = .record r ∧ Made s p sub r
  held : ∀ (i : Nat) (cl : Client Mac) (r : Record Mac), s.clients[i]? = some cl →
    cl.point.outstanding = some r → Made s cl.call.purpose cl.call.subject r
  judged : ∀ (i : Nat) (cl : Client Mac) (k : Comparison Mac), s.clients[i]? = some cl →
    cl.compared = some k → Made s cl.call.purpose cl.call.subject k.outstanding
  left : ∀ (i : Nat) (cl : Client Mac) (r : Record Mac) (n : Nat), s.clients[i]? = some cl →
    cl.point.remaining = some (r, n) → r.deadline ≤ s.now + n

theorem sound_initial (now : Nat) : Sound h (State.initial now) where
  valid := by intro i cl hi; simp [State.initial] at hi
  nonces := by intro i j a b n hi; simp [State.initial] at hi
  stored := by intro p _ e he; cases he
  held := by intro i cl r hi; simp [State.initial] at hi
  judged := by intro i cl k hi; simp [State.initial] at hi
  left := by intro i cl r n hi; simp [State.initial] at hi

variable {s : State Mac} {r : Record Mac}

/-- Calls never lose what they made. -/
theorem Made.kept {s' : State Mac} {a : Action} (hsound : Sound h s)
    (hs : step c h s a = some s') {p sub : String} (hm : Made s p sub r) :
    Made s' p sub r := by
  obtain ⟨k, cl, code, hk, hp, hsub, hd⟩ := hm
  obtain ⟨d⟩ | ⟨_⟩ | @⟨i, _, _, _, cl', _, hi, -, hmove⟩ := step_taken hs
  · exact ⟨k, cl, code, hk, hp, hsub, hd⟩
  · have hlt : k < s.clients.length := (List.getElem?_eq_some_iff.mp hk).1
    exact ⟨k, cl, code, by rw [← hk]; exact List.getElem?_append_left hlt, hp, hsub, hd⟩
  · by_cases hki : k = i
    · subst hki
      rw [hk] at hi
      cases hi
      have hdrawn : cl'.drawn = some (code, r) := by
        rcases hmove.drawn_cases with he | ⟨start, d, hpoint, -⟩
        · rw [he, hd]
        · rw [(hsound.valid k cl hk).undrawn start hpoint] at hd
          cases hd
      have hlt : k < s.clients.length := (List.getElem?_eq_some_iff.mp hk).1
      exact ⟨k, cl', code, List.getElem?_set_self hlt, by rw [hmove.call_eq, hp],
        by rw [hmove.call_eq, hsub], hdrawn⟩
    · exact ⟨k, cl, code, by rw [← hk]; exact List.getElem?_set_ne (Ne.symm hki), hp, hsub, hd⟩

/-- The time left was measured no later than now. -/
theorem Sound.left_move {i : Nat} {fault : Fault} {draw : Option Draw}
    {cl cl' : Client Mac} {after : Store Mac} (hsound : Sound h s) (hi : s.clients[i]? = some cl)
    (hmove : Moves c h s.now s.store fault draw cl cl' after) {n : Nat}
    (hr : cl'.point.remaining = some (r, n)) : r.deadline ≤ s.now + n := by
  cases hmove with
  | idle => exact hsound.left i cl r n hi hr
  | refuse | draw | write | read | burn | housekeep => cases hr
  | clock =>
    cases hr
    omega
  | failure at_point | giveBack at_point => exact hsound.left i cl r n hi (by rw [at_point]; exact hr)
  | attempt at_point =>
    simp only [Client.compare] at hr
    split at hr
    · exact hsound.left i cl r n hi (by rw [at_point]; exact hr)
    · cases hr

theorem sound_step {s' : State Mac} {a : Action} (hsound : Sound h s)
    (hs : step c h s a = some s') : Sound h s' := by
  have hmade : ∀ {p sub r}, Made s p sub r → Made s' p sub r := fun hm => hm.kept hsound hs
  obtain ⟨d⟩ | ⟨call⟩ | @⟨i, _, _, cl, cl', after, hi, hdraw, hmove⟩ := step_taken hs
  · refine ⟨hsound.valid, hsound.nonces, hsound.stored, hsound.held, hsound.judged, ?_⟩
    intro k cl r n hk hr
    have := hsound.left k cl r n hk hr
    show r.deadline ≤ s.now + d + n
    omega
  · -- The client that begins holds nothing and has made nothing.
    obtain ⟨hd, hc, -, -, ho⟩ := Call.start_point Mac call s.now
    refine ⟨?_, ?_, ?_, ?_, ?_, ?_⟩
    · intro k cl hk
      rcases at_append hk with hk | ⟨-, rfl⟩
      · exact hsound.valid k cl hk
      · exact call.start_valid s.now
    · intro k l a b n hk hl ha hb
      rcases at_append hk with hk | ⟨-, rfl⟩
      · rcases at_append hl with hl | ⟨-, rfl⟩
        · exact hsound.nonces k l a b n hk hl ha hb
        · simp [Client.drawnNonce, hd] at hb
      · simp [Client.drawnNonce, hd] at ha
    · intro p sub e he
      obtain ⟨r, hr, hm⟩ := hsound.stored p sub e he
      exact ⟨r, hr, hmade hm⟩
    · intro k cl r hk hr
      rcases at_append hk with hk | ⟨-, rfl⟩
      · exact hmade (hsound.held k cl r hk hr)
      · rw [ho] at hr
        cases hr
    · intro k cl x hk hx
      rcases at_append hk with hk | ⟨-, rfl⟩
      · exact hmade (hsound.judged k cl x hk hx)
      · rw [hc] at hx
        cases hx
    · intro k cl r n hk hr
      rcases at_append hk with hk | ⟨-, rfl⟩
      · exact hsound.left k cl r n hk hr
      · rw [Point.outstanding_of_remaining hr] at ho
        cases ho
  · have hvalid := hsound.valid i cl hi
    refine ⟨?_, ?_, ?_, ?_, ?_, ?_⟩
    · intro k x hk
      rcases at_set hk with ⟨-, rfl⟩ | ⟨-, hk⟩
      · exact hvalid.move hmove
      · exact hsound.valid k x hk
    · -- A nonce that was just drawn is nobody else's.
      have hfresh : ∀ k b n, s.clients[k]? = some b → b.drawnNonce = some n →
          cl'.drawnNonce = some n → k = i := by
        intro k b n hk hb hn
        rcases hmove.drawn_cases with he | ⟨_, d, -, hd, he⟩
        · have hcl : cl.drawnNonce = some n := by rw [Client.drawnNonce, ← he]; exact hn
          exact hsound.nonces k i b cl n hk hi hb hcl
        · have hnd : n = d.nonce := by
            rw [Client.drawnNonce, he] at hn
            exact (Option.some.inj hn).symm
          subst hd
          have hall := (List.all_eq_true.mp hdraw) b (List.mem_of_getElem? hk)
          rw [hb, hnd] at hall
          simp at hall
      intro k l a b n hk hl ha hb
      rcases at_set hk with ⟨rfl, rfl⟩ | ⟨_, hk'⟩
      · rcases at_set hl with ⟨rfl, -⟩ | ⟨-, hl'⟩
        · rfl
        · exact (hfresh l b n hl' hb ha).symm
      · rcases at_set hl with ⟨rfl, rfl⟩ | ⟨-, hl'⟩
        · exact hfresh k a n hk' ha hb
        · exact hsound.nonces k l a b n hk' hl' ha hb
    · intro p sub e (he : after (recordKey (h.scope p sub)) = some e)
      rcases hmove.touch.recordKey_cases p sub with hsame | ⟨code, fresh, hpoint, hscope, hput⟩
        | ⟨r, -, -, hnone⟩
      · rw [hsame] at he
        obtain ⟨r, hr, hm⟩ := hsound.stored p sub e he
        exact ⟨r, hr, hmade hm⟩
      · rw [hput] at he
        cases he
        refine ⟨fresh, rfl, hmade ⟨i, cl, code, hi, ?_, ?_, ?_⟩⟩
        · exact (h.scope_inj hscope).1
        · exact (h.scope_inj hscope).2
        · exact hvalid.written (code, fresh) (by rw [hpoint]; rfl)
      · rw [hnone] at he
        cases he
    · intro k x r hk hr
      rcases at_set hk with ⟨rfl, rfl⟩ | ⟨-, hk⟩
      · rw [hmove.call_eq]
        rcases hmove.outstanding_cases hr with hr | ⟨-, hg⟩
        · exact hmade (hsound.held k cl r hi hr)
        · obtain ⟨e, he, hv, -⟩ := get_eq_some hg
          obtain ⟨_, hr', hm⟩ := hsound.stored _ _ e he
          rw [hv] at hr'
          cases hr'
          exact hmade hm
      · exact hmade (hsound.held k x r hk hr)
    · intro k x y hk hy
      rcases at_set hk with ⟨rfl, rfl⟩ | ⟨-, hk⟩
      · rw [hmove.call_eq]
        rcases hmove.compared_cases with he | ⟨r, _, _, _, hp, -, -, -, rfl⟩
        · exact hmade (hsound.judged k cl y hi (he ▸ hy))
        · cases hy
          exact hmade (hsound.held k cl r hi (by rw [hp]; rfl))
      · exact hmade (hsound.judged k x y hk hy)
    · intro k x r n hk hr
      rcases at_set hk with ⟨-, rfl⟩ | ⟨-, hk⟩
      · exact hsound.left_move hi hmove hr
      · exact hsound.left k x r n hk hr

theorem sound_of_reach {ok : State Mac → Action → Bool} {now : Nat}
    (hr : Reach (step c h) ok (State.initial now) s) : Sound h s :=
  hr.invariant (sound_initial now) fun _ _ _ hsound _ hs => sound_step hsound hs

/-- A nonce belongs to one purpose, one subject and one record. -/
theorem Sound.made_unique (hsound : Sound h s) {p sub p' sub' : String}
    {r' : Record Mac} (hm : Made s p sub r) (hm' : Made s p' sub' r') (hn : r.nonce = r'.nonce) :
    p = p' ∧ sub = sub' ∧ r = r' := by
  obtain ⟨i, cl, _, hi, rfl, rfl, hd⟩ := hm
  obtain ⟨j, cl', _, hj, rfl, rfl, hd'⟩ := hm'
  have hij : i = j := hsound.nonces i j cl cl' r.nonce hi hj (by simp [Client.drawnNonce, hd])
    (by simp [Client.drawnNonce, hd', hn])
  subst hij
  rw [hi] at hj
  cases hj
  rw [hd] at hd'
  cases hd'
  exact ⟨rfl, rfl, rfl⟩

end Sound

/-! ### Short runs -/

/-- Settings for short runs: a code lives ten milliseconds. -/
def Codes.brief : Codes where
  ttl := 10 * millisecond
  cooldown := 1
  maxAttempts := 2
  maxFailures := 3
  failureWindow := 20 * millisecond
  ttl_pos := by decide
  cooldown_pos := by decide
  maxAttempts_pos := by decide
  maxFailures_pos := by decide
  failureWindow_pos := by decide

/-- A call performs its next `n` operations, none of which fails. -/
def goes (i n : Nat) : List Action := List.replicate n (.go i .none none)

/-- A call to `Issue` that runs through. -/
def issues (i : Nat) (p sub : String) (draw : Draw) : List Action :=
  [.call (.issue p sub), .go i .none (some draw), .go i .none none]

end Hesape.Onetime
