import Hesape.Onetime.Codes
import Hesape.Text.Segments

/-!
# What one operation of a client can do

The four kinds of key are apart, and within a kind two keys agree only for one scope and one
nonce (`attemptKey_inj`, `spentKey_inj`).  `Moves` lists everything an operation of a client
can do, guards included: every later argument about a step is a case analysis over it and
never looks at `Client.next` again.

On top of it stand the facts about records.  A record in the store or in a client's hands was
made by an `Issue` for the same purpose and subject (`Made`), and a nonce belongs to one
record.
-/

namespace Hesape.Onetime

open Hesape.Cache (Table)
open Hesape.Text (colon_inj append_left_inj append_ne_of_take)

variable {Mac : Type}

/-! ### Keys -/

section Keys

variable {a b n m : String}

theorem recordKey_inj (e : recordKey a = recordKey b) : a = b := append_left_inj e

theorem failureKey_inj (e : failureKey a = failureKey b) : a = b := append_left_inj e

theorem attemptKey_eq : attemptKey a n = "onetime:attempts:" ++ (a ++ ":" ++ n) := by
  unfold attemptKey
  simp only [String.append_assoc]

theorem spentKey_eq : spentKey a n = "onetime:spent:" ++ (a ++ ":" ++ n) := by
  unfold spentKey
  simp only [String.append_assoc]

theorem attemptKey_inj (ha : ':' ∉ a.toList) (hb : ':' ∉ b.toList)
    (e : attemptKey a n = attemptKey b m) : a = b ∧ n = m := by
  rw [attemptKey_eq, attemptKey_eq] at e
  exact colon_inj ha hb (append_left_inj e)

theorem spentKey_inj (ha : ':' ∉ a.toList) (hb : ':' ∉ b.toList)
    (e : spentKey a n = spentKey b m) : a = b ∧ n = m := by
  rw [spentKey_eq, spentKey_eq] at e
  exact colon_inj ha hb (append_left_inj e)

theorem recordKey_ne_attemptKey : recordKey a ≠ attemptKey b n :=
  attemptKey_eq ▸ append_ne_of_take 9 (by decide) _ _

theorem recordKey_ne_spentKey : recordKey a ≠ spentKey b n :=
  spentKey_eq ▸ append_ne_of_take 9 (by decide) _ _

theorem recordKey_ne_failureKey : recordKey a ≠ failureKey b := append_ne_of_take 9 (by decide) _ _

theorem attemptKey_ne_spentKey : attemptKey a n ≠ spentKey b m :=
  attemptKey_eq ▸ spentKey_eq ▸ append_ne_of_take 9 (by decide) _ _

theorem failureKey_ne_attemptKey : failureKey a ≠ attemptKey b n :=
  attemptKey_eq ▸ append_ne_of_take 9 (by decide) _ _

theorem failureKey_ne_spentKey : failureKey a ≠ spentKey b n :=
  spentKey_eq ▸ append_ne_of_take 9 (by decide) _ _

end Keys

/-! ### Moves -/

section Touch

variable (c : Codes) (h : Hashing Mac)

/-- What the operation of a client at its point can leave of the store. -/
inductive Touch (now : Nat) (store : Store Mac) (cl : Client Mac) : Store Mac → Prop
  | nothing : Touch now store cl store
  | record {code : String} {fresh : Record Mac} (at_point : cl.point = .issuePut code fresh) :
      Touch now store cl
        (store.put (recordKey (cl.scope h)) (.record fresh) (now + max c.ttl c.cooldown))
  | failure {r : Record Mac} {remaining : Nat} (at_point : cl.point = .countFailure r remaining) :
      Touch now store cl
        (store.increment now (failureKey (cl.scope h)) 1 (now + c.failureWindow)).2
  | attempt {r : Record Mac} {remaining window : Nat}
      (at_point : cl.point = .countAttempt r remaining window) :
      Touch now store cl
        (store.increment now (attemptKey (cl.scope h) r.nonce) 1 (now + remaining)).2
  | giveBack {r : Record Mac} {remaining window : Nat}
      (at_point : cl.point = .giveBack r remaining window) :
      Touch now store cl
        (store.increment now (failureKey (cl.scope h)) (-1) (now + c.failureWindow)).2
  | spend {r : Record Mac} {remaining : Nat} (at_point : cl.point = .burn r remaining) :
      Touch now store cl
        (store.add now (spentKey (cl.scope h) r.nonce) (.number 1) (now + remaining)).2
  | remove {r : Record Mac} (at_point : cl.point = .housekeep r) :
      Touch now store cl (store.forget (recordKey (cl.scope h)))

variable {c h} {now : Nat} {store : Store Mac} {cl : Client Mac}

namespace Touch

variable {after : Store Mac}

variable (t : Touch c h now store cl after)
include t

/-- A record is written by the `Issue` that made it, and removed by a `Consume` that has spent a
code. -/
theorem recordKey_cases (p sub : String) :
    after (recordKey (h.scope p sub)) = store (recordKey (h.scope p sub))
      ∨ (∃ code fresh, cl.point = .issuePut code fresh ∧ cl.scope h = h.scope p sub
          ∧ after (recordKey (h.scope p sub))
            = some ⟨.record fresh, now + max c.ttl c.cooldown⟩)
      ∨ (∃ r, cl.point = .housekeep r ∧ cl.scope h = h.scope p sub
          ∧ after (recordKey (h.scope p sub)) = none) := by
  cases t with
  | nothing => exact .inl rfl
  | @record code fresh at_point =>
    by_cases hk : cl.scope h = h.scope p sub
    · exact .inr (.inl ⟨code, fresh, at_point, hk, by rw [hk, Table.put_self]⟩)
    · exact .inl (Table.put_of_ne _ _ _ fun e => hk (recordKey_inj e).symm)
  | failure _ | giveBack _ => exact .inl (Table.increment_of_ne _ _ _ _ recordKey_ne_failureKey)
  | attempt _ => exact .inl (Table.increment_of_ne _ _ _ _ recordKey_ne_attemptKey)
  | spend _ => exact .inl (Table.add_of_ne _ _ _ _ recordKey_ne_spentKey)
  | @remove r at_point =>
    by_cases hk : cl.scope h = h.scope p sub
    · exact .inr (.inr ⟨r, at_point, hk, by rw [hk, Table.forget_self]⟩)
    · exact .inl (Table.forget_of_ne _ fun e => hk (recordKey_inj e).symm)

/-- A spent marker is written by the `Consume` that spends the code, if it is free. -/
theorem spentKey_cases (p sub n : String) :
    after (spentKey (h.scope p sub) n) = store (spentKey (h.scope p sub) n)
      ∨ ∃ r remaining, cl.point = .burn r remaining ∧ cl.scope h = h.scope p sub ∧ r.nonce = n
          ∧ store.live now (spentKey (h.scope p sub) n) = none := by
  cases t with
  | nothing => exact .inl rfl
  | record _ => exact .inl (Table.put_of_ne _ _ _ recordKey_ne_spentKey.symm)
  | failure _ | giveBack _ => exact .inl (Table.increment_of_ne _ _ _ _ failureKey_ne_spentKey.symm)
  | attempt _ => exact .inl (Table.increment_of_ne _ _ _ _ attemptKey_ne_spentKey.symm)
  | @spend r remaining at_point =>
    by_cases hk : spentKey (h.scope p sub) n = spentKey (cl.scope h) r.nonce
    · obtain ⟨hscope, hn⟩ := spentKey_inj (h.colon_notMem_scope _ _) (h.colon_notMem_scope _ _) hk
      unfold Table.add
      rw [hk]
      match hl : store.live now (spentKey (cl.scope h) r.nonce) with
      | some _ => exact .inl rfl
      | none => exact .inr ⟨r, remaining, at_point, hscope.symm, hn.symm, rfl⟩
    · exact .inl (Table.add_of_ne _ _ _ _ hk)
  | remove _ => exact .inl (Table.forget_of_ne _ recordKey_ne_spentKey.symm)

/-- An attempt counter is written by the `Consume` that counts an attempt on its code. -/
theorem attemptKey_cases (p sub n : String) :
    after (attemptKey (h.scope p sub) n) = store (attemptKey (h.scope p sub) n)
      ∨ ∃ r remaining window, cl.point = .countAttempt r remaining window
          ∧ cl.scope h = h.scope p sub ∧ r.nonce = n
          ∧ after = (store.increment now (attemptKey (h.scope p sub) n) 1 (now + remaining)).2 := by
  cases t with
  | nothing => exact .inl rfl
  | record _ => exact .inl (Table.put_of_ne _ _ _ recordKey_ne_attemptKey.symm)
  | failure _ | giveBack _ => exact .inl (Table.increment_of_ne _ _ _ _ failureKey_ne_attemptKey.symm)
  | @attempt r remaining window at_point =>
    by_cases hk : attemptKey (h.scope p sub) n = attemptKey (cl.scope h) r.nonce
    · obtain ⟨hscope, hn⟩ := attemptKey_inj (h.colon_notMem_scope _ _) (h.colon_notMem_scope _ _) hk
      exact .inr ⟨r, remaining, window, at_point, hscope.symm, hn.symm, by rw [hk]⟩
    · exact .inl (Table.increment_of_ne _ _ _ _ hk)
  | spend _ => exact .inl (Table.add_of_ne _ _ _ _ attemptKey_ne_spentKey)
  | remove _ => exact .inl (Table.forget_of_ne _ recordKey_ne_attemptKey.symm)

/-- A failure counter is written by a `Consume` that counts a failure or takes one back. -/
theorem failureKey_cases (p sub : String) :
    after (failureKey (h.scope p sub)) = store (failureKey (h.scope p sub))
      ∨ (∃ r remaining, cl.point = .countFailure r remaining ∧ cl.scope h = h.scope p sub
          ∧ after = (store.increment now (failureKey (h.scope p sub)) 1 (now + c.failureWindow)).2)
      ∨ (∃ r remaining window, cl.point = .giveBack r remaining window ∧ cl.scope h = h.scope p sub
          ∧ after
            = (store.increment now (failureKey (h.scope p sub)) (-1) (now + c.failureWindow)).2) := by
  cases t with
  | nothing => exact .inl rfl
  | record _ => exact .inl (Table.put_of_ne _ _ _ recordKey_ne_failureKey.symm)
  | @failure r remaining at_point =>
    by_cases hk : cl.scope h = h.scope p sub
    · exact .inr (.inl ⟨r, remaining, at_point, hk, by rw [hk]⟩)
    · exact .inl (Table.increment_of_ne _ _ _ _ fun e => hk (failureKey_inj e).symm)
  | attempt _ => exact .inl (Table.increment_of_ne _ _ _ _ failureKey_ne_attemptKey)
  | @giveBack r remaining window at_point =>
    by_cases hk : cl.scope h = h.scope p sub
    · exact .inr (.inr ⟨r, remaining, window, at_point, hk, by rw [hk]⟩)
    · exact .inl (Table.increment_of_ne _ _ _ _ fun e => hk (failureKey_inj e).symm)
  | spend _ => exact .inl (Table.add_of_ne _ _ _ _ failureKey_ne_spentKey)
  | remove _ => exact .inl (Table.forget_of_ne _ recordKey_ne_failureKey.symm)

end Touch

end Touch

section Moves

variable [DecidableEq Mac] (c : Codes) (h : Hashing Mac)

/-- **Everything an operation of a client can do**: the client and the store after it. -/
inductive Moves (now : Nat) (store : Store Mac) (fault : Fault) (draw : Option Draw) (cl : Client Mac) :
    Client Mac → Store Mac → Prop
  | idle {a : Answer Mac} (at_point : cl.point = .done a) : Moves now store fault draw cl cl store
  | refuse (e : Err) {after : Store Mac} (running : ∀ a, cl.point ≠ .done a)
      (touch : Touch c h now store cl after) :
      Moves now store fault draw cl (cl.refuse e) after
  | draw {start : Nat} (d : Draw) (at_point : cl.point = .issueGet start) (drawn : draw = some d) :
      Moves now store fault draw cl (cl.generate c h start (some d)) store
  | write {code : String} {fresh : Record Mac} (at_point : cl.point = .issuePut code fresh) :
      Moves now store fault draw cl (cl.goTo (.done (.issued code fresh)))
        (store.put (recordKey (cl.scope h)) (.record fresh) (now + max c.ttl c.cooldown))
  | read {r : Record Mac} (at_point : cl.point = .consumeGet)
      (found : store.get now (recordKey (cl.scope h)) = some (.record r)) :
      Moves now store fault draw cl (cl.goTo (.consumeClock r)) store
  | clock {r : Record Mac} (at_point : cl.point = .consumeClock r) (early : now < r.deadline) :
      Moves now store fault draw cl (cl.goTo (.countFailure r (r.deadline - now))) store
  | failure {r : Record Mac} {remaining : Nat} {failures : Int} {after : Store Mac}
      (at_point : cl.point = .countFailure r remaining)
      (sound : fault = .none)
      (counted : store.increment now (failureKey (cl.scope h)) 1 (now + c.failureWindow)
        = (some failures, after))
      (within : failures ≤ c.maxFailures) :
      Moves now store fault draw cl (cl.goTo (.countAttempt r remaining
        ((cl.failureDeadline h now after).getD now))) after
  | attempt {r : Record Mac} {remaining window : Nat} {attempts : Int} {after : Store Mac}
      (at_point : cl.point = .countAttempt r remaining window)
      (sound : fault = .none)
      (counted : store.increment now (attemptKey (cl.scope h) r.nonce) 1 (now + remaining)
        = (some attempts, after))
      (within : attempts ≤ c.maxAttempts) :
      Moves now store fault draw cl
        (cl.compare h r remaining window (cl.failureDeadline h now after)) after
  | giveBack {r : Record Mac} {remaining window : Nat} {after : Store Mac}
      (at_point : cl.point = .giveBack r remaining window)
      (touch : Touch c h now store cl after) :
      Moves now store fault draw cl (cl.goTo (.burn r remaining)) after
  | burn {r : Record Mac} {remaining : Nat} (at_point : cl.point = .burn r remaining)
      (free : store.live now (spentKey (cl.scope h) r.nonce) = none) :
      Moves now store fault draw cl (cl.goTo (.housekeep r))
        (store.put (spentKey (cl.scope h) r.nonce) (.number 1) (now + remaining))
  | housekeep {r : Record Mac} {after : Store Mac} (at_point : cl.point = .housekeep r)
      (touch : Touch c h now store cl after) :
      Moves now store fault draw cl (cl.goTo (.done (.spent r now))) after

variable {c h} {now : Nat} {store : Store Mac} {fault : Fault} {draw : Option Draw} {cl : Client Mac}

theorem Client.generate_moves {start : Nat} (hp : cl.point = .issueGet start) :
    Moves c h now store fault draw cl (cl.generate c h start draw) store := by
  cases draw with
  | none => exact .refuse _ (by simp [hp]) .nothing
  | some d => exact .draw d hp rfl

theorem Client.readOutstanding_moves {start : Nat} (hp : cl.point = .issueGet start) :
    Moves c h now store fault draw cl (cl.readOutstanding c h now store fault start draw).1
      (cl.readOutstanding c h now store fault start draw).2 := by
  unfold readOutstanding
  cases fault with
  | none =>
    dsimp only [Fault.through]
    match store.get now (recordKey (cl.scope h)) with
    | none => exact cl.generate_moves hp
    | some (.number _) => exact cl.generate_moves hp
    | some (.record previous) =>
      dsimp only
      split
      · exact .refuse _ (by simp [hp]) .nothing
      · exact cl.generate_moves hp
  | before | after => exact .refuse _ (by simp [hp]) .nothing

theorem Client.writeRecord_moves {code : String} {fresh : Record Mac}
    (hp : cl.point = .issuePut code fresh) :
    Moves c h now store fault draw cl (cl.writeRecord c h now store fault code fresh).1
      (cl.writeRecord c h now store fault code fresh).2 := by
  cases fault with
  | none => exact .write hp
  | before => exact .refuse _ (by simp [hp]) .nothing
  | after => exact .refuse _ (by simp [hp]) (.record hp)

theorem Client.readRecord_moves (hp : cl.point = .consumeGet) :
    Moves c h now store fault draw cl (cl.readRecord h now store fault).1
      (cl.readRecord h now store fault).2 := by
  unfold readRecord
  cases fault with
  | none =>
    dsimp only [Fault.through]
    match hg : store.get now (recordKey (cl.scope h)) with
    | none => exact .refuse _ (by simp [hp]) .nothing
    | some (.number _) => exact .refuse _ (by simp [hp]) .nothing
    | some (.record r) => exact .read hp hg
  | before | after => exact .refuse _ (by simp [hp]) .nothing

variable {r : Record Mac} {remaining : Nat}

theorem Client.countFailure_moves
    (hp : cl.point = .countFailure r remaining) :
    Moves c h now store fault draw cl (cl.countFailure c h now store fault r remaining).1
      (cl.countFailure c h now store fault r remaining).2 := by
  have htouch : Touch c h now store cl _ := .failure hp
  unfold countFailure
  cases fault with
  | none =>
    dsimp only [Fault.through]
    generalize hi : store.increment now (failureKey (cl.scope h)) 1 (now + c.failureWindow) = counted at htouch ⊢
    obtain ⟨_ | _, after⟩ := counted
    · exact .refuse _ (by simp [hp]) htouch
    · dsimp only
      split
      · exact .refuse _ (by simp [hp]) htouch
      · next hn => exact .failure hp rfl hi (by omega)
  | before => exact .refuse _ (by simp [hp]) .nothing
  | after => exact .refuse _ (by simp [hp]) htouch

theorem Client.countAttempt_moves {window : Nat}
    (hp : cl.point = .countAttempt r remaining window) :
    Moves c h now store fault draw cl (cl.countAttempt c h now store fault r remaining window).1
      (cl.countAttempt c h now store fault r remaining window).2 := by
  have htouch : Touch c h now store cl _ := .attempt hp
  unfold countAttempt
  cases fault with
  | none =>
    dsimp only [Fault.through]
    generalize hi : store.increment now (attemptKey (cl.scope h) r.nonce) 1 (now + remaining) = counted at htouch ⊢
    obtain ⟨_ | _, after⟩ := counted
    · exact .refuse _ (by simp [hp]) htouch
    · dsimp only
      split
      · exact .refuse _ (by simp [hp]) htouch
      · next hn => exact .attempt hp rfl hi (by omega)
  | before => exact .refuse _ (by simp [hp]) .nothing
  | after => exact .refuse _ (by simp [hp]) htouch

theorem Client.burn_moves (hp : cl.point = .burn r remaining) :
    Moves c h now store fault draw cl (cl.burn h now store fault r remaining).1
      (cl.burn h now store fault r remaining).2 := by
  unfold burn
  cases fault with
  | none =>
    dsimp only [Fault.through]
    unfold Table.add
    match hl : store.live now (spentKey (cl.scope h) r.nonce) with
    | none => exact .burn hp hl
    | some _ => exact .refuse _ (by simp [hp]) .nothing
  | before => exact .refuse _ (by simp [hp]) .nothing
  | after => exact .refuse _ (by simp [hp]) (.spend hp)

/-- **A client's operation is one of the moves.** -/
theorem Client.next_moves (cl : Client Mac) :
    Moves c h now store fault draw cl (cl.next c h now store fault draw).1
      (cl.next c h now store fault draw).2 := by
  unfold next
  match hp : cl.point with
  | .issueGet start => exact cl.readOutstanding_moves hp
  | .issuePut code fresh => exact cl.writeRecord_moves hp
  | .consumeGet => exact cl.readRecord_moves hp
  | .consumeClock r =>
    show Moves c h now store fault draw cl (cl.readClock now r) store
    unfold readClock
    split
    · exact .refuse _ (by simp [hp]) .nothing
    · exact .clock hp (by omega)
  | .countFailure r remaining => exact cl.countFailure_moves hp
  | .countAttempt r remaining window => exact cl.countAttempt_moves hp
  | .giveBack r remaining window =>
    refine .giveBack hp ?_
    cases fault with
    | before => exact .nothing
    | none | after => exact .giveBack hp
  | .burn r remaining => exact cl.burn_moves hp
  | .housekeep r =>
    refine .housekeep hp ?_
    cases fault with
    | before => exact .nothing
    | none | after => exact .remove hp
  | .done a => exact .idle hp

namespace Moves

variable {cl' : Client Mac} {after : Store Mac}

variable (m : Moves c h now store fault draw cl cl' after)
include m

theorem touch : Touch c h now store cl after := by
  cases m with
  | idle | draw | read | clock => exact .nothing
  | refuse e _ touch | giveBack _ touch | housekeep _ touch => exact touch
  | write at_point => exact .record at_point
  | failure at_point _ counted _ =>
    have hafter : Touch c h now store cl _ := .failure at_point
    rwa [counted] at hafter
  | attempt at_point _ counted _ =>
    have hafter : Touch c h now store cl _ := .attempt at_point
    rwa [counted] at hafter
  | burn at_point free =>
    have hafter : Touch c h now store cl _ := .spend at_point
    rwa [Table.add, free] at hafter

theorem call_eq : cl'.call = cl.call := by
  cases m <;> rfl

/-- Only a draw makes a record, and no record is forgotten. -/
theorem drawn_cases :
    cl'.drawn = cl.drawn ∨ ∃ start d, cl.point = .issueGet start ∧ draw = some d
      ∧ cl'.drawn = some (d.code, freshRecord c h cl.call.purpose cl.call.subject start d) := by
  cases m with
  | draw d at_point drawn => exact .inr ⟨_, d, at_point, drawn, rfl⟩
  | _ => exact .inl rfl

/-- Only the attempt that was counted compares. -/
theorem compared_cases :
    cl'.compared = cl.compared ∨ ∃ r remaining window attempts,
      cl.point = .countAttempt r remaining window ∧ fault = .none
      ∧ store.increment now (attemptKey (cl.scope h) r.nonce) 1 (now + remaining)
        = (some attempts, after)
      ∧ attempts ≤ c.maxAttempts
      ∧ cl' = cl.compare h r remaining window (cl.failureDeadline h now after) := by
  cases m with
  | attempt at_point sound counted within =>
    exact .inr ⟨_, _, _, _, at_point, sound, counted, within, rfl⟩
  | _ => exact .inl rfl

end Moves

/-! ### Steps -/

/-- **What a step can do.** -/
inductive Taken (c : Codes) (h : Hashing Mac) (s : State Mac) : Action → State Mac → Prop
  | tick (d : Nat) : Taken c h s (.tick d) { s with now := s.now + d }
  | call (call : Call) : Taken c h s (.call call) { s with clients := s.clients ++ [call.start s.now] }
  | go {i : Nat} {fault : Fault} {draw : Option Draw} {cl cl' : Client Mac} {after : Store Mac}
      (at_client : s.clients[i]? = some cl) (drawable : s.drawable draw = true)
      (moves : Moves c h s.now s.store fault draw cl cl' after) :
      Taken c h s (.go i fault draw) ⟨s.now, after, s.clients.set i cl'⟩

theorem step_taken {s s' : State Mac} {a : Action} (hs : step c h s a = some s') : Taken c h s a s' := by
  cases a with
  | tick d =>
    cases hs
    exact .tick d
  | call call =>
    cases hs
    exact .call call
  | go i =>
    dsimp only [step] at hs
    match hi : s.clients[i]? with
    | none =>
      rw [hi] at hs
      cases hs
    | some cl =>
      rw [hi] at hs
      dsimp only at hs
      split at hs
      · next hd =>
        cases hs
        exact .go hi hd cl.next_moves
      · cases hs

end Moves

end Hesape.Onetime
