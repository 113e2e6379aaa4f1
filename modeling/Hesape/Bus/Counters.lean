import Hesape.Bus.Batch

/-!
# The counters of a batch in a table

Memory changes the counters of a batch under a lock.  To record a report, the database repository
reads the row, decides, and writes the counters and the failed ids where the two counters still are
what it read; otherwise it reads again.  It does not ask whether the failed ids still are what it
read, and a report that leaves both counters as they are is not written.

Any number of workers make these statements one at a time.  In a run in which a write that goes
through finds the ids it read, and a report that is not written would not have changed them, what the
workers have done and were told is what Memory does when they call it one after another
(`refines_of_reach`).
-/

namespace Hesape.Bus.Counters

open Hesape.Run (Reach exists_reach)

variable {σ : Type}

inductive Op
  | report (r : Report)
  | incrementTotalJobs (amount : Int)
  | markAsFinished
  | cancel
  deriving DecidableEq

def record (b : Batch σ) : Report → Batch σ
  | ⟨jobID, true⟩ => b.decrementPendingJobs jobID
  | ⟨jobID, false⟩ => b.incrementFailedJobs jobID

/-- What Memory does to the batch.  But for a report, it is also what the one `UPDATE` of the
repository does to the row. -/
def Op.apply (b : Batch σ) : Op → Batch σ
  | .report r => record b r
  | .incrementTotalJobs amount =>
    if amount ≤ 0 then b
    else
      { b with
        totalJobs := b.totalJobs + amount.toNat, pendingJobs := b.pendingJobs + amount, finished := false }
  | .markAsFinished => b.perform .markAsFinished
  | .cancel => if b.cancelled then b else b.perform .cancel

def counts (b : Batch σ) : Int × Int := (b.pendingJobs, b.failedJobs)

def Op.answer (after : Batch σ) : Op → Option (Int × Int)
  | .report _ => some (counts after)
  | _ => none

def recordAttempts : Nat := 10

/-- Where a call is: before a read, with how often it has lost and what its last read found; before the
write that follows a read; answered; or stopped by an error. -/
inductive Point (σ : Type)
  | find (stalled : Nat) (last : Int × Int)
  | write (stalled : Nat) (before : Batch σ)
  | done (answer : Option (Int × Int))
  | failed
  deriving DecidableEq

structure Call (σ : Type) where
  op : Op
  point : Point σ
  deriving DecidableEq

structure State (σ : Type) where
  row : Batch σ
  calls : List (Call σ)

def State.initial (first : Batch σ) (ops : List Op) : State σ := ⟨first, ops.map (⟨·, .find 0 (-1, -1)⟩)⟩

/-- A call makes its next statement, or meets an error (its context may have ended). -/
inductive Action
  | go (i : Nat)
  | err (i : Nat)

def State.goto (s : State σ) (i : Nat) (row : Batch σ) (op : Op) (point : Point σ) : State σ :=
  ⟨row, s.calls.set i ⟨op, point⟩⟩

def State.statement (s : State σ) (i : Nat) : Call σ → Option (State σ)
  | ⟨.report r, .find stalled last⟩ =>
    let after := record s.row r
    if counts after = counts s.row then s.goto i s.row (.report r) (.done (counts after))
    else s.goto i s.row (.report r) (.write (if counts s.row = last then stalled else 0) s.row)
  | ⟨.report r, .write stalled before⟩ =>
    let after := record before r
    if counts s.row = counts before then
      let row := { s.row with
        pendingJobs := after.pendingJobs, failedJobs := after.failedJobs, failedJobIDs := after.failedJobIDs }
      s.goto i row (.report r) (.done (counts after))
    else if recordAttempts ≤ stalled + 1 then s.goto i s.row (.report r) .failed
    else s.goto i s.row (.report r) (.find (stalled + 1) (counts before))
  | ⟨op, .find ..⟩ => s.goto i (op.apply s.row) op (.done none)
  | _ => none

def step (s : State σ) : Action → Option (State σ)
  | .go i => s.calls[i]?.bind (s.statement i)
  | .err i =>
    match s.calls[i]? with
    | some ⟨op, .find ..⟩ | some ⟨op, .write ..⟩ => some (s.goto i s.row op .failed)
    | _ => none

/-- A write that goes through finds the failed ids it read, and a report that is not written leaves
them as they are. -/
def steady (s : State σ) : Action → Bool
  | .go i =>
    match s.calls[i]? with
    | some ⟨.report r, .find ..⟩ =>
      counts (record s.row r) ≠ counts s.row || (record s.row r).failedJobIDs = s.row.failedJobIDs
    | some ⟨_, .write _ before⟩ => counts s.row ≠ counts before || s.row.failedJobIDs = before.failedJobIDs
    | _ => true
  | _ => true

/-- The call `i` is done. -/
def Answered (calls : List (Call σ)) (i : Nat) (op : Op) (answer : Option (Int × Int)) : Prop :=
  calls[i]? = some ⟨op, .done answer⟩

/-- Memory is called in the order given and is left with the batch, having answered each of the calls
as the repository did. -/
inductive Sequential (first : Batch σ) (calls : List (Call σ)) : List Nat → Batch σ → Prop
  | nil : Sequential first calls [] first
  | snoc {order : List Nat} {b : Batch σ} {i : Nat} {op : Op} (prior : Sequential first calls order b)
      (told : Answered calls i op (op.answer (op.apply b))) : Sequential first calls (order ++ [i]) (op.apply b)

/-- An order of the calls that are done, each of them once, in which Memory is left with `b`. -/
structure Order (first : Batch σ) (calls : List (Call σ)) (order : List Nat) (b : Batch σ) : Prop where
  sequential : Sequential first calls order b
  once : order.Nodup
  done : ∀ i, i ∈ order ↔ ∃ op answer, Answered calls i op answer

/-- **The table refines Memory.**  In some order of the calls that are done, Memory gives the answers
they were given and counts what the row counts. -/
def State.Refines (first : Batch σ) (s : State σ) : Prop :=
  ∃ order b, Order first s.calls order b ∧ b.totalJobs = s.row.totalJobs ∧ counts b = counts s.row ∧
    ∀ j, j ∈ b.failedJobIDs ↔ j ∈ s.row.failedJobIDs

/-- A report changes the counters and the failed ids only, and reads nothing else. -/
theorem record_eq {b row : Batch σ} {r : Report} (hc : counts row = counts b)
    (hids : row.failedJobIDs = b.failedJobIDs) :
    { row with
      pendingJobs := (record b r).pendingJobs
      failedJobs := (record b r).failedJobs
      failedJobIDs := (record b r).failedJobIDs } = record row r := by
  obtain ⟨hp, hf⟩ := Prod.mk.inj hc
  obtain ⟨j, _ | _⟩ := r
  · by_cases hj : j = "" <;> simp [record, Batch.incrementFailedJobs, hj, hp, hf, hids]
  · simp only [record, Batch.decrementPendingJobs, hp, hids]

/-! ### Runs -/

section Runs

variable {first b : Batch σ} {calls : List (Call σ)} {order : List Nat}

theorem Sequential.mono {calls' : List (Call σ)} (h : Sequential first calls order b)
    (hkeep : ∀ i op answer, Answered calls i op answer → Answered calls' i op answer) :
    Sequential first calls' order b := by
  induction h with
  | nil => exact .nil
  | snoc _ told ih => exact .snoc ih (hkeep _ _ _ told)

/-- What is kept when the call `i`, which is not done, moves. -/
theorem Order.keep {i : Nat} {c : Call σ} (h : Order first calls order b) (hi : i ∉ order) :
    Sequential first (calls.set i c) order b ∧ ∀ j, j ≠ i →
      (j ∈ order ↔ ∃ op answer, Answered (calls.set i c) j op answer) := by
  have hsame : ∀ j, j ≠ i → (calls.set i c)[j]? = calls[j]? := fun j hj => List.getElem?_set_ne (Ne.symm hj)
  refine ⟨h.sequential.mono fun j op answer hj => ?_, fun j hj => ?_⟩
  · have hne : j ≠ i := by
      rintro rfl
      exact hi ((h.done _).mpr ⟨op, answer, hj⟩)
    exact (hsame j hne).trans hj
  · simp only [h.done, Answered, hsame j hj]

/-- In some order, Memory is left with the row. -/
def Ordered (first : Batch σ) (s : State σ) : Prop := ∃ order, Order first s.calls order s.row

variable {s : State σ} {i : Nat} {op : Op} {point : Point σ} (h : Ordered first s)
  (hopen : ¬ ∃ op answer, Answered s.calls i op answer)
include h hopen

theorem Ordered.move (hpoint : ∀ answer, point ≠ .done answer) : Ordered first (s.goto i s.row op point) := by
  obtain ⟨order, h⟩ := h
  have hi := mt (h.done i).mp hopen
  obtain ⟨hseq, hdone⟩ := h.keep (c := ⟨op, point⟩) hi
  refine ⟨order, hseq, h.once, fun j => ?_⟩
  by_cases hj : j = i
  · subst hj
    simp [hi, Answered, State.goto, List.getElem?_set, hpoint]
  · exact hdone j hj

/-- A call takes effect on the row and is answered. -/
theorem Ordered.answer (op : Op) (hlt : i < s.calls.length) :
    Ordered first (s.goto i (op.apply s.row) op (.done (op.answer (op.apply s.row)))) := by
  obtain ⟨order, h⟩ := h
  have hi := mt (h.done i).mp hopen
  obtain ⟨hseq, hdone⟩ := h.keep hi
  refine ⟨order ++ [i], .snoc hseq (List.getElem?_set_self hlt), ?_, fun j => ?_⟩
  · simpa [List.nodup_append, h.once] using fun j hj => ne_of_mem_of_not_mem hj hi
  · by_cases hj : j = i
    · subst hj
      simp [Answered, State.goto, hlt]
    · simpa [hj, State.goto] using hdone j hj

omit h hopen

/-- **One statement keeps the order.** -/
theorem Ordered.step {u : State σ} {a : Action} (h : Ordered first s) (hok : steady s a)
    (hs : step s a = some u) : Ordered first u := by
  cases a with
  | err =>
    dsimp only [Counters.step] at hs
    split at hs <;> cases hs
    all_goals
      next hi => exact h.move (by simp [Answered, hi]) nofun
  | go =>
    obtain ⟨⟨op, point⟩, hi, hs⟩ := Option.bind_eq_some_iff.mp hs
    have hlt := (List.getElem?_eq_some_iff.mp hi).1
    rw [steady, hi] at hok
    cases point with
    | done | failed => cases op <;> cases hs
    | find =>
      have hanswer := h.answer (by simp [Answered, hi]) op hlt
      cases op with
      | report r =>
        dsimp only [State.statement] at hs
        split at hs
        · next hc =>
          cases hs
          have hids : (record s.row r).failedJobIDs = s.row.failedJobIDs := by simpa [hc] using hok
          have hidle : s.row = record s.row r := by
            simpa only [(Prod.mk.inj hc).1, (Prod.mk.inj hc).2, hids] using record_eq (r := r) (rfl : counts s.row = _) rfl
          rw [Op.apply, ← hidle] at hanswer
          rwa [hc]
        · cases hs
          exact h.move (by simp [Answered, hi]) nofun
      | _ =>
        cases hs
        exact hanswer
    | write =>
      cases op with
      | report r =>
        dsimp only [State.statement] at hs
        split at hs
        · next hc =>
          cases hs
          have heq := record_eq (r := r) hc (by simpa [hc] using hok)
          have hanswer := h.answer (by simp [Answered, hi]) (.report r) hlt
          rwa [Op.apply, ← heq] at hanswer
        · split at hs <;> cases hs <;> exact h.move (by simp [Answered, hi]) nofun
      | _ => cases hs

end Runs

/-- **What the workers did and were told is what Memory does.** -/
theorem refines_of_reach (first : Batch σ) (ops : List Op) (t : State σ)
    (h : Reach step steady (State.initial first ops) t) : t.Refines first := by
  have hfirst : Ordered first (State.initial first ops) := by
    refine ⟨[], .nil, List.nodup_nil, ?_⟩
    simp [Answered, State.initial]
  obtain ⟨order, horder⟩ := h.invariant hfirst fun _ _ _ h hok hs => h.step hok hs
  exact ⟨order, t.row, horder, rfl, rfl, fun _ => .rfl⟩

def workers : State Unit :=
  .initial (.store 3 {})
    [.report ⟨"x", false⟩, .report ⟨"y", false⟩, .report ⟨"x", true⟩, .incrementTotalJobs 1, .report ⟨"z", false⟩]

/-- `z` fails between the read and the write of `y`, which reads again. -/
theorem refines_after_retry : ∃ t : State Unit, t.row.failedJobIDs = ["y", "z"] ∧ t.Refines (.store 3 {}) := by
  have hrun : ∃ t, Reach step steady workers t ∧ t.row.failedJobIDs = ["y", "z"] :=
    exists_reach [.go 1, .go 4, .go 4, .go 1, .go 1, .go 1] (by decide +kernel)
  obtain ⟨t, hreach, hids⟩ := hrun
  exact ⟨t, hids, refines_of_reach _ _ t hreach⟩

theorem mem_withFailure {ids : List String} {j k : String} (hk : k ≠ "") :
    j ∈ withFailure ids k ↔ j ∈ ids ∨ j = k := by
  unfold withFailure
  split
  · next h => exact (or_iff_left_of_imp fun hj => hj ▸ h.resolve_left hk).symm
  · rw [List.mem_insertionSort, List.mem_append, List.mem_singleton]

/-- A failure stays on record through every operation but the success of its job. -/
theorem Op.mem_failed_apply {b : Batch σ} {op : Op} {j : String} (hop : op ≠ .report ⟨j, true⟩)
    (h : j ∈ b.failedJobIDs) : j ∈ (op.apply b).failedJobIDs := by
  cases op with
  | report r =>
    obtain ⟨k, _ | _⟩ := r
    · show j ∈ (b.incrementFailedJobs k).failedJobIDs
      unfold Batch.incrementFailedJobs
      split
      · exact h
      · next hk => exact (mem_withFailure hk).mpr (.inl h)
    · show j ∈ withoutFailure b.failedJobIDs k
      have hne : j ≠ k := by
        rintro rfl
        exact hop rfl
      unfold withoutFailure
      split
      · exact h
      · exact List.mem_filter.mpr ⟨h, by simpa using hne⟩
  | incrementTotalJobs | cancel => rw [Op.apply]; split <;> exact h
  | markAsFinished => exact h

/-- A failure is on record until its job succeeds. -/
theorem Sequential.mem_failed {first b : Batch σ} {calls : List (Call σ)} {order : List Nat} {j : String} {i : Nat}
    {point : Point σ} (h : Sequential first calls order b) (hj : j ≠ "")
    (hi : calls[i]? = some ⟨.report ⟨j, false⟩, point⟩) (hfail : ∀ c ∈ calls, c.op ≠ .report ⟨j, true⟩)
    (hmem : i ∈ order) : j ∈ b.failedJobIDs := by
  induction h with
  | nil => cases hmem
  | @snoc _ b k op _ told ih =>
    rcases (List.mem_append.mp hmem).imp_right List.mem_singleton.mp with hmem | rfl
    · exact Op.mem_failed_apply (hfail _ (List.mem_of_getElem? told)) (ih hmem)
    · cases hi.symm.trans told
      show j ∈ (b.incrementFailedJobs j).failedJobIDs
      rw [Batch.incrementFailedJobs, if_neg hj]
      exact (mem_withFailure hj).mpr (.inr rfl)

/-- The write of `y` goes through on the counters it read, and `z` is no longer on record: `x` has
succeeded, a job was added, and `z` has failed in between. -/
theorem failure_lost : ∃ t, Reach step (fun _ _ => true) workers t ∧ ¬ t.Refines (.store 3 {}) := by
  have hrun : ∃ t, Reach step (fun _ _ => true) workers t ∧
      t.calls[4]? = some ⟨.report ⟨"z", false⟩, .done (some (3, 1))⟩ ∧
      (∀ c ∈ t.calls, c.op ≠ .report ⟨"z", true⟩) ∧ "z" ∉ t.row.failedJobIDs :=
    exists_reach [.go 0, .go 0, .go 1, .go 2, .go 2, .go 3, .go 4, .go 4, .go 1] (by decide +kernel)
  obtain ⟨t, hreach, hz, hfail, hids⟩ := hrun
  refine ⟨t, hreach, ?_⟩
  rintro ⟨_, b, h, -, -, hsame⟩
  exact hids ((hsame "z").mp (h.sequential.mem_failed (by decide) hz hfail ((h.done 4).mpr ⟨_, _, hz⟩)))

end Hesape.Bus.Counters
