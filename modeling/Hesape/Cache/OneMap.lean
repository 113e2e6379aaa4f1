import Hesape.Cache.Stores

/-!
# Three stores, one map

Each store is read as a table of entries (`FileStore.view`, `DatabaseStore.view`), and a call on
the store answers what `answer` says of the view and leaves a view with the same live entries.
A store removes what it finds expired and the map does not, so the two are compared by
`Table.Agree`; since that lasts as the clock goes on, a whole run gives the answers of the map
(`run_refines`).

Deadlines are kept to the millisecond in a file or a row.  The conditions `FileStore.fits` and
`DatabaseStore.Fits` are where a store does not do something else than the map: a forgotten key takes
its companion along, a header holds no deadline past its last second, one dialect takes no statement
that names the column `key`, another no long key, and a third has no escape in `LIKE`, which ignores
case there, and finds no text where bytes are looked for.
-/

namespace Hesape.Cache.Stores

open Hesape.Text (hasPrefix escaped special like_escaped like_plain)
open Table (Agree)
open Option

/-- Down to the millisecond. -/
def floorMilli (t : Nat) : Nat := t / nanosPerMilli * nanosPerMilli

/-! ### The map does not see what has expired -/

theorem answer_agree (round : Nat → Nat) (now : Nat) (call : Call) {t u : Table String}
    (h : Agree now t u) :
    (answer round now call t).1 = (answer round now call u).1
      ∧ Agree now (answer round now call t).2 (answer round now call u).2 := by
  cases call with
  | put key value =>
    simp only [answer]
    split
    · exact ⟨rfl, h⟩
    · exact ⟨rfl, h.put key value _⟩
  | add key value =>
    simp only [answer, Table.add, h key]
    split
    · exact ⟨rfl, h⟩
    · cases u.live now key with
      | none => exact ⟨rfl, h.put key value _⟩
      | some => exact ⟨rfl, h⟩
  | get key => exact ⟨congrArg Answer.value (h.get key), h⟩
  | many =>
    refine ⟨congrArg Answer.values ?_, h⟩
    exact List.map_congr_left fun key _ => by rw [h.get key]
  | forget key => exact ⟨rfl, h.forget key⟩
  | increment key delta =>
    simp only [answer, Table.increment, h key]
    split
    · exact ⟨rfl, h⟩
    · cases u.live now key with
      | none => exact ⟨rfl, h.put key _ _⟩
      | some e =>
        dsimp only
        cases Counter.bump e.value delta with
        | none => exact ⟨rfl, h⟩
        | some => exact ⟨rfl, h.put key _ _⟩
  | touch key =>
    simp only [answer, Table.touch, h key]
    split
    · exact ⟨rfl, h⟩
    · cases u.live now key with
      | none => exact ⟨rfl, h⟩
      | some => exact ⟨rfl, h.put key _ _⟩
  | flush => exact ⟨rfl, h.drop _⟩

/-! ### Runs -/

section Run

variable {S : Type}

/-- The answers to calls made one after another, each at a time. -/
def run (exec : Nat → Call → S → Answer × S) : List (Nat × Call) → S → List Answer
  | [], _ => []
  | (now, call) :: rest, x => (exec now call x).1 :: run exec rest (exec now call x).2

/-- Every call of a run meets a condition on the time, the call and the store. -/
def Meets (fits : Nat → Call → S → Prop) (exec : Nat → Call → S → Answer × S) : List (Nat × Call) → S → Prop
  | [], _ => True
  | (now, call) :: rest, x => fits now call x ∧ Meets fits exec rest (exec now call x).2

instance {fits : Nat → Call → S → Prop} {exec : Nat → Call → S → Answer × S} [∀ now call x, Decidable (fits now call x)] :
    ∀ calls x, Decidable (Meets fits exec calls x)
  | [], _ => .isTrue trivial
  | (now, call) :: rest, x =>
    @instDecidableAnd _ _ _ (instDecidableMeets rest (exec now call x).2)

/-- The store answers a call as the map does that its view is. -/
def Refines (round : Nat → Nat) (view : S → Table String) (exec : Nat → Call → S → Answer × S)
    (now : Nat) (call : Call) (x : S) : Prop :=
  (exec now call x).1 = (answer round now call (view x)).1
    ∧ Agree now (view (exec now call x).2) (answer round now call (view x)).2

/-- **A store that answers call by call as the map answers whole runs so.** -/
theorem run_refines {round : Nat → Nat} {view : S → Table String} {exec : Nat → Call → S → Answer × S}
    {fits : Nat → Call → S → Prop} (hstep : ∀ now call x, fits now call x → Refines round view exec now call x) :
    ∀ (calls : List (Nat × Call)) (start : Nat) (x : S) (t : Table String),
      Agree start (view x) t → calls.Pairwise (fun a b => a.1 ≤ b.1) → (∀ a ∈ calls, start ≤ a.1) →
      Meets fits exec calls x → run exec calls x = run (answer round) calls t := by
  intro calls
  induction calls with
  | nil => exact fun _ _ _ _ _ _ _ => rfl
  | cons a _ ih =>
    intro start x t hagree hsorted hle hmeets
    obtain ⟨now, call⟩ := a
    obtain ⟨hfirst, hsorted⟩ := List.pairwise_cons.mp hsorted
    obtain ⟨hfits, hmeets⟩ := hmeets
    have hnow : Agree now (view x) t := hagree.later (hle _ List.mem_cons_self)
    obtain ⟨hanswer, hview⟩ := hstep now call x hfits
    obtain ⟨hsame, hafter⟩ := answer_agree round now call hnow
    rw [run, run, hanswer, hsame]
    congr 1
    exact ih now _ _ (hview.trans hafter) hsorted hfirst hmeets

end Run

/-! ### The map in the process -/

namespace ArrayStore

theorem live_eq (t : Table String) (now : Nat) (key : String) :
    ∃ t', live t now key = (t.live now key, t') ∧ Agree now t' t := by
  unfold live
  cases hkey : t key with
  | none => exact ⟨t, by rw [Table.live, hkey]; rfl, Agree.refl now t⟩
  | some e =>
    dsimp only
    by_cases hexp : e.expires ≤ now
    · have hdead : t.live now key = none := by simp [Table.live, hkey, Option.filter, hexp]
      rw [if_pos hexp, hdead]
      exact ⟨_, rfl, Agree.forget_dead hdead⟩
    · rw [if_neg hexp]
      exact ⟨t, by simp [Table.live, hkey, Option.filter, Nat.lt_of_not_le hexp], Agree.refl now t⟩

theorem many_eq (now : Nat) : ∀ (keys : List String) (t : Table String),
    (many keys (fun _ => now) t).1 = keys.map (fun key => (key, t.get now key))
      ∧ Agree now (many keys (fun _ => now) t).2 t := by
  intro keys
  induction keys with
  | nil => exact fun t => ⟨rfl, Agree.refl now t⟩
  | cons key _ ih =>
    intro t
    obtain ⟨t', hread, hlive⟩ := live_eq t now key
    obtain ⟨hrest, hagree⟩ := ih t'
    rw [many, hread]
    refine ⟨?_, hagree.trans hlive⟩
    dsimp only
    rw [hrest, List.map_cons]
    congr 1
    exact List.map_congr_left fun other _ => by rw [hlive.get other]

theorem exec_refines (now : Nat) (call : Call) (t : Table String) :
    Refines id id (fun now => exec fun _ => now) now call t := by
  unfold Refines
  cases call with
  | put =>
    unfold exec answer
    dsimp only
    split <;> exact ⟨rfl, Agree.refl _ _⟩
  | add key value =>
    obtain ⟨t', hread, hlive⟩ := live_eq t now key
    simp only [exec, answer, id, Table.add, hread]
    split
    · exact ⟨rfl, Agree.refl _ _⟩
    · cases t.live now key with
      | none => exact ⟨rfl, hlive.put key value _⟩
      | some => exact ⟨rfl, hlive⟩
  | get key =>
    obtain ⟨t', hread, hlive⟩ := live_eq t now key
    simp only [exec, hread]
    exact ⟨rfl, hlive⟩
  | many keys =>
    obtain ⟨hvalues, hlive⟩ := many_eq now keys t
    exact ⟨congrArg Answer.values hvalues, hlive⟩
  | forget | flush => exact ⟨rfl, Agree.refl _ _⟩
  | increment key delta =>
    obtain ⟨t', hread, hlive⟩ := live_eq t now key
    simp only [exec, answer, id, Table.increment, hread]
    split
    · exact ⟨rfl, Agree.refl _ _⟩
    · cases t.live now key with
      | none => exact ⟨rfl, hlive.put key _ _⟩
      | some e =>
        dsimp only
        cases Counter.bump e.value delta with
        | none => exact ⟨rfl, hlive⟩
        | some => exact ⟨rfl, hlive.put key _ _⟩
  | touch key =>
    obtain ⟨t', hread, hlive⟩ := live_eq t now key
    simp only [exec, answer, id, Table.touch, hread]
    split
    · exact ⟨rfl, Agree.refl _ _⟩
    · cases t.live now key with
      | none => exact ⟨rfl, hlive⟩
      | some => exact ⟨rfl, hlive.put key _ _⟩

end ArrayStore

/-! ### The files -/

namespace FileStore

/-- The entries the files hold. -/
def view (files : Files) : Table String := fun key =>
  match (files key).bind decodeFileEntry with
  | none => none
  | some entry => if entry.key = key then some ⟨entry.value, entry.expires.toNat⟩ else none

theorem view_delete (files : Files) (key : String) : view (delete files key) = (view files).forget key := by
  funext other
  unfold view delete Table.forget
  by_cases h : other = key
  · subst h
    simp
  · simp [Function.update_of_ne h]

variable {key : String}

theorem view_write (files : Files) (hkey : key.length < 16 ^ 8) (value : String) (now : Nat)
    (ttl : Int) :
    view (write files key value now ttl) = (view files).put key value (stamp (now + ttl).toNat) := by
  funext other
  unfold view write Table.put
  by_cases h : other = key
  · subst h
    simp [decode_encode other value _ hkey]
  · simp [Function.update_of_ne h]

/-- Reading a file finds the live entry, and removes what is not one. -/
theorem payload_eq (files : Files) (now : Nat) (key : String) :
    ∃ files', payload files key (fun _ => now)
        = (((view files).live now key).map (fun e => (e.value, (e.expires : Int) - now)), files')
      ∧ Agree now (view files') (view files) := by
  have hdead : (view files).live now key = none →
      Agree now (view (delete files key)) (view files) := by
    intro h
    rw [view_delete]
    exact Agree.forget_dead h
  unfold payload
  cases hfile : files key with
  | none =>
    have hview : (view files).live now key = none := by
      rw [Table.live, view, hfile]
      rfl
    exact ⟨files, by rw [hview]; rfl, Agree.refl _ _⟩
  | some raw =>
    dsimp only
    cases hdecode : decodeFileEntry raw with
    | none =>
      have hview : (view files).live now key = none := by
        rw [Table.live, view, hfile, bind_some, hdecode]
        rfl
      exact ⟨_, by rw [hview]; rfl, hdead hview⟩
    | some entry =>
      dsimp only
      have hview : view files key
          = if entry.key = key then some ⟨entry.value, entry.expires.toNat⟩ else none := by
        rw [view, hfile, bind_some, hdecode]
      by_cases hkey : entry.key = key
      · rw [if_neg (not_not.mpr hkey)]
        rw [if_pos hkey] at hview
        by_cases hexp : entry.expires ≤ now
        · have hlive : (view files).live now key = none := by
            rw [Table.live, hview]
            simp [Option.filter, hexp]
          rw [if_pos hexp]
          exact ⟨_, by rw [hlive]; rfl, hdead hlive⟩
        · have hlive : (view files).live now key = some ⟨entry.value, entry.expires.toNat⟩ := by
            rw [Table.live_eq_some]
            exact ⟨hview, by dsimp only; omega⟩
          rw [if_neg hexp]
          refine ⟨files, ?_, Agree.refl _ _⟩
          rw [hlive]
          simp only [map_some, some.injEq, Prod.mk.injEq, true_and, and_true]
          omega
      · rw [if_pos hkey]
        rw [if_neg hkey] at hview
        have hlive : (view files).live now key = none := by
          rw [Table.live, hview]
          rfl
        exact ⟨_, by rw [hlive]; rfl, hdead hlive⟩

theorem many_eq (now : Nat) : ∀ (keys : List String) (files : Files),
    (many keys (fun _ => now) files).1 = keys.map (fun key => (key, (view files).get now key))
      ∧ Agree now (view (many keys (fun _ => now) files).2) (view files) := by
  intro keys
  induction keys with
  | nil => exact fun files => ⟨rfl, Agree.refl _ _⟩
  | cons key _ ih =>
    intro files
    obtain ⟨files', hread, hlive⟩ := payload_eq files now key
    obtain ⟨hrest, hagree⟩ := ih files'
    rw [many, hread]
    refine ⟨?_, hagree.trans hlive⟩
    dsimp only
    rw [hrest, map_map, List.map_cons]
    congr 1
    exact List.map_congr_left fun other _ => by rw [hlive.get other]

/-- `Flush` removes the files whose entry's key begins so. -/
theorem view_flush (files : Files) (start : String) (clk : Clock) :
    view (exec clk (.flush start) files).2 = (view files).drop (hasPrefix · start) := by
  funext key
  unfold view Table.drop exec
  dsimp only
  cases hfile : files key with
  | none =>
    simp only [bind_none]
    split <;> rfl
  | some raw =>
    dsimp only
    by_cases hstart : start = ""
    · rw [if_pos hstart, hstart]
      have hall : hasPrefix key "" := rfl
      rfl
    · rw [if_neg hstart]
      cases hdecode : decodeFileEntry raw with
      | none =>
        simp only [bind_some, hdecode]
        split <;> rfl
      | some entry =>
        by_cases hkey : entry.key = key
        · by_cases hpre : hasPrefix key start
          · simp [hkey, hpre]
          · simp [hkey, hpre, hdecode]
        · by_cases hpre : hasPrefix entry.key start
          · simp [hkey, hpre, hdecode]
          · simp [hkey, hpre, hdecode]

/-- The key and the deadline fit the header of a file. -/
def fitsHeader (now : Nat) (key : String) (ttl : Int) : Bool :=
  key.length < 16 ^ 8 && (now + ttl.toNat) / nanosPerSecond ≤ lastSecond

/-- What a call must be like for the files to answer as the map. -/
def fits (now : Nat) (call : Call) (files : Files) : Bool :=
  match call with
  | .put key _ ttl | .add key _ ttl | .increment key _ ttl | .touch key ttl => fitsHeader now key ttl
  | .forget key => ((view files).live now (flexibleCreatedKey key)).isNone
  | _ => true

theorem fitsHeader_iff {now : Nat} {ttl : Int} :
    fitsHeader now key ttl
      ↔ key.length < 16 ^ 8 ∧ (now + ttl.toNat) / nanosPerSecond ≤ lastSecond := by
  simp [fitsHeader]

/-- A deadline that fits is kept to the millisecond. -/
theorem stamp_fits {now : Nat} {ttl : Int} (httl : ¬ ttl ≤ 0)
    (h : (now + ttl.toNat) / nanosPerSecond ≤ lastSecond) :
    stamp ((now : Int) + ttl).toNat = floorMilli (now + ttl.toNat) := by
  have hnat : ((now : Int) + ttl).toNat = now + ttl.toNat := by omega
  rw [hnat, stamp_eq, if_neg (Nat.not_lt.mpr h), floorMilli]

theorem stamp_view {files : Files} {e : Entry String} (h : view files key = some e) :
    stamp e.expires = e.expires := by
  unfold view at h
  split at h
  · cases h
  · next entry hentry =>
    split at h
    · cases h
      obtain ⟨_, -, hdecode⟩ := bind_eq_some_iff.mp hentry
      exact stamp_decoded hdecode
    · cases h

section Refines

variable {now : Nat} {files : Files} {key : String}

theorem add_eq {ttl : Int} (httl : ¬ ttl ≤ 0) (hfits : fitsHeader now key ttl) (value : String) :
    (add files key value ttl fun _ => now).1
        = ((view files).add now key value (floorMilli (now + ttl.toNat))).1
      ∧ Agree now (view (add files key value ttl fun _ => now).2)
        ((view files).add now key value (floorMilli (now + ttl.toNat))).2 := by
  obtain ⟨hkey, hend⟩ := fitsHeader_iff.mp hfits
  obtain ⟨_, hread, hlive⟩ := payload_eq files now key
  unfold add Table.add
  cases hfile : files key with
  | none =>
    have hnone : (view files).live now key = none := by
      rw [Table.live, view, hfile]
      rfl
    rw [hnone]
    refine ⟨rfl, ?_⟩
    rw [view_write files hkey, stamp_fits httl hend]
    exact Agree.refl _ _
  | some =>
    rw [hread]
    cases hv : (view files).live now key with
    | none =>
      refine ⟨rfl, ?_⟩
      dsimp only [map_none]
      rw [view_write _ hkey, stamp_fits httl hend, view_delete]
      exact ((Agree.forget_dead (hlive key ▸ hv)).trans hlive).put key value _
    | some => exact ⟨rfl, hlive⟩

/-- **The files answer as the map**, up to a millisecond. -/
theorem exec_refines (call : Call) (hfits : fits now call files) :
    Refines floorMilli view (fun now => exec fun _ => now) now call files := by
  unfold Refines
  cases call with
  | put =>
    obtain ⟨hkey, hend⟩ := fitsHeader_iff.mp hfits
    simp only [exec, answer]
    split
    · exact ⟨rfl, Agree.refl _ _⟩
    · next httl =>
      rw [view_write files hkey, stamp_fits httl hend]
      exact ⟨rfl, Agree.refl _ _⟩
  | add _ value =>
    simp only [exec, answer]
    split
    · exact ⟨rfl, Agree.refl _ _⟩
    · next httl =>
      obtain ⟨hadded, hview⟩ := add_eq httl hfits value
      exact ⟨congrArg Answer.flag hadded, hview⟩
  | get key =>
    obtain ⟨files', hread, hlive⟩ := payload_eq files now key
    simp only [exec, hread, map_map]
    exact ⟨rfl, hlive⟩
  | many keys =>
    obtain ⟨hvalues, hlive⟩ := many_eq now keys files
    exact ⟨congrArg Answer.values hvalues, hlive⟩
  | forget key =>
    have hcompanion : (view files).live now (flexibleCreatedKey key) = none := Option.isNone_iff_eq_none.mp hfits
    refine ⟨rfl, ?_⟩
    show Agree now (view (delete (delete files key) (flexibleCreatedKey key))) _
    rw [view_delete, view_delete]
    refine Agree.forget_dead ?_
    rw [Table.live_forget, hcompanion]
    split <;> rfl
  | increment key delta =>
    obtain ⟨hkey, hend⟩ := fitsHeader_iff.mp hfits
    obtain ⟨files', hread, hlive⟩ := payload_eq files now key
    simp only [exec, answer, Table.increment, hread]
    split
    · exact ⟨rfl, Agree.refl _ _⟩
    · next httl =>
      cases hv : (view files).live now key with
      | none =>
        dsimp only [map_none]
        rw [view_write _ hkey, stamp_fits httl hend]
        exact ⟨rfl, hlive.put key _ _⟩
      | some e =>
        dsimp only [map_some]
        cases Counter.bump e.value delta with
        | none => exact ⟨rfl, hlive⟩
        | some =>
          have hexp : ((now : Int) + ((e.expires : Int) - now)).toNat = e.expires := by omega
          rw [view_write _ hkey, hexp, stamp_view (Table.live_eq_some.mp hv).1]
          exact ⟨rfl, hlive.put key _ _⟩
  | touch key =>
    obtain ⟨hkey, hend⟩ := fitsHeader_iff.mp hfits
    obtain ⟨files', hread, hlive⟩ := payload_eq files now key
    simp only [exec, answer, Table.touch, hread]
    split
    · exact ⟨rfl, Agree.refl _ _⟩
    · next httl =>
      cases (view files).live now key with
      | none => exact ⟨rfl, hlive⟩
      | some =>
        dsimp only [map_some]
        rw [view_write _ hkey, stamp_fits httl hend]
        exact ⟨rfl, hlive.put key _ _⟩
  | flush => exact ⟨rfl, by rw [view_flush]; exact Agree.refl _ _⟩

end Refines

end FileStore

/-! ### The rows -/

namespace DatabaseStore

/-- The entries of the rows that begin with the store's prefix. -/
def view (pre : String) (rows : Rows) : Table String := fun key =>
  (rows (pre ++ key)).map fun row => ⟨row.value, row.expiration * nanosPerMilli⟩

section View

variable {d : Dialect} {pre key : String} {rows : Rows} {now : Nat}

theorem expired_iff (row : Row) (now : Nat) :
    row.expiration ≤ nowMillis now ↔ row.expiration * nanosPerMilli ≤ now :=
  Nat.le_div_iff_mul_le (by decide)

theorem view_set (pre key : String) (rows : Rows) (row : Row) :
    view pre (Function.update rows (pre ++ key) (some row))
      = (view pre rows).put key row.value (row.expiration * nanosPerMilli) := by
  funext other
  unfold view Table.put
  by_cases h : other = key
  · subst h
    simp
  · have hne : pre ++ other ≠ pre ++ key := fun he => h (Text.append_left_inj he)
    simp [Function.update_of_ne h, Function.update_of_ne hne]

theorem view_live (now : Nat) {row : Row} (hrow : rows (pre ++ key) = some row) :
    (view pre rows).live now key
      = if row.expiration ≤ nowMillis now then none
        else some ⟨row.value, row.expiration * nanosPerMilli⟩ := by
  rw [Table.live, view, hrow]
  by_cases h : row.expiration ≤ nowMillis now
  · rw [if_pos h]
    simp [Option.filter, (expired_iff row now).mp h]
  · rw [if_neg h]
    have hlive : now < row.expiration * nanosPerMilli := by
      rw [expired_iff] at h
      omega
    simp [Option.filter, hlive]

/-- Deleting rows that have expired changes nothing that is live. -/
theorem deleteIn_agree (keys : List String) :
    Agree now (view pre (deleteIn rows keys fun row => row.expiration ≤ nowMillis now)) (view pre rows) := by
  intro other
  have hrow : ∀ rows' : Rows, (view pre rows').live now other
      = ((rows' (pre ++ other)).filter fun row => !decide (row.expiration ≤ nowMillis now)).map
        fun row => ⟨row.value, row.expiration * nanosPerMilli⟩ := by
    intro rows'
    cases h : rows' (pre ++ other) with
    | none =>
      rw [Table.live, view, h]
      rfl
    | some row =>
      rw [view_live now h]
      by_cases hexp : row.expiration ≤ nowMillis now <;> simp [Option.filter, hexp]
  rw [hrow, hrow, deleteIn]
  split
  · cases rows (pre ++ other) with
    | none => rfl
    | some row => by_cases hexp : row.expiration ≤ nowMillis now <;> simp [Option.filter, hexp]
  · rfl

theorem forgetIfExpired_agree (rows : Rows) (key : String) (now : Nat) :
    Agree now (view pre (forgetIfExpired pre rows key now)) (view pre rows) :=
  deleteIn_agree _

theorem forgetAll_agree (now : Nat) : ∀ (keys : List String) (rows : Rows),
    Agree now (view pre (forgetAll pre keys (fun _ => now) rows)) (view pre rows) := by
  intro keys
  induction keys with
  | nil => exact fun rows => Agree.refl _ _
  | cons key _ ih => exact fun rows => (ih _).trans (forgetIfExpired_agree rows key now)

/-- Reading a row: it is there and live, and nothing changes; or there is nothing at the key
afterwards. -/
theorem get_cases (pre : String) (rows : Rows) (key : String) (now : Nat) :
    (∃ row, rows (pre ++ key) = some row ∧ get pre rows key (fun _ => now) = (some row.value, rows)
      ∧ (view pre rows).live now key = some ⟨row.value, row.expiration * nanosPerMilli⟩)
    ∨ ∃ rows', get pre rows key (fun _ => now) = (none, rows') ∧ rows' (pre ++ key) = none
      ∧ (view pre rows).live now key = none ∧ Agree now (view pre rows') (view pre rows) := by
  unfold get
  cases hrow : rows (pre ++ key) with
  | none =>
    refine .inr ⟨rows, rfl, hrow, ?_, Agree.refl _ _⟩
    rw [Table.live, view, hrow]
    rfl
  | some row =>
    dsimp only
    have hlive := view_live now hrow
    by_cases hexp : row.expiration ≤ nowMillis now
    · rw [if_pos hexp] at hlive ⊢
      refine .inr ⟨_, rfl, ?_, hlive, forgetIfExpired_agree rows key now⟩
      simp [forgetIfExpired, deleteIn, hrow, hexp]
    · rw [if_neg hexp] at hlive ⊢
      exact .inl ⟨row, rfl, rfl, hlive⟩

/-- The key is no longer than the column. -/
def fitsKey (d : Dialect) (pre key : String) : Bool := d.keyLimit.all ((pre ++ key).length ≤ ·)

theorem view_put (value : String) {ttl : Int} (hkey : fitsKey d pre key) :
    view pre (put d pre rows key value ttl fun _ => now)
      = (view pre rows).put key value (floorMilli (now + ttl.toNat)) := by
  have hset : view pre (Function.update rows (pre ++ key) (some ⟨value, true, expiresAt now ttl⟩))
      = (view pre rows).put key value (floorMilli (now + ttl.toNat)) := view_set pre key rows _
  unfold put update insert
  cases hrow : rows (pre ++ key) with
  | none =>
    rw [fitsKey] at hkey
    simp only [hrow, hkey, if_true]
    exact hset
  | some => exact hset

theorem add_eq (rows : Rows) (value : String) (ttl : Int) (now : Nat) (hkey : fitsKey d pre key) :
    (add d pre rows key value ttl fun _ => now).1
        = ((view pre rows).add now key value (floorMilli (now + ttl.toNat))).1
      ∧ Agree now (view pre (add d pre rows key value ttl fun _ => now).2)
        ((view pre rows).add now key value (floorMilli (now + ttl.toNat))).2 := by
  unfold add Table.add
  rcases get_cases pre rows key now with
    ⟨row, -, hget, hlive⟩ | ⟨rows', hget, hfree, hlive, hagree⟩
  · rw [hget, hlive]
    exact ⟨rfl, Agree.refl _ _⟩
  · rw [hget, hlive]
    simp only [insert, hfree, show d.keyLimit.all ((pre ++ key).length ≤ ·) = true from hkey, if_true]
    refine ⟨trivial, ?_⟩
    rw [view_set]
    exact hagree.put key value _

end View

/-- The texts of a call. -/
def texts : Call → List String
  | .put key value _ | .add key value _ => [key, value]
  | .get key | .forget key | .increment key _ _ | .touch key _ => [key]
  | .many keys => keys
  | .flush start => [start]

/-- What a call must be like for the rows to answer as the map.  No text has a NUL, which no dialect
treats like another. -/
def Fits (d : Dialect) (pre : String) (now : Nat) (call : Call) (rows : Rows) : Prop :=
  (d.reserved && call.namesKey) = false ∧ (pre :: texts call).all (!·.toList.contains '\x00') ∧
  match call with
  | .put key _ _ | .add key _ _ => fitsKey d pre key
  | .forget key => (view pre rows).live now (flexibleCreatedKey key) = none
  -- A value that was sent as a text is not found again.
  | .increment key _ _ => fitsKey d pre key ∧ (rows (pre ++ key)).all (fun row => !d.typed || row.bytes)
  | .flush start => start = "" ∨ (d.escape = some '\\' ∨
      d.escape = none ∧ (pre ++ start).toList.all fun c => !special c) ∧
      -- No row begins so but for the case of letters.
      ∀ key, (rows (pre ++ key)).isSome → (start.toList.map d.fold).isPrefixOf (key.toList.map d.fold) →
        hasPrefix key start
  | _ => True

section Refines

variable {d : Dialect} {pre key : String} {now : Nat} {rows : Rows} {cond : Row → Bool}

theorem update_eq {row : Row} (hrow : rows (pre ++ key) = some row) (hcond : cond row) (set : Row → Row) :
    update rows (pre ++ key) cond set = (1, Function.update rows (pre ++ key) (some (set row))) := by
  simp only [update, hrow, hcond, if_true]

theorem update_skips {row : Row} (hrow : rows (pre ++ key) = some row) (hcond : cond row = false) (set : Row → Row) :
    update rows (pre ++ key) cond set = (0, rows) := by
  simp [update, hrow, hcond]

theorem increment_refines (delta ttl : Int) (httl : ¬ ttl ≤ 0) (hkey : fitsKey d pre key)
    (hbytes : (rows (pre ++ key)).all (fun row => !d.typed || row.bytes)) :
    Refines floorMilli (view pre) (fun now => work d pre fun _ => now) now (.increment key delta ttl) rows := by
  unfold Refines
  simp only [work, answer, if_neg httl, Table.increment]
  unfold increment
  rcases get_cases pre rows key now with ⟨row, hrow, hget, hlive⟩ | ⟨rows', hget, _, hlive, hview⟩
  · rw [hget, hlive]
    dsimp only
    cases hbump : Counter.bump row.value delta with
    | none => exact ⟨rfl, Agree.refl _ _⟩
    | some n =>
      have hequals : d.equals row row.value := by
        rw [hrow] at hbytes
        simpa [Dialect.equals] using hbytes
      dsimp only
      rw [bump, update_eq hrow hequals]
      refine ⟨rfl, ?_⟩
      show Agree now (view pre (Function.update rows (pre ++ key) _)) _
      rw [view_set]
      exact Agree.refl _ _
  · rw [hget, hlive]
    have hlive' : (view pre rows').live now key = none := (hview key).trans hlive
    obtain ⟨hadded, hagree'⟩ := add_eq rows' (Counter.render delta) ttl now hkey
    unfold Table.add at hadded hagree'
    rw [hlive'] at hadded hagree'
    dsimp only
    cases h : add d pre rows' key (Counter.render delta) ttl fun _ => now with
    | mk =>
      rw [h] at hadded hagree'
      cases hadded
      exact ⟨rfl, hagree'.trans (hview.put key _ _)⟩

theorem view_deleteIn (keys : List String) :
    view pre (deleteIn rows (keys.map (pre ++ ·)) fun _ => true) = (view pre rows).drop keys.contains := by
  funext key
  have hmem : (keys.map (pre ++ ·)).contains (pre ++ key) = keys.contains key := by
    rw [Bool.eq_iff_iff, List.contains_iff_mem, List.contains_iff_mem, List.mem_map]
    constructor
    · rintro ⟨_, hother, heq⟩
      exact Text.append_left_inj heq ▸ hother
    · exact fun h => ⟨key, h, rfl⟩
  unfold view deleteIn Table.drop
  rw [hmem]
  split
  · cases rows (pre ++ key) <;> rfl
  · rfl

theorem special_iff (c : Char) : special c ↔ (c.toNat = 37 ∨ c.toNat = 95) ∨ c.toNat = 92 := by
  simp only [special, Bool.or_eq_true, decide_eq_true_eq, ← Char.toNat_inj]
  rfl

/-- A capital and its small letter are none of the characters a pattern treats apart. -/
theorem special_fold (c : Char) : special (d.fold c) = special c ∧ (special c → d.fold c = c) := by
  unfold Dialect.fold Char.toLower
  split
  · split
    · next h =>
      have hlow : 65 ≤ c.toNat ∧ c.toNat ≤ 90 := h
      have hnat : ∀ h, (⟨c.val + ('a'.val - 'A'.val), h⟩ : Char).toNat = c.toNat + 32 := by
        intro _
        show (c.val + 32).toNat = c.toNat + 32
        rw [UInt32.toNat_add]
        exact Nat.mod_eq_of_lt (show c.toNat + 32 < 2 ^ 32 by omega)
      constructor
      · rw [Bool.eq_iff_iff, special_iff, special_iff, hnat]
        omega
      · intro hc
        have := (special_iff c).mp hc
        omega
    · exact ⟨rfl, fun _ => rfl⟩
  · exact ⟨rfl, fun _ => rfl⟩

theorem map_escaped (start : List Char) : (escaped start).map d.fold = escaped (start.map d.fold) := by
  induction start with
  | nil => rfl
  | cons c _ ih =>
    obtain ⟨hspecial, hsame⟩ := special_fold (d := d) c
    rw [escaped, List.map_cons, escaped, hspecial]
    split
    · next hc =>
      obtain ⟨-, hslash⟩ := special_fold (d := d) '\\'
      rw [List.map_cons, List.map_cons, ih, hslash rfl]
    · rw [List.map_cons, ih]

/-- The pattern takes the keys that begin so, up to case where that is ignored. -/
theorem likes_likePrefix {start : String} (hescape : d.escape = some '\\' ∨
      d.escape = none ∧ start.toList.all fun c => !special c) (text : List Char) :
    d.likes (likePrefix start) text = (start.toList.map d.fold).isPrefixOf (text.map d.fold) := by
  have hpercent : d.fold '%' = '%' := (special_fold '%').2 rfl
  rw [Dialect.likes, likePrefix, List.map_append, map_escaped, List.map_singleton, hpercent]
  rcases hescape with hesc | ⟨hesc, hplain⟩
  · rw [hesc]
    exact like_escaped _ _
  · rw [hesc]
    refine like_plain _ _ ?_
    rw [List.all_map]
    exact (List.all_congr rfl fun c => by rw [Function.comp, (special_fold c).1]).trans hplain

theorem view_flush {start : String} (hfits : Fits d pre now (.flush start) rows) (clk : Clock) :
    view pre (work d pre clk (.flush start) rows).2 = (view pre rows).drop (hasPrefix · start) := by
  have hall : ∀ key, hasPrefix key "" := fun _ => rfl
  obtain ⟨-, -, hfits⟩ := hfits
  unfold work
  dsimp only
  split
  · next hstart =>
    funext key
    rw [Table.drop, hstart, if_pos (hall key)]
    rfl
  · next hstart =>
    obtain ⟨hescape, hcase⟩ := hfits.resolve_left hstart
    funext key
    unfold view Table.drop
    dsimp only
    have hlikes : d.likes (likePrefix (pre ++ start)) (pre ++ key).toList
        ↔ start.toList.map d.fold <+: key.toList.map d.fold := by
      rw [likes_likePrefix hescape, List.isPrefixOf_iff_prefix, String.toList_append, String.toList_append,
        List.map_append, List.map_append, List.prefix_append_right_inj]
    cases hrow : rows (pre ++ key) with
    | none => simp
    | some row =>
      by_cases hpre : hasPrefix key start
      · rw [if_pos hpre, if_pos (hlikes.mpr ((List.isPrefixOf_iff_prefix.mp hpre).map _))]
        rfl
      · have hnot : ¬d.likes (likePrefix (pre ++ start)) (pre ++ key).toList := fun h =>
          hpre (hcase key (hrow ▸ rfl) (List.isPrefixOf_iff_prefix.mpr (hlikes.mp h)))
        rw [if_neg hpre, if_neg hnot]

/-- **The rows answer as the map**, up to a millisecond. -/
theorem exec_refines (call : Call) (hfits : Fits d pre now call rows) :
    Refines floorMilli (view pre) (fun now => exec d pre fun _ => now) now call rows := by
  have hfits₀ := hfits
  obtain ⟨hkeyword, -, hfits⟩ := hfits
  suffices hwork : Refines floorMilli (view pre) (fun now => work d pre fun _ => now) now call rows by
    unfold Refines exec at *
    simpa only [hkeyword, Bool.false_eq_true, if_false] using hwork
  unfold Refines
  cases call with
  | put =>
    simp only [work, answer]
    split
    · exact ⟨rfl, Agree.refl _ _⟩
    · exact ⟨rfl, view_put _ hfits ▸ Agree.refl _ _⟩
  | add key value ttl =>
    simp only [work, answer]
    split
    · exact ⟨rfl, Agree.refl _ _⟩
    · next httl =>
      obtain ⟨hadded, hview⟩ := add_eq rows value ttl now hfits
      exact ⟨congrArg Answer.flag hadded, hview⟩
  | get key =>
    have hanswer : (work d pre (fun _ => now) (.get key) rows)
        = (.value (get pre rows key fun _ => now).1, (get pre rows key fun _ => now).2) := rfl
    rcases get_cases pre rows key now with ⟨row, -, hget, hlive⟩ | ⟨_, hget, -, hlive, hview⟩
    · dsimp only
      rw [hanswer, hget, answer, Table.get, hlive]
      exact ⟨rfl, Agree.refl _ _⟩
    · dsimp only
      rw [hanswer, hget, answer, Table.get, hlive]
      exact ⟨rfl, hview⟩
  | many =>
    refine ⟨congrArg Answer.values (List.map_congr_left fun key _ => ?_), forgetAll_agree now _ rows⟩
    refine congrArg (Prod.mk key) ?_
    cases hrow : rows (pre ++ key) with
    | none =>
      rw [Table.get, Table.live, view, hrow]
      rfl
    | some row =>
      rw [Table.get, view_live now hrow]
      by_cases hexp : row.expiration ≤ nowMillis now
      · simp [Option.filter, hexp]
      · simp [Option.filter, hexp, Nat.lt_of_not_le hexp]
  | forget key =>
    have hcompanion : (view pre rows).live now (flexibleCreatedKey key) = none := hfits
    refine ⟨rfl, ?_⟩
    show Agree now (view pre (deleteIn rows ([key, flexibleCreatedKey key].map (pre ++ ·)) fun _ => true)) _
    rw [view_deleteIn]
    intro other
    rw [Table.live_drop, answer, Table.live_forget]
    by_cases hkey : other = key
    · simp [hkey]
    · by_cases hcomp : other = flexibleCreatedKey key
      · rw [hcomp, hcompanion]
        simp
      · simp [hkey, hcomp]
  | increment key delta ttl =>
    by_cases httl : ttl ≤ 0
    · simp only [work, answer, if_pos httl]
      exact ⟨trivial, Agree.refl _ _⟩
    · exact increment_refines delta ttl httl hfits.1 hfits.2
  | touch key ttl =>
    simp only [work, answer, Table.touch]
    split
    · exact ⟨rfl, Agree.refl _ _⟩
    · next httl =>
      cases hrow : rows (pre ++ key) with
      | none =>
        have hlive : (view pre rows).live now key = none := by
          rw [Table.live, view, hrow]
          rfl
        rw [hlive, update, hrow]
        exact ⟨rfl, Agree.refl _ _⟩
      | some row =>
        have hlive := view_live now hrow
        by_cases hexp : row.expiration ≤ nowMillis now
        · rw [if_pos hexp] at hlive
          rw [hlive, update_skips hrow (by simpa using hexp)]
          exact ⟨rfl, Agree.refl _ _⟩
        · rw [if_neg hexp] at hlive
          rw [hlive, update_eq hrow (by simpa using hexp)]
          refine ⟨rfl, ?_⟩
          rw [view_set]
          exact Agree.refl _ _
  | flush => exact ⟨by simp only [work, answer]; split <;> rfl, by rw [view_flush hfits₀]; exact Agree.refl _ _⟩

end Refines

end DatabaseStore

/-! ### One map -/

/-- The key a call may write under. -/
def Call.key : Call → Option String
  | .put key _ _ => some key
  | .add key _ _ => some key
  | .forget key => some key
  | .increment key _ _ => some key
  | .touch key _ => some key
  | _ => none

/-- A call on one key is not noticed at another. -/
theorem answer_of_ne (round : Nat → Nat) (now : Nat) (call : Call) (t : Table String) {other : String}
    (hkey : call.key ≠ some other) (hflush : ∀ start, call ≠ .flush start) :
    (answer round now call t).2 other = t other := by
  have hne : ∀ {key}, call.key = some key → other ≠ key := fun h he => hkey (he ▸ h)
  cases call with
  | put =>
    unfold answer
    dsimp only
    split
    · rfl
    · exact Table.put_of_ne t _ _ (hne rfl)
  | add =>
    unfold answer
    dsimp only
    split
    · rfl
    · exact Table.add_of_ne t now _ _ (hne rfl)
  | get => rfl
  | many => rfl
  | forget => exact Table.forget_of_ne t (hne rfl)
  | increment _ delta ttl =>
    have hother := Table.increment_of_ne t now delta (round (now + ttl.toNat)) (hne rfl)
    unfold answer
    dsimp only
    split
    · rfl
    · split
      · next heq =>
        rw [heq] at hother
        exact hother
      · next heq =>
        rw [heq] at hother
        exact hother
  | touch =>
    unfold answer
    dsimp only
    split
    · rfl
    · exact Table.touch_of_ne t now _ (hne rfl)
  | flush start => exact absurd rfl (hflush start)

/-- A live counter keeps its deadline. -/
theorem increment_deadline (round : Nat → Nat) {now : Nat} {t : Table String} {key : String}
    (delta ttl : Int) {e : Entry String} (he : t.live now key = some e) :
    ((answer round now (.increment key delta ttl) t).2.live now key).map Entry.expires
      = some e.expires := by
  have hexp := (Table.live_eq_some.mp he).2
  simp only [answer, Table.increment, he]
  split
  · rw [he]
    rfl
  · cases Counter.bump e.value delta with
    | none =>
      rw [he]
      rfl
    | some =>
      rw [Table.live_put, if_pos rfl, if_pos hexp]
      rfl

/-- **The three stores are one map**, for calls made one after another while the clock does not go
back and does not move during a call.  In the process that is all; the files and the rows answer so
as long as the calls meet `FileStore.fits` and `DatabaseStore.Fits`, with deadlines down to the
millisecond.  Of the map: a flush removes the keys that begin so, a live counter keeps its deadline,
and a call on one key is not noticed at another. -/
theorem stores_are_one_map (calls : List (Nat × Call))
    (hclock : calls.Pairwise fun a b => a.1 ≤ b.1) :
    run (fun now => ArrayStore.exec fun _ => now) calls Table.empty
        = run (answer id) calls Table.empty
    ∧ (Meets (FileStore.fits · · ·) (fun now => FileStore.exec fun _ => now) calls (fun _ => none) →
      run (fun now => FileStore.exec fun _ => now) calls (fun _ => none)
        = run (answer floorMilli) calls Table.empty)
    ∧ (∀ (d : Dialect) (pre : String),
      Meets (DatabaseStore.Fits d pre) (fun now => DatabaseStore.exec d pre fun _ => now) calls (fun _ => none) →
      run (fun now => DatabaseStore.exec d pre fun _ => now) calls (fun _ => none)
        = run (answer floorMilli) calls Table.empty)
    ∧ (∀ round now t start key, (answer round now (.flush start) t).2 key
      = if hasPrefix key start then none else t key)
    ∧ (∀ round now t key delta ttl e, t.live now key = some e →
      ((answer round now (.increment key delta ttl) t).2.live now key).map Entry.expires
        = some e.expires)
    ∧ ∀ round now call t other, call.key ≠ some other → (∀ start, call ≠ .flush start) →
      (answer round now call t).2 other = t other := by
  have hzero : ∀ a ∈ calls, 0 ≤ a.1 := fun _ _ => Nat.zero_le _
  refine ⟨?_, ?_, ?_, fun _ _ _ _ _ => rfl, ?_, ?_⟩
  · have hall : ∀ (cs : List (Nat × Call)) (t : Table String),
        Meets (fun _ _ _ => True) (fun now => ArrayStore.exec fun _ => now) cs t := by
      intro cs
      induction cs with
      | nil => exact fun _ => trivial
      | cons a _ ih => exact fun t => ⟨trivial, ih _⟩
    exact run_refines (fun now call x _ => ArrayStore.exec_refines now call x) calls 0 _ _
      (Agree.refl _ _) hclock hzero (hall calls _)
  · intro hmeets
    exact run_refines (fun now call x hfits => FileStore.exec_refines call hfits) calls 0 _ _
      (Agree.refl _ _) hclock hzero hmeets
  · intro d pre hmeets
    exact run_refines (fun now call x hfits => DatabaseStore.exec_refines call hfits) calls 0 _ _
      (Agree.refl _ _) hclock hzero hmeets
  · intro round now t key delta ttl e he
    exact increment_deadline round delta ttl he
  · intro round now call t other hkey hflush
    exact answer_of_ne round now call t hkey hflush

/-- Ten milliseconds. -/
def briefly : Nat := 10 * nanosPerMilli

/-- A counter that is raised twice, touched, and flushed with its namespace. -/
def counting : List (Nat × Call) :=
  [(0, .increment "a_b:n" 2 briefly), (3, .increment "a_b:n" 5 briefly), (5, .touch "a_b:n" (2 * briefly)),
    (briefly + 1, .get "a_b:n"), (briefly + 2, .flush "a_b:"), (briefly + 3, .get "a_b:n")]

theorem stores_are_one_map_counting :
    run (fun now => DatabaseStore.exec postgres "app_" fun _ => now) counting (fun _ => none)
        = [.count 2, .count 7, .flag true, .value (some "7"), .done, .value none]
    ∧ run (fun now => DatabaseStore.exec sqlite "" fun _ => now) (counting.take 4) (fun _ => none)
        = [.count 2, .count 7, .flag true, .value (some "7")]
    ∧ run (fun now => FileStore.exec fun _ => now) counting (fun _ => none)
        = [.count 2, .count 7, .flag true, .value (some "7"), .done, .value none] := by
  have hmap : run (answer floorMilli) counting Table.empty
      = [.count 2, .count 7, .flag true, .value (some "7"), .done, .value none] := by decide +kernel
  have hfirst : run (answer floorMilli) (counting.take 4) Table.empty
      = [.count 2, .count 7, .flag true, .value (some "7")] := by decide +kernel
  obtain ⟨-, hfile, hdb, -⟩ := stores_are_one_map counting (by decide)
  obtain ⟨-, -, hsqlite, -⟩ := stores_are_one_map (counting.take 4) (by decide)
  refine ⟨(hdb postgres "app_" ?_).trans hmap, (hsqlite sqlite "" ?_).trans hfirst, (hfile ?_).trans hmap⟩
  · refine ⟨?_, ?_, ?_, ?_, ⟨rfl, by decide, .inr ⟨.inl rfl, fun key _ h => ?_⟩⟩, ?_, trivial⟩
    · exact ⟨rfl, by decide, by decide, by decide⟩
    · exact ⟨rfl, by decide, by decide, by decide +kernel⟩
    · exact ⟨rfl, by decide, trivial⟩
    · exact ⟨rfl, by decide, trivial⟩
    · rwa [show postgres.fold = id from rfl, List.map_id, List.map_id] at h
    · exact ⟨rfl, by decide, trivial⟩
  · refine ⟨⟨rfl, by decide, by decide, by decide⟩, ⟨rfl, by decide, by decide, by decide +kernel⟩, ?_, ?_, trivial⟩
    · exact ⟨rfl, by decide, trivial⟩
    · exact ⟨rfl, by decide, trivial⟩
  · decide +kernel

/-- **Where a store is not the map.**  MySQL takes no statement of the rows.  In SQLite a flush leaves the
keys of a namespace with an underscore and removes those that differ in case, and a counter is raised once
more and then no more; in Postgres a key that is too long is not stored and nothing says so; forgetting a
key removes another from the files and the rows; a file forgets a deadline past its last second; and when
the clock moves by a millisecond between two readings of one `Increment`, the counter in a file lives that
much longer. -/
theorem stores_differ :
    run (fun now => DatabaseStore.exec mysql "" fun _ => now) [(0, .put "k" "v" briefly), (0, .get "k")] (fun _ => none)
      = [.refused, .refused]
    ∧ (run (fun now => DatabaseStore.exec sqlite "" fun _ => now)
        [(0, .put "a_b:k" "v" briefly), (0, .flush "a_b:"), (0, .get "a_b:k")] (fun _ => none)
        = [.done, .done, .value (some "v")]
      ∧ run (answer floorMilli) [(0, .put "a_b:k" "v" briefly), (0, .flush "a_b:"), (0, .get "a_b:k")]
        Table.empty = [.done, .done, .value none])
    ∧ run (fun now => DatabaseStore.exec sqlite "" fun _ => now)
        [(0, .put "A:k" "v" briefly), (0, .flush "a:"), (0, .get "A:k")] (fun _ => none)
        = [.done, .done, .value none]
    ∧ run (fun now => DatabaseStore.exec sqlite "" fun _ => now)
        [(0, .increment "n" 1 briefly), (0, .increment "n" 1 briefly), (0, .increment "n" 1 briefly)] (fun _ => none)
        = [.count 1, .count 2, .changedMeanwhile "n"]
    ∧ run (fun now => DatabaseStore.exec postgres "" fun _ => now)
        [(0, .put (String.ofList (.replicate 256 'k')) "v" briefly), (0, .get (String.ofList (.replicate 256 'k')))]
        (fun _ => none) = [.done, .value none]
    ∧ (run (fun now => FileStore.exec fun _ => now)
        [(0, .put "flexible:created:k" "v" briefly), (0, .forget "k"), (0, .get "flexible:created:k")]
        (fun _ => none) = [.done, .done, .value none]
      ∧ run (fun now => ArrayStore.exec fun _ => now)
        [(0, .put "flexible:created:k" "v" briefly), (0, .forget "k"), (0, .get "flexible:created:k")]
        Table.empty = [.done, .done, .value (some "v")])
    ∧ (run (fun now => FileStore.exec fun _ => now)
        [(0, .put "k" "v" (2 * lastSecond * nanosPerSecond)), (lastSecond * nanosPerSecond, .get "k")]
        (fun _ => none) = [.done, .value none]
      ∧ run (answer floorMilli)
        [(0, .put "k" "v" (2 * lastSecond * nanosPerSecond)), (lastSecond * nanosPerSecond, .get "k")]
        Table.empty = [.done, .value (some "v")])
    ∧ (FileStore.exec (fun _ => briefly) (.get "n")
        (FileStore.exec (fun i => if i < 2 then 0 else nanosPerMilli) (.increment "n" 1 briefly)
          (FileStore.exec (fun _ => 0) (.put "n" "5" briefly) fun _ => none).2).2).1
      = .value (some "6") := by
  refine ⟨?_, ⟨?_, ?_⟩, ?_, ?_, ?_, ⟨?_, ?_⟩, ⟨?_, ?_⟩, ?_⟩ <;> decide +kernel

end Hesape.Cache.Stores
