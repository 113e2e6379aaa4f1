import Hesape.Cache.FileEntry
import Hesape.Run.Reach

/-!
# File locks

A lock of `FileStore` is an entry file: whoever creates it exclusively has it, until its
expiry.  Taking over an expired file is a read, a delete by the reader, a second delete by the
caller and another exclusive create; releasing is a read and a delete.  Every one of these is
a file operation of its own and any number of processes interleave them, so a call is kept as
the point it stands at (`Point`), with the file it saw.

None of the deletes asks whether the file is still the one that was read.  A process that read
an expired file and stalls deletes the lock somebody else has taken since.  `undisturbed` is
the condition that this does not happen: at a delete the file is the one that was read, or
gone.  Under it the file of a live lock stays where it is (`Kept.present`), and since a place
holds one file, two live locks on one key are one (`locks_exclude`).

`Add` is the same race with the entry's value in place of the token, and shares the places
with the locks when no lock directory is set.
-/

namespace Hesape.Cache.FileLock

open Hesape.Run (Reach at_set at_append)
open Function

/-! ### Files and calls -/

/-- Where the file of a key lies: in the lock directory, or with the entries.  The path is a hash
of the key, taken to have no collisions. -/
structure Place where
  inLockDir : Bool
  key : String
deriving DecidableEq

/-- A file: its bytes, and which call created it. -/
structure File where
  raw : String
  creator : Nat
deriving DecidableEq

abbrev Files := Place → Option File

inductive Call
  | acquireLock (key token : String) (ttl : Int)
  | add (key value : String) (ttl : Int)
  | releaseLock (key token : String)
  | currentOwner (key : String)
deriving DecidableEq

namespace Call

def key : Call → String
  | acquireLock key _ _ => key
  | add key _ _ => key
  | releaseLock key _ => key
  | currentOwner key => key

/-- What a call writes into the file it creates. -/
def value : Call → String
  | acquireLock _ token _ => token
  | add _ value _ => value
  | releaseLock _ token => token
  | currentOwner _ => ""

def ttl : Call → Int
  | acquireLock _ _ ttl => ttl
  | add _ _ ttl => ttl
  | releaseLock _ _ => 0
  | currentOwner _ => 0

/-- `lockPath` of the key, or `Path` for an entry; `separate` says that a lock directory is
set. -/
def place (separate : Bool) : Call → Place
  | acquireLock key _ _ => ⟨separate, key⟩
  | add key _ _ => ⟨false, key⟩
  | releaseLock key _ => ⟨separate, key⟩
  | currentOwner key => ⟨separate, key⟩

end Call

/-- What a call returns: true with the expiry it wrote, false, nil, an owner, or an error. -/
inductive Answer
  | took (expires : Nat)
  | notTaken
  | released
  | owner (token : String)
  | noTTL
  | failed
deriving DecidableEq

/-- Where a call stands.  `again` is the second pass of the loop of `AcquireLock` and `Add`;
`seen` is the file that was read. -/
inductive Point
  | clock (again : Bool)
  | create (again : Bool) (expires : Nat)
  | read (again : Bool)
  | judge (again : Bool) (seen : Option File)
  | sweep (again : Bool) (seen : File)
  | drop (again : Bool) (seen : Option File)
  | remove (seen : Option File)
  | done (answer : Answer)
deriving DecidableEq

structure Proc where
  call : Call
  point : Point
deriving DecidableEq

/-- A call before its first operation. -/
def Call.start (call : Call) : Proc :=
  match call with
  | .acquireLock _ _ ttl => ⟨call, if ttl ≤ 0 then .done .noTTL else .clock false⟩
  | .add _ _ ttl => ⟨call, if ttl ≤ 0 then .done .noTTL else .clock false⟩
  | .releaseLock _ _ => ⟨call, .read false⟩
  | .currentOwner _ => ⟨call, .read false⟩

/-- The reader found nobody: no file, or one that has expired or cannot be read. -/
def Call.onVacant (call : Call) (again : Bool) (seen : Option File) : Point :=
  match call with
  | .acquireLock _ _ _ => .drop again seen
  | .add _ _ _ => .drop again seen
  -- The empty string is what the reader answers for a free lock.
  | .releaseLock _ token => if token = "" then .remove seen else .done .released
  | .currentOwner _ => .done (.owner "")

/-- The reader found a live entry with this value. -/
def Call.onLive (call : Call) (again : Bool) (seen : File) (value : String) : Point :=
  match call with
  | .acquireLock _ _ _ => if value ≠ "" then .done .notTaken else .drop again (some seen)
  | .add _ _ _ => .done .notTaken
  | .releaseLock _ token => if value = token then .remove (some seen) else .done .released
  | .currentOwner _ => .done (.owner value)

/-- What the reader makes of the file it read: the decisions of `CurrentOwner` and `payload`. -/
def Call.judge (call : Call) (now : Nat) (again : Bool) : Option File → Point
  | none => call.onVacant again none
  | some file =>
    match decodeFileEntry file.raw with
    | none => .sweep again file
    | some entry =>
      if entry.key ≠ call.key then .sweep again file
      else if entry.expires ≤ now then .sweep again file
      else call.onLive again file entry.value

/-! ### The system -/

/-- Any number of calls over one directory.  `released` notes the calls whose lock a `ReleaseLock`
by the same token has deleted. -/
structure State where
  now : Nat
  files : Files
  procs : List Proc
  released : List Nat

def State.initial (now : Nat) : State := ⟨now, fun _ => none, [], []⟩

inductive Action
  | tick (d : Nat)
  | call (call : Call)
  | go (i : Nat)
  | fail (i : Nat)

def State.at (s : State) (i : Nat) (p : Proc) (point : Point) : State :=
  { s with procs := s.procs.set i ⟨p.call, point⟩ }

def State.delete (s : State) (place : Place) : State :=
  { s with files := Function.update s.files place none }

/-- The next operation of call `i`, which stands as `p`. -/
def State.next (separate : Bool) (s : State) (i : Nat) (p : Proc) : State :=
  let place := p.call.place separate
  match p.point with
  | .clock again => s.at i p (.create again (s.now + p.call.ttl.toNat))
  | .create again expires =>
    match s.files place with
    | some _ => s.at i p (.read again)
    | none =>
      { s.at i p (.done (.took expires)) with
        files := Function.update s.files place
          (some ⟨encodeFileEntry p.call.key p.call.value expires, i⟩) }
  | .read again => s.at i p (.judge again (s.files place))
  | .judge again seen => s.at i p (p.call.judge s.now again seen)
  | .sweep again seen => (s.delete place).at i p (p.call.onVacant again (some seen))
  | .drop again _ =>
    (s.delete place).at i p (if again then .done .notTaken else .clock true)
  | .remove seen =>
    { (s.delete place).at i p (.done .released) with
      released := (seen.map File.creator).toList ++ s.released }
  | .done _ => s

def step (separate : Bool) (s : State) : Action → Option State
  | .tick d => some { s with now := s.now + d }
  | .call call => some { s with procs := s.procs ++ [call.start] }
  | .go i => (s.procs[i]?).map (s.next separate i)
  -- The operation fails and the call returns its error.
  | .fail i =>
    match s.procs[i]? with
    | none => none
    | some p =>
      match p.point with
      | .done _ => none
      -- The reader ignores the error of its own delete.
      | .sweep again seen => some (s.at i p (p.call.onVacant again (some seen)))
      | _ => some (s.at i p (.done .failed))

/-! ### The condition -/

/-- The file a delete is about to remove, as the call saw it. -/
def Point.deletes : Point → Option (Option File)
  | .sweep _ seen => some (some seen)
  | .drop _ seen => some seen
  | .remove seen => some seen
  | _ => none

/-- The longest key a header can hold. -/
def maxKeyLength : Nat := 16 ^ 8

/-- A token or value that `CurrentOwner` cannot take for a free lock, and a key that fits. -/
def Call.fits (separate : Bool) : Call → Bool
  | .acquireLock key token _ => token ≠ "" && key.length < maxKeyLength
  | .add key value _ => (separate || value ≠ "") && key.length < maxKeyLength
  | .releaseLock _ _ => true
  | .currentOwner _ => true

/-- A delete finds the file that was read, or none. -/
def undisturbed (separate : Bool) (s : State) : Action → Bool
  | .call call => call.fits separate
  | .go i =>
    (s.procs[i]?).all fun p => p.point.deletes.all fun seen =>
      s.files (p.call.place separate) = none || s.files (p.call.place separate) = seen
  | _ => true

/-! ### What an undisturbed run keeps -/

variable {separate : Bool}

/-- `AcquireLock` and `Add` create files. -/
def Call.creates : Call → Bool
  | .acquireLock _ _ _ => true
  | .add _ _ _ => true
  | _ => false

/-- The file at a place was created by the call `q`, which has returned true, with expiry `e`. -/
structure Wrote (separate : Bool) (s : State) (place : Place) (f : File) (q : Proc) (e : Nat) :
    Prop where
  proc : s.procs[f.creator]? = some q
  point : q.point = .done (.took e)
  place_eq : q.call.place separate = place
  raw_eq : f.raw = encodeFileEntry q.call.key q.call.value e
  creates : q.call.creates = true
  fits : q.call.fits separate = true

/-- The file was created by a call that has returned true, and has expired. -/
def Stale (separate : Bool) (s : State) (place : Place) (f : File) : Prop :=
  ∃ q e, Wrote separate s place f q e ∧ stamp e ≤ s.now

/-- What is true of a call at its point. -/
def Fine (separate : Bool) (s : State) (p : Proc) : Prop :=
  match p.point with
  | .clock _ => p.call.creates = true
  | .create _ _ => p.call.creates = true
  | .judge _ seen => ∀ f, seen = some f → ∃ q e, Wrote separate s (p.call.place separate) f q e
  | .sweep _ seen => Stale separate s (p.call.place separate) seen
  | .drop _ seen => p.call.creates = true
      ∧ ∀ f, seen = some f → Stale separate s (p.call.place separate) f
  | .remove seen => ∀ f, seen = some f → Stale separate s (p.call.place separate) f
      ∨ ∃ q e, Wrote separate s (p.call.place separate) f q e
        ∧ p.call = .releaseLock q.call.key q.call.value
  | .done (.took _) => p.call.creates = true
  | _ => True

/-- **What an undisturbed run keeps**: every file comes from a call that returned true, and the
file of a live lock is where it was put. -/
structure Kept (separate : Bool) (s : State) : Prop where
  fits : ∀ (i : Nat) (p : Proc), s.procs[i]? = some p → p.call.fits separate = true
  fine : ∀ (i : Nat) (p : Proc), s.procs[i]? = some p → Fine separate s p
  files : ∀ place f, s.files place = some f → ∃ q e, Wrote separate s place f q e
  present : ∀ (i : Nat) (p : Proc) (e : Nat), s.procs[i]? = some p → p.point = .done (.took e) →
    s.now < stamp e → i ∉ s.released →
    s.files (p.call.place separate) = some ⟨encodeFileEntry p.call.key p.call.value e, i⟩

theorem kept_initial (now : Nat) : Kept separate (State.initial now) where
  fits := by intro i p hi; simp [State.initial] at hi
  fine := by intro i p hi; simp [State.initial] at hi
  files := by intro _ f hf; cases hf
  present := by intro i p e hi; simp [State.initial] at hi

namespace Wrote

variable {s s' : State} {place : Place} {f : File} {q : Proc} {e : Nat}

/-- The file says what the call that created it wrote. -/
theorem decode (hw : Wrote separate s place f q e) :
    decodeFileEntry f.raw = some ⟨q.call.key, q.call.value, stamp e⟩ := by
  rw [hw.raw_eq]
  refine decode_encode _ _ _ ?_
  have hfits := hw.fits
  have hcreates := hw.creates
  cases hq : q.call with
  | acquireLock | add =>
    rw [hq] at hfits
    exact of_decide_eq_true (Bool.and_eq_true_iff.mp hfits).2
  | releaseLock | currentOwner =>
    rw [hq] at hcreates
    cases hcreates

theorem mono (hw : Wrote separate s place f q e) (hp : s'.procs[f.creator]? = some q) :
    Wrote separate s' place f q e :=
  { hw with proc := hp }

end Wrote

theorem place_key (call : Call) : (call.place separate).key = call.key := by
  cases call <;> rfl

section Step

variable {s s' : State} {a : Action} {i : Nat}

/-- **What a step can do.** -/
theorem step_cases (hs : step separate s a = some s') :
    (∃ d, a = .tick d ∧ s' = { s with now := s.now + d })
    ∨ (∃ call, a = .call call ∧ s' = { s with procs := s.procs ++ [call.start] })
    ∨ (∃ i p, a = .go i ∧ s.procs[i]? = some p ∧ s' = s.next separate i p)
    ∨ (∃ i p point, a = .fail i ∧ s.procs[i]? = some p ∧ (∀ x, p.point ≠ .done x)
      ∧ (point = .done .failed
        ∨ ∃ again seen, p.point = .sweep again seen ∧ point = p.call.onVacant again (some seen))
      ∧ s' = s.at i p point) := by
  cases a with
  | tick d => exact .inl ⟨d, rfl, (Option.some.inj hs).symm⟩
  | call call => exact .inr (.inl ⟨call, rfl, (Option.some.inj hs).symm⟩)
  | go i =>
    obtain ⟨p, hp, he⟩ := Option.map_eq_some_iff.mp hs
    exact .inr (.inr (.inl ⟨i, p, rfl, hp, he.symm⟩))
  | fail i =>
    dsimp only [step] at hs
    match hp : s.procs[i]? with
    | none =>
      rw [hp] at hs
      cases hs
    | some p =>
      rw [hp] at hs
      dsimp only at hs
      refine .inr (.inr (.inr ?_))
      cases hpoint : p.point with
      | done =>
        rw [hpoint] at hs
        cases hs
      | sweep again seen =>
        rw [hpoint] at hs
        exact ⟨i, p, _, rfl, hp, by rw [hpoint]; exact nofun, .inr ⟨again, seen, hpoint, rfl⟩,
          (Option.some.inj hs).symm⟩
      | _ =>
        rw [hpoint] at hs
        exact ⟨i, p, _, rfl, hp, by rw [hpoint]; exact nofun, .inl rfl, (Option.some.inj hs).symm⟩

/-- The calls after an operation of call `i`: only that one has moved. -/
theorem next_procs (separate : Bool) (s : State) (i : Nat) (p : Proc) :
    (s.next separate i p).now = s.now
      ∧ ((s.next separate i p).procs = s.procs
        ∨ ∃ point, (s.next separate i p).procs = s.procs.set i ⟨p.call, point⟩) := by
  unfold State.next
  cases p.point with
  | create =>
    dsimp only
    cases s.files (p.call.place separate) with
    | none | some _ => exact ⟨rfl, .inr ⟨_, rfl⟩⟩
  | done => exact ⟨rfl, .inl rfl⟩
  | _ => exact ⟨rfl, .inr ⟨_, rfl⟩⟩

variable {q : Proc}

/-- A call that has returned stays as it is. -/
theorem done_kept {k : Nat} {x : Answer} (hs : step separate s a = some s')
    (hk : s.procs[k]? = some q) (hq : q.point = .done x) : s'.procs[k]? = some q := by
  have hlt : k < s.procs.length := (List.getElem?_eq_some_iff.mp hk).1
  obtain ⟨d, -, rfl⟩ | ⟨_, -, rfl⟩ | ⟨i, p, -, hi, rfl⟩ | ⟨i, p, _, -, hi, hp, -, rfl⟩ := step_cases hs
  · exact hk
  · exact (List.getElem?_append_left hlt).trans hk
  · by_cases hki : k = i
    · subst hki
      rw [hk] at hi
      cases hi
      rw [State.next, hq]
      exact hk
    · rcases (next_procs separate s i p).2 with he | ⟨point, he⟩
      · rw [he]
        exact hk
      · rw [he, List.getElem?_set_ne (Ne.symm hki)]
        exact hk
  · by_cases hki : k = i
    · subst hki
      rw [hk] at hi
      cases hi
      exact absurd hq (hp x)
    · exact (List.getElem?_set_ne (Ne.symm hki)).trans hk

variable {f : File} {e : Nat}

theorem Wrote.kept {place : Place}
    (hw : Wrote separate s place f q e) (hs : step separate s a = some s') :
    Wrote separate s' place f q e :=
  hw.mono (done_kept hs hw.proc hw.point)

theorem now_le (hs : step separate s a = some s') : s.now ≤ s'.now := by
  obtain ⟨d, -, rfl⟩ | ⟨_, -, rfl⟩ | ⟨i, p, -, _, rfl⟩ | ⟨i, p, _, -, -, -, -, rfl⟩ := step_cases hs
  · exact Nat.le_add_right _ _
  · exact le_refl _
  · exact (next_procs separate s i p).1.ge
  · exact le_refl _

theorem Stale.kept {place : Place} (hst : Stale separate s place f)
    (hs : step separate s a = some s') : Stale separate s' place f := by
  obtain ⟨q, e, hw, he⟩ := hst
  exact ⟨q, e, hw.kept hs, he.trans (now_le hs)⟩

variable {p : Proc} {again : Bool} {seen : Option File}

theorem Fine.kept (hf : Fine separate s p) (hs : step separate s a = some s') :
    Fine separate s' p := by
  unfold Fine at *
  cases hp : p.point with
  | clock | create => rw [hp] at hf; exact hf
  | read => trivial
  | judge =>
    rw [hp] at hf
    intro f hseen
    obtain ⟨q, e, hw⟩ := hf f hseen
    exact ⟨q, e, hw.kept hs⟩
  | sweep => rw [hp] at hf; exact Stale.kept hf hs
  | drop =>
    rw [hp] at hf
    exact ⟨hf.1, fun f hseen => (hf.2 f hseen).kept hs⟩
  | remove =>
    rw [hp] at hf
    intro f hseen
    rcases hf f hseen with hst | ⟨q, e, hw, hcall⟩
    · exact .inl (hst.kept hs)
    · exact .inr ⟨q, e, hw.kept hs, hcall⟩
  | done x =>
    rw [hp] at hf
    cases x <;> exact hf

theorem Wrote.key_eq {call : Call}
    (hw : Wrote separate s (call.place separate) f q e) : q.call.key = call.key := by
  have hkey := congrArg Place.key hw.place_eq
  rwa [place_key, place_key] at hkey

/-- The reader understands every file: it has expired, or it is live. -/
theorem Wrote.judge_eq {call : Call}
    (hw : Wrote separate s (call.place separate) f q e) :
    call.judge s.now again (some f)
      = if stamp e ≤ s.now then .sweep again f else call.onLive again f q.call.value := by
  unfold Call.judge
  simp only [hw.decode, hw.key_eq, ne_eq, not_true_eq_false, if_false, Int.ofNat_le]

/-- When nobody is there, only a call that creates goes on to delete. -/
theorem vacant_fine (call : Call)
    (hst : ∀ f, seen = some f → Stale separate s (call.place separate) f) :
    Fine separate s ⟨call, call.onVacant again seen⟩ := by
  cases call with
  | acquireLock | add => exact ⟨rfl, hst⟩
  | releaseLock _ token =>
    by_cases htoken : token = ""
    · rw [Call.onVacant, if_pos htoken]
      exact fun f hf => .inl (hst f hf)
    · rw [Call.onVacant, if_neg htoken]
      trivial
  | currentOwner => trivial

/-- What the reader decides leaves the call at a fine point. -/
theorem judge_fine (hkept : Kept separate s) {i : Nat} (hi : s.procs[i]? = some p)
    (hp : p.point = .judge again seen) :
    Fine separate s ⟨p.call, p.call.judge s.now again seen⟩ := by
  have hseen := hkept.fine i p hi
  unfold Fine at hseen
  rw [hp] at hseen
  cases seen with
  | none => exact vacant_fine p.call nofun
  | some f =>
    obtain ⟨q, e, hw⟩ := hseen f rfl
    rw [hw.judge_eq]
    split
    · next hexp => exact ⟨q, e, hw, hexp⟩
    · -- A live file: a lock with a token, or an entry.
      cases hc : p.call with
      | acquireLock =>
        unfold Call.onLive
        dsimp only
        split
        · trivial
        · next hempty =>
          exfalso
          have hvalue : q.call.value = "" := by simpa using hempty
          have hfits := hw.fits
          have hcreates := hw.creates
          have hplace := hw.place_eq
          rw [hc] at hplace
          cases hq : q.call with
          | acquireLock =>
            rw [hq] at hfits hvalue
            simp only [Call.value] at hvalue
            simp [Call.fits, hvalue] at hfits
          | add =>
            rw [hq] at hfits hvalue hplace
            simp only [Call.value] at hvalue
            have hsep : separate = false := (congrArg Place.inLockDir hplace).symm
            simp [Call.fits, hvalue, hsep] at hfits
          | releaseLock | currentOwner =>
            rw [hq] at hcreates
            cases hcreates
      | add => trivial
      | releaseLock =>
        unfold Call.onLive
        dsimp only
        split
        · next heq =>
          intro _ hf'
          cases hf'
          have hkey := hw.key_eq
          rw [hc] at hw hkey
          refine .inr ⟨q, e, hw, ?_⟩
          rw [heq, hkey]
          rfl
        · trivial
      | currentOwner => trivial

theorem vacant_not_took (call : Call) (again : Bool) (seen : Option File) (e : Nat) :
    call.onVacant again seen ≠ .done (.took e) := by
  cases call with
  | acquireLock | add | currentOwner => exact nofun
  | releaseLock =>
    unfold Call.onVacant
    dsimp only
    split <;> exact nofun

theorem judge_not_took (call : Call) (now : Nat) (again : Bool) (seen : Option File) (e : Nat) :
    call.judge now again seen ≠ .done (.took e) := by
  cases seen with
  | none => exact vacant_not_took call again none e
  | some =>
    unfold Call.judge
    dsimp only
    split
    · exact nofun
    · split
      · exact nofun
      · split
        · exact nofun
        · cases call with
          | add => exact nofun
          | currentOwner => exact nofun
          | _ =>
            unfold Call.onLive
            dsimp only
            split <;> exact nofun

variable (hkept : Kept separate s)
include hkept

/-- A delete that finds the file it saw removes no live lock, unless it is the release of that
lock. -/
theorem delete_spares {i j : Nat}
    (hok : undisturbed separate s (.go i)) (hi : s.procs[i]? = some p)
    (hdel : p.point.deletes = some seen) (hj : s.procs[j]? = some q)
    (hq : q.point = .done (.took e)) (hlive : s.now < stamp e) (hrel : j ∉ s.released)
    (hplace : q.call.place separate = p.call.place separate) :
    p.point = .remove seen ∧ seen.map File.creator = some j
      ∧ p.call = .releaseLock q.call.key q.call.value := by
  obtain ⟨f₀, hfile, hcreator⟩ : ∃ f, s.files (p.call.place separate) = some f ∧ f.creator = j :=
    ⟨_, hplace ▸ hkept.present j q e hj hq hlive hrel, rfl⟩
  have hseen : seen = some f₀ := by
    simpa [undisturbed, hi, hdel, hfile, eq_comm] using hok
  have hfresh : ∀ q' e', Wrote separate s (p.call.place separate) f₀ q' e' → q' = q ∧ e' = e := by
    intro q' e' hw
    have hproc := hw.proc
    rw [hcreator, hj] at hproc
    cases hproc
    have hee := hw.point.symm.trans hq
    cases hee
    exact ⟨rfl, rfl⟩
  have hnot : ¬ Stale separate s (p.call.place separate) f₀ := by
    rintro ⟨q', e', hw, _⟩
    obtain ⟨-, rfl⟩ := hfresh q' e' hw
    omega
  have hfine := hkept.fine i p hi
  unfold Fine at hfine
  cases hp : p.point with
  | sweep =>
    rw [hp] at hfine hdel
    cases hdel
    cases hseen
    exact absurd hfine hnot
  | drop =>
    rw [hp] at hfine hdel
    cases hdel
    exact absurd (hfine.2 _ hseen) hnot
  | remove =>
    rw [hp] at hfine hdel
    cases hdel
    rcases hfine _ hseen with hst | ⟨q', e', hw, hcall⟩
    · exact absurd hst hnot
    · obtain ⟨rfl, -⟩ := hfresh q' e' hw
      exact ⟨rfl, by rw [hseen, ← hcreator]; rfl, hcall⟩
  | clock | create | read | judge | done => rw [hp] at hdel; cases hdel

variable {point : Point} {released : List Nat}

/-- A call that moves, and what is left to show of the files. -/
theorem kept_move (hs : step separate s a = some s') (hi : s.procs[i]? = some p) {files : Place → Option File}
    (he : s' = ⟨s.now, files, s.procs.set i ⟨p.call, point⟩, released⟩) (hfine : Fine separate s ⟨p.call, point⟩)
    (hfiles : ∀ place f, files place = some f → s.files place = some f ∨ ∃ q e, Wrote separate s' place f q e)
    (hmine : ∀ e, point = .done (.took e) →
      files (p.call.place separate) = some ⟨encodeFileEntry p.call.key p.call.value e, i⟩)
    (hothers : ∀ k x e, s.procs[k]? = some x → x.point = .done (.took e) → s.now < stamp e → k ∉ released →
      k ∉ s.released ∧ files (x.call.place separate) = s.files (x.call.place separate)) :
    Kept separate s' := by
  have hwrote : ∀ {place f q e}, Wrote separate s place f q e → Wrote separate s' place f q e :=
    fun hw => hw.kept hs
  have hkeptFine : ∀ {x}, Fine separate s x → Fine separate s' x := fun hx => hx.kept hs
  subst he
  refine ⟨?_, ?_, ?_, ?_⟩
  · intro k x hk
    rcases at_set hk with ⟨-, rfl⟩ | ⟨-, hk⟩
    · exact hkept.fits i p hi
    · exact hkept.fits k x hk
  · intro k x hk
    rcases at_set hk with ⟨-, rfl⟩ | ⟨-, hk⟩
    · exact hkeptFine hfine
    · exact hkeptFine (hkept.fine k x hk)
  · intro place f hf
    rcases hfiles place f hf with hf | hw
    · obtain ⟨q, e, hw⟩ := hkept.files place f hf
      exact ⟨q, e, hwrote hw⟩
    · exact hw
  · intro k x e hk hx hlive hrel
    rcases at_set hk with ⟨rfl, rfl⟩ | ⟨-, hk⟩
    · exact hmine e hx
    · obtain ⟨hunreleased, hsame⟩ := hothers k x e hk hx hlive hrel
      exact hsame.trans (hkept.present k x e hk hx hlive hunreleased)

/-- A call that moves without touching the files. -/
theorem kept_at (hs : step separate s a = some s') {i : Nat}
    (hi : s.procs[i]? = some p) (he : s' = s.at i p point)
    (hfine : Fine separate s ⟨p.call, point⟩) (hnot : ∀ e, point ≠ .done (.took e)) :
    Kept separate s' :=
  kept_move hkept hs hi he hfine (fun _ _ hf => .inl hf) (fun e he => absurd he (hnot e))
    fun _ _ _ _ _ _ hrel => ⟨hrel, rfl⟩

/-- A call that deletes and moves on. -/
theorem kept_delete (hok : undisturbed separate s (.go i))
    (hs : step separate s (.go i) = some s') (hi : s.procs[i]? = some p)
    (seen : Option File) (hdel : p.point.deletes = some seen)
    (he : s' = ⟨s.now, update s.files (p.call.place separate) none,
      s.procs.set i ⟨p.call, point⟩, released⟩)
    (hrel : ∀ k, k ∈ s.released → k ∈ released)
    (hmarks : p.point = .remove seen → ∀ k, seen.map File.creator = some k → k ∈ released)
    (hfine : Fine separate s ⟨p.call, point⟩) (hnot : ∀ e, point ≠ .done (.took e)) :
    Kept separate s' := by
  refine kept_move hkept hs hi he hfine (fun place f hf => .inl ?_) (fun e he => absurd he (hnot e)) ?_
  · by_cases hplace : place = p.call.place separate
    · subst hplace
      rw [update_self] at hf
      cases hf
    · rwa [update_of_ne hplace] at hf
  · intro k x e hk hx hlive hnotrel
    have hunreleased : k ∉ s.released := fun hmem => hnotrel (hrel k hmem)
    refine ⟨hunreleased, update_of_ne (fun hplace => ?_) ..⟩
    obtain ⟨hp, hseen, -⟩ := delete_spares hkept hok hi hdel hk hx hlive hunreleased hplace
    exact absurd (hmarks hp k hseen) hnotrel

/-- A call that creates its file. -/
theorem kept_create (hs : step separate s (.go i) = some s')
    (hi : s.procs[i]? = some p) {expires : Nat} (hp : p.point = .create again expires)
    (hfree : s.files (p.call.place separate) = none)
    (he : s' = ⟨s.now, update s.files (p.call.place separate)
        (some ⟨encodeFileEntry p.call.key p.call.value expires, i⟩),
      s.procs.set i ⟨p.call, .done (.took expires)⟩, s.released⟩) : Kept separate s' := by
  have hcreates : p.call.creates := by
    have hfine := hkept.fine i p hi
    unfold Fine at hfine
    rwa [hp] at hfine
  have hlt : i < s.procs.length := (List.getElem?_eq_some_iff.mp hi).1
  refine kept_move hkept hs hi he hcreates (fun place f hf => ?_) (fun e he => ?_) ?_
  · by_cases hplace : place = p.call.place separate
    · subst hplace he
      rw [update_self] at hf
      obtain rfl := Option.some.inj hf
      exact .inr ⟨⟨p.call, .done (.took expires)⟩, expires, List.getElem?_set_self hlt, rfl, rfl, rfl,
        hcreates, hkept.fits i p hi⟩
    · exact .inl ((update_of_ne hplace ..).symm.trans hf)
  · cases he
    exact update_self ..
  · -- A live lock at the same place would have kept its file there.
    intro k x e hk hx hlive hrel
    refine ⟨hrel, update_of_ne (fun hplace => ?_) ..⟩
    have hold := hkept.present k x e hk hx hlive hrel
    rw [hplace, hfree] at hold
    cases hold

theorem kept_step (hok : undisturbed separate s a)
    (hs : step separate s a = some s') : Kept separate s' := by
  have hwrote : ∀ {place f q e}, Wrote separate s place f q e → Wrote separate s' place f q e :=
    fun hw => hw.kept hs
  have hkeptFine : ∀ {x}, Fine separate s x → Fine separate s' x := fun hx => hx.kept hs
  obtain ⟨d, -, he⟩ | ⟨call, rfl, he⟩ | ⟨i, p, rfl, hi, he⟩ | ⟨i, p, point, -, hi, -, hpoint, he⟩ := step_cases hs
  · subst he
    refine ⟨hkept.fits, fun k x hk => hkeptFine (hkept.fine k x hk), ?_, ?_⟩
    · intro place f hf
      obtain ⟨q, e, hw⟩ := hkept.files place f hf
      exact ⟨q, e, hwrote hw⟩
    · intro k x e hk hx hlive hrel
      exact hkept.present k x e hk hx (by dsimp only at hlive; omega) hrel
  · subst he
    refine ⟨?_, ?_, ?_, ?_⟩
    · intro k x hk
      rcases at_append hk with hk | ⟨-, rfl⟩
      · exact hkept.fits k x hk
      · cases call <;> exact hok
    · intro k x hk
      rcases at_append hk with hk | ⟨-, rfl⟩
      · exact hkeptFine (hkept.fine k x hk)
      · cases call with
        | acquireLock _ _ ttl | add _ _ ttl =>
          unfold Call.start
          dsimp only
          by_cases httl : ttl ≤ 0
          · rw [if_pos httl]; trivial
          · rw [if_neg httl]; rfl
        | releaseLock => trivial
        | currentOwner => trivial
    · intro place f hf
      obtain ⟨q, e, hw⟩ := hkept.files place f hf
      exact ⟨q, e, hwrote hw⟩
    · intro k x e hk hx hlive hrel
      rcases at_append hk with hk | ⟨-, rfl⟩
      · exact hkept.present k x e hk hx hlive hrel
      · cases call with
        | acquireLock | add =>
          unfold Call.start at hx
          dsimp only at hx
          split at hx <;> cases hx
        | releaseLock => cases hx
        | currentOwner => cases hx
  · have hfine := hkept.fine i p hi
    unfold Fine at hfine
    unfold State.next at he
    cases hp : p.point with
    | clock =>
      rw [hp] at hfine he
      exact kept_at hkept hs hi he hfine nofun
    | create =>
      rw [hp] at hfine he
      dsimp only at he
      cases hfile : s.files (p.call.place separate) with
      | none =>
        rw [hfile] at he
        exact kept_create hkept hs hi hp hfile he
      | some =>
        rw [hfile] at he
        exact kept_at hkept hs hi he trivial nofun
    | read =>
      rw [hp] at he
      exact kept_at hkept hs hi he (fun f hf => hkept.files _ f hf) nofun
    | judge again seen =>
      rw [hp] at he
      refine kept_at hkept hs hi he (judge_fine hkept hi hp) ?_
      intro e
      exact judge_not_took p.call s.now again seen e
    | sweep again seen =>
      rw [hp] at hfine he
      refine kept_delete hkept hok hs hi (some seen) (by rw [hp]; rfl) he (fun _ hk => hk)
        (by rw [hp]; exact nofun) (vacant_fine p.call ?_) (vacant_not_took p.call again _)
      intro f hf
      cases hf
      exact hfine
    | drop again seen =>
      rw [hp] at hfine he
      refine kept_delete hkept hok hs hi seen (by rw [hp]; rfl) he (fun _ hk => hk)
        (by rw [hp]; exact nofun) ?_ ?_
      · cases again with
        | false => exact hfine.1
        | true => trivial
      · cases again <;> exact nofun
    | remove seen =>
      rw [hp] at he
      refine kept_delete hkept hok hs hi seen (by rw [hp]; rfl) he
        (fun _ hk => List.mem_append_right _ hk) ?_ trivial nofun
      intro _ k hk
      rw [hk]
      exact List.mem_append_left _ (List.mem_singleton.mpr rfl)
    | done =>
      rw [hp] at he
      rw [he]
      exact hkept
  · rcases hpoint with rfl | ⟨again, seen, hp, rfl⟩
    · exact kept_at hkept hs hi he trivial nofun
    · have hfine := hkept.fine i p hi
      unfold Fine at hfine
      rw [hp] at hfine
      refine kept_at hkept hs hi he (vacant_fine p.call ?_) (vacant_not_took p.call again _)
      intro f hf
      cases hf
      exact hfine

omit hkept

theorem kept_of_reach {now : Nat} (hr : Reach (step separate) (undisturbed separate) (State.initial now) s) :
    Kept separate s :=
  hr.invariant (kept_initial now) fun _ _ _ hkept hok hs => kept_step hkept hok hs

end Step

/-! ### Exclusion -/

/-- The call `i` has returned true, within its ttl, and no `ReleaseLock` has deleted its file. -/
def Holding (s : State) (i : Nat) (call : Call) (e : Nat) : Prop :=
  s.procs[i]? = some ⟨call, .done (.took e)⟩ ∧ s.now < stamp e ∧ i ∉ s.released

section Exclusion

variable {s s' : State} {a : Action} {i : Nat}

theorem Kept.holds_file (hkept : Kept separate s) {call : Call} {e : Nat}
    (hi : Holding s i call e) :
    s.files (call.place separate) = some ⟨encodeFileEntry call.key call.value e, i⟩ :=
  hkept.present i _ e hi.1 rfl hi.2.1 hi.2.2

/-- A place has one live holder, since it has one file. -/
theorem Kept.holding_unique (hkept : Kept separate s) {i j : Nat} {call call' : Call}
    {e e' : Nat} (hi : Holding s i call e) (hj : Holding s j call' e')
    (hplace : call.place separate = call'.place separate) : i = j := by
  have hfi := hkept.holds_file hi
  rw [hplace, hkept.holds_file hj] at hfi
  exact (congrArg File.creator (Option.some.inj hfi)).symm

/-- The operation of a call changes no place but its own. -/
theorem next_files_of_ne {p : Proc} {place : Place} (hne : place ≠ p.call.place separate) :
    (s.next separate i p).files place = s.files place := by
  unfold State.next
  cases p.point with
  | create =>
    dsimp only
    cases s.files (p.call.place separate) with
    | none => exact update_of_ne hne ..
    | some => rfl
  | sweep | drop | remove => exact update_of_ne hne ..
  | _ => rfl

/-- Where there is a file, a call that is not at a delete leaves it. -/
theorem next_files_of_some {p : Proc} {f : File} (hdel : p.point.deletes = none)
    (hf : s.files (p.call.place separate) = some f) :
    (s.next separate i p).files = s.files := by
  unfold State.next
  cases hp : p.point with
  | create => simp only [hf]; rfl
  | sweep | drop | remove => rw [hp] at hdel; cases hdel
  | _ => rfl

/-- **Nobody else removes a live lock**: only the release of that very lock does. -/
theorem Kept.file_stays (hkept : Kept separate s) (hok : undisturbed separate s a)
    (hs : step separate s a = some s') {call : Call} {e : Nat} (hi : Holding s i call e)
    (hother : ∀ j p, a = .go j → s.procs[j]? = some p → p.call ≠ .releaseLock call.key call.value) :
    s'.files (call.place separate) = s.files (call.place separate) := by
  obtain ⟨d, -, rfl⟩ | ⟨c, -, rfl⟩ | ⟨j, p, rfl, hj, rfl⟩ | ⟨j, p, _, -, -, -, -, rfl⟩ := step_cases hs
  · rfl
  · rfl
  · by_cases hplace : call.place separate = p.call.place separate
    · cases hdel : p.point.deletes with
      | none => rw [next_files_of_some hdel (hplace ▸ hkept.holds_file hi)]
      | some =>
        obtain ⟨-, -, hrelease⟩ :=
          delete_spares hkept hok hj hdel hi.1 rfl hi.2.1 hi.2.2 hplace
        exact absurd hrelease (hother j p rfl hj)
    · exact next_files_of_ne hplace
  · rfl

end Exclusion

/-- **File locks and `Add` exclude**, in every undisturbed run: of the locks on one key at most one
is live; the file of a live lock or entry outlasts every operation but the release of that lock; and
of the `Add`s on one key at most one is live. -/
theorem locks_exclude (separate : Bool) (now : Nat) {s : State}
    (hr : Reach (step separate) (undisturbed separate) (State.initial now) s) :
    (∀ i j key token token' ttl ttl' e e', Holding s i (.acquireLock key token ttl) e →
      Holding s j (.acquireLock key token' ttl') e' → i = j ∧ token = token')
    ∧ (∀ i call e a s', Holding s i call e → undisturbed separate s a = true →
      step separate s a = some s' →
      (∀ j p, a = .go j → s.procs[j]? = some p → p.call ≠ .releaseLock call.key call.value) →
      s.files (call.place separate) = some ⟨encodeFileEntry call.key call.value e, i⟩
        ∧ s'.files (call.place separate) = s.files (call.place separate))
    ∧ (∀ i j key value value' ttl ttl' e e', Holding s i (.add key value ttl) e →
      Holding s j (.add key value' ttl') e' → i = j) := by
  have hkept := kept_of_reach hr
  refine ⟨?_, ?_, ?_⟩
  · intro i j key token token' ttl ttl' e e' hi hj
    have hij := hkept.holding_unique hi hj rfl
    subst hij
    have hp := hi.1.symm.trans hj.1
    cases hp
    exact ⟨rfl, rfl⟩
  · intro i call e a s' hi hok hs hother
    exact ⟨hkept.holds_file hi, hkept.file_stays hok hs hi hother⟩
  · intro i j key value value' ttl ttl' e e' hi hj
    exact hkept.holding_unique hi hj rfl

/-! ### What a stale read does -/

/-- `n` operations of call `i`. -/
def goes (i n : Nat) : List Action := List.replicate n (.go i)

/-- `Holding`, checked. -/
def State.holds (s : State) (i : Nat) (call : Call) (e : Nat) : Bool :=
  s.procs[i]? = some ⟨call, .done (.took e)⟩ && s.now < stamp e && !s.released.contains i

theorem State.holds_iff {s : State} {i : Nat} {call : Call} {e : Nat} :
    s.holds i call e ↔ Holding s i call e := by
  simp [State.holds, Holding, and_assoc]

instance {s : State} {i : Nat} {call : Call} {e : Nat} : Decidable (Holding s i call e) :=
  decidable_of_iff _ State.holds_iff

/-- Three milliseconds. -/
def shortTTL : Nat := 3 * nanosPerMilli

theorem locks_exclude_taken_over :
    ∃ s, Holding s 1 (.acquireLock "k" "b" shortTTL) (5 * shortTTL)
      ∧ ∀ j token e, Holding s j (.acquireLock "k" token shortTTL) e → j = 1 := by
  obtain ⟨s, hrun, hone⟩ : ∃ s, Reach (step false) (undisturbed false) (State.initial 0) s
      ∧ Holding s 1 (.acquireLock "k" "b" shortTTL) (5 * shortTTL) :=
    Run.exists_reach (.call (.acquireLock "k" "a" shortTTL) :: goes 0 2
      ++ .tick (4 * shortTTL) :: .call (.acquireLock "k" "b" shortTTL) :: goes 1 8) (by decide +kernel)
  refine ⟨s, hone, fun j token e hj => ?_⟩
  exact ((locks_exclude false 0 hrun).1 j 1 "k" token "b" _ _ e _ hj hone).1

/-- **A stale read breaks the exclusion.**  Two processes read an expired lock; one of them takes it
over, and the delete of the other removes the new lock, so that both hold it.  And a release whose
lock expires between its read and its delete removes the lock of whoever took over. -/
theorem stale_delete :
    (∃ s, Reach (step false) (fun _ _ => true) (State.initial 0) s
      ∧ Holding s 1 (.acquireLock "k" "b" shortTTL) (5 * shortTTL)
      ∧ Holding s 2 (.acquireLock "k" "c" shortTTL) (5 * shortTTL))
    ∧ (∃ s, Reach (step false) (fun _ _ => true) (State.initial 0) s
      ∧ Holding s 1 (.add "k" "b" shortTTL) (5 * shortTTL)
      ∧ Holding s 2 (.add "k" "c" shortTTL) (5 * shortTTL))
    ∧ ∃ s, Reach (step false) (fun _ _ => true) (State.initial 0) s
      ∧ Holding s 2 (.acquireLock "k" "b" shortTTL) (5 * shortTTL)
      ∧ s.procs[1]? = some ⟨.releaseLock "k" "a", .done .released⟩
      ∧ s.files ⟨false, "k"⟩ = none := by
  refine ⟨?_, ?_, ?_⟩
  · exact Run.exists_reach (.call (.acquireLock "k" "a" shortTTL) :: goes 0 2
      ++ .tick (4 * shortTTL) :: .call (.acquireLock "k" "b" shortTTL)
        :: .call (.acquireLock "k" "c" shortTTL) :: goes 1 4 ++ goes 2 4 ++ goes 1 4 ++ goes 2 4)
      (by decide +kernel)
  · exact Run.exists_reach (.call (.add "k" "a" shortTTL) :: goes 0 2
      ++ .tick (4 * shortTTL) :: .call (.add "k" "b" shortTTL)
        :: .call (.add "k" "c" shortTTL) :: goes 1 4 ++ goes 2 4 ++ goes 1 4 ++ goes 2 4)
      (by decide +kernel)
  · exact Run.exists_reach (.call (.acquireLock "k" "a" shortTTL) :: goes 0 2
      ++ .call (.releaseLock "k" "a") :: goes 1 2
      ++ .tick (4 * shortTTL) :: .call (.acquireLock "k" "b" shortTTL) :: goes 2 8 ++ goes 1 1)
      (by decide +kernel)

end Hesape.Cache.FileLock
