import Hesape.Account.Passwords
import Mathlib.Data.List.Nodup

/-!
# When a replaced password stays replaced

`replacePassword` compares hashes, and a hash never comes twice: what it replaces is gone for good
(`Gone`), so one captured fingerprint resets one password, in every run.

The two writes by id compare nothing.  A sign-in that read a hash before it was replaced writes the
old password back (`sign_in_reinstates`), and a confirmation may be about an earlier hash than
the one `ChangePassword` then reads or `Close` writes over.  Where the stored hash is still one of the
password that was proved at each of these three steps (`still`), the rest of the claim follows
by induction on the run.
-/

namespace Hesape.Account

open List

variable {F : Type} {w : World F} {s t : State F} {i : Nat}

/-! ### Hashes that are gone -/

/-- The hashes that were replaced are no longer there, and all are older than the next one. -/
structure Gone (s : State F) : Prop where
  nodup : (s.row.hash :: s.log.map (·.old)).Nodup
  older : ∀ h ∈ s.row.hash :: s.log.map (·.old), h.number < s.made

theorem Gone.go (h : Gone s) (p : Place) : Gone (s.go i p) := ⟨h.nodup, h.older⟩

/-- A new hash is none of those that were made. -/
theorem Gone.fresh (h : Gone s) (plain : String) {log : List (Commit F)} (email : String)
    (hlog : (log.map (·.old)).Sublist (s.row.hash :: s.log.map (·.old))) :
    Gone (s.write i email plain log) := by
  have hold : ∀ h ∈ log.map (·.old), h.number < s.made := fun h' hm => h.older h' (hlog.subset hm)
  refine ⟨nodup_cons.mpr ⟨fun hm => ?_, h.nodup.sublist hlog⟩, ?_⟩
  · exact absurd (hold _ hm) (Nat.lt_irrefl _)
  · intro h' hm
    rcases mem_cons.mp hm with rfl | hm
    · exact Nat.lt_succ_self _
    · exact Nat.lt_succ_of_lt (hold h' hm)

theorem Gone.replacePassword (h : Gone s) (call : Call F) (read : Hash) (plain : String) :
    Gone (s.replacePassword i call read plain) := by
  unfold State.replacePassword
  split
  · next hread =>
    subst hread
    exact h.fresh plain _ (List.Sublist.refl _)
  · exact ⟨h.nodup, fun h' hm => Nat.lt_succ_of_lt (h.older h' hm)⟩

/-! ### What a step can do -/

/-- What a call that is about to replace a hash knows of it. -/
structure Reads (w : World F) (call : Call F) (h : Hash) : Prop where
  current : ∀ current, call.current? = some current → h.check current = true
  captured : ∀ f, call.captured? = some f → w.fingerprint h = f

/-- What a step of the call `i` can be. -/
inductive Does (w : World F) (s : State F) (i : Nat) : State F → Prop
  | go (p : Place) (reads : ∀ read, p = .replacing read → Reads w (w.calls i) read) : Does w s i (s.go i p)
  | rehash (same : s.row.hash.plain = (w.calls i).given) :
      Does w s i (s.write i s.row.email (w.calls i).given s.log)
  | replace (read : Hash) (place : s.places i = .replacing read) :
      Does w s i (s.replacePassword i (w.calls i) read (w.calls i).given)
  | close (email : String) (reads : Reads w (w.calls i) s.row.hash) :
      Does w s i (s.write i email (w.calls i).given (⟨w.calls i, s.row.hash⟩ :: s.log))

/-! ### What it keeps -/

structure Kept (w : World F) (s : State F) : Prop where
  gone : Gone s
  stored : s.row.hash.plain = lastGiven w.first s.log
  logged : ∀ c ∈ s.log, Reads w c.call c.old
  reading : ∀ i read, s.places i = .replacing read → Reads w (w.calls i) read

theorem kept_initial (w : World F) : Kept w w.initial := by
  refine ⟨⟨nodup_singleton _, fun h hm => ?_⟩, rfl, nofun, nofun⟩
  rw [mem_singleton.mp hm]
  exact Nat.one_pos

/-- A call that moves on reads what it may. -/
theorem reading_update (h : ∀ j read, s.places j = .replacing read → Reads w (w.calls j) read) {p : Place}
    (hp : ∀ read, p = .replacing read → Reads w (w.calls i) read) :
    ∀ j read, Function.update s.places i p j = .replacing read → Reads w (w.calls j) read :=
  (Function.forall_update_iff s.places fun j q => ∀ read, q = .replacing read → Reads w (w.calls j) read).mpr
    ⟨hp, fun j _ => h j⟩

theorem Kept.does (h : Kept w s) (hd : Does w s i t) : Kept w t := by
  cases hd with
  | go p reads => exact ⟨h.gone.go p, h.stored, h.logged, reading_update h.reading reads⟩
  | rehash same =>
    refine ⟨h.gone.fresh _ _ (sublist_cons_self _ _), ?_, h.logged, reading_update h.reading nofun⟩
    exact same.symm.trans h.stored
  | close _ reads =>
    refine ⟨h.gone.fresh _ _ (List.Sublist.refl _), rfl, ?_, reading_update h.reading nofun⟩
    intro c hc
    rcases mem_cons.mp hc with rfl | hc
    · exact reads
    · exact h.logged c hc
  | replace read place =>
    have hgone := h.gone.replacePassword (i := i) (w.calls i) read (w.calls i).given
    unfold State.replacePassword at hgone ⊢
    split at hgone
    · next hread =>
      rw [if_pos hread]
      refine ⟨hgone, rfl, ?_, reading_update h.reading nofun⟩
      intro c hc
      rcases mem_cons.mp hc with rfl | hc
      · exact h.reading i read place
      · exact h.logged c hc
    · next hread =>
      rw [if_neg hread]
      exact ⟨hgone, h.stored, h.logged, reading_update h.reading nofun⟩

/-! ### Runs -/

variable [DecidableEq F]

/-- The stored hash is still one of the password that was proved, at the steps that take it for that:
the statement of a rehash, the second read of `ChangePassword` and the transaction of `Close`. -/
def still (w : World F) (s : State F) : Action → Bool
  | .fail _ => true
  | .next i =>
    match w.calls i, s.places i with
    | .verifyCredentials _ password, .rehashing => s.row.hash.check password
    | .changePassword current _, .confirmed => s.row.hash.check current
    | .close password _, .confirmed => s.row.hash.check password
    | _, _ => true

theorem does_of_step (hstill : still w s (.next i)) (h : step w s (.next i) = some t) :
    Does w s i t := by
  unfold step at h
  unfold still at hstill
  dsimp only at h hstill
  generalize hp : s.places i = p at h hstill
  cases hc : w.calls i with
  | verifyCredentials _ password =>
    rw [hc] at h hstill
    cases p with
    | begun =>
      dsimp only at h
      split at h <;> cases h <;> exact .go _ nofun
    | rehashing =>
      cases h
      have hgiven : (w.calls i).given = password := by rw [hc]; rfl
      exact hgiven ▸ .rehash (hgiven ▸ of_decide_eq_true hstill)
    | confirmed | replacing | ended => cases h
  | changePassword =>
    rw [hc] at h hstill
    cases p with
    | begun =>
      cases h
      refine .go _ fun read hread => ?_
      split at hread <;> cases hread
    | confirmed =>
      cases h
      refine .go _ ?_
      rintro _ ⟨⟩
      rw [hc]
      exact ⟨by rintro _ ⟨⟩; exact hstill, nofun⟩
    | replacing read =>
      cases h
      have hdoes := Does.replace (w := w) read hp
      rw [hc] at hdoes
      exact hdoes
    | rehashing | ended => cases h
  | resetPassword =>
    rw [hc] at h
    cases p with
    | begun =>
      dsimp only at h
      split at h
      · next hcaptured =>
        cases h
        refine .go _ ?_
        rintro _ ⟨⟩
        rw [hc]
        exact ⟨nofun, by rintro _ ⟨⟩; exact hcaptured.2⟩
      · cases h
        exact .go _ nofun
    | replacing read =>
      cases h
      have hdoes := Does.replace (w := w) read hp
      rw [hc] at hdoes
      exact hdoes
    | rehashing | confirmed | ended => cases h
  | setPassword =>
    rw [hc] at h
    cases p with
    | begun =>
      cases h
      refine .go _ fun read hread => ?_
      rw [hc]
      exact ⟨nofun, nofun⟩
    | replacing read =>
      cases h
      have hdoes := Does.replace (w := w) read hp
      rw [hc] at hdoes
      exact hdoes
    | rehashing | confirmed | ended => cases h
  | close =>
    rw [hc] at h hstill
    cases p with
    | begun =>
      cases h
      refine .go _ fun read hread => ?_
      split at hread <;> cases hread
    | confirmed =>
      cases h
      have hreads : Reads w (w.calls i) s.row.hash := by
        rw [hc]
        exact ⟨by rintro _ ⟨⟩; exact hstill, nofun⟩
      have hdoes := Does.close (closedEmail w.id) hreads
      rw [hc] at hdoes
      exact hdoes
    | rehashing | replacing | ended => cases h

theorem Kept.step (h : Kept w s) {a : Action} (hstill : still w s a)
    (hs : Account.step w s a = some t) : Kept w t := by
  cases a with
  | next => exact h.does (does_of_step hstill hs)
  | fail =>
    cases hs
    exact ⟨h.gone.go .ended, h.stored, h.logged, reading_update h.reading nofun⟩

/-- Hashes that were replaced are all different, so one fingerprint is that of one of them. -/
theorem Kept.once (h : Kept w s) (f : F) : s.log.countP (·.call.captured? = some f) ≤ 1 := by
  rw [countP_eq_length_filter]
  cases hl : s.log.filter (·.call.captured? = some f) with
  | nil => exact Nat.zero_le 1
  | cons c cs =>
    have hf : ∀ d ∈ c :: cs, w.fingerprint d.old = f := by
      intro d hd
      rw [← hl] at hd
      obtain ⟨hd, hcaptured⟩ := mem_filter.mp hd
      exact (h.logged d hd).captured f (of_decide_eq_true hcaptured)
    have hnodup : ((c :: cs).map (·.old)).Nodup := by
      rw [← hl]
      exact (nodup_cons.mp h.gone.nodup).2.sublist (filter_sublist.map _)
    have hall : (c :: cs).map (·.old) = replicate (c :: cs).length c.old := by
      refine eq_replicate_iff.mpr ⟨length_map _, fun o ho => ?_⟩
      obtain ⟨d, hd, rfl⟩ := mem_map.mp ho
      exact w.fingerprint_inj ((hf d hd).trans (hf c mem_cons_self).symm)
    rw [hall] at hnodup
    exact nodup_replicate.mp hnodup

/-- **A password that was replaced never comes back**, where the password that was proved is still
the stored one when it is acted on. -/
theorem password_stays_replaced (w : World F) {s : State F}
    (h : Run.Reach (step w) (still w) w.initial s) : Replaced w s := by
  have hkept : Kept w s := h.invariant (kept_initial w) fun _ _ _ hk hstill hs => hk.step hstill hs
  exact ⟨hkept.stored, fun c hc current hcurrent => (hkept.logged c hc).current current hcurrent, hkept.once⟩

/-- An account with a due hash, and one call of each kind but a reset. -/
def holder : World Hash where
  id := "7"
  email := "a@example.org"
  first := "first"
  calls
    | 0 => .verifyCredentials "a@example.org" "first"
    | 1 => .changePassword "first" "second"
    | 2 => .setPassword "a@example.org" "third"
    | _ => .close "first" "secret"
  needsRehash h := h.number = 0
  fingerprint := id
  fingerprint_inj := Function.injective_id

/-- A sign-in whose rehash comes before the change of the password. -/
theorem password_stays_replaced_in_turn : ∃ s, s.row.hash.plain = "second" ∧ Replaced holder s := by
  obtain ⟨s, hreach, hplain⟩ : ∃ s, Run.Reach (step holder) (still holder) holder.initial s ∧
      s.row.hash.plain = "second" :=
    Run.exists_reach [.next 0, .next 0, .next 1, .next 1, .next 1] (by decide +kernel)
  exact ⟨s, hplain, password_stays_replaced holder hreach⟩

/-- A sign-in that read the first hash writes it back after the password was changed; and a password
is changed, and an account closed, on the proof of a password that was replaced in between. -/
theorem sign_in_reinstates :
    (∃ s, Run.Reach (step holder) (fun _ _ => true) holder.initial s ∧
      s.row.hash.plain = "first" ∧ lastGiven holder.first s.log = "second") ∧
    (∃ s, Run.Reach (step holder) (fun _ _ => true) holder.initial s ∧
      ∃ c ∈ s.log, c.call = .changePassword "first" "second" ∧ c.old.plain = "third") ∧
    (∃ s, Run.Reach (step holder) (fun _ _ => true) holder.initial s ∧
      ∃ c ∈ s.log, c.call = .close "first" "secret" ∧ c.old.plain = "third") := by
  refine ⟨?_, ?_, ?_⟩
  · exact Run.exists_reach [.next 0, .next 1, .next 1, .next 1, .next 0] (by decide +kernel)
  · exact Run.exists_reach [.next 1, .next 2, .next 2, .next 1, .next 1] (by decide +kernel)
  · exact Run.exists_reach [.next 3, .next 2, .next 2, .next 3] (by decide +kernel)

end Hesape.Account
