import Hesape.Auth.Budgets

/-!
# No more guesses than the policy grants

From the books (`Kept`) and from what the throttle shows follow the parts of the policy: those who are
granted in one window and not given back are within the budget, a spent budget stays locked, a refusal
changes nothing, and one tenant's calls change no answer about another.  The books are kept where
units are given back to the windows they were taken from.  A refund that comes after its window lets
one more guess through in the next (`late_refund`).
-/

namespace Hesape.Auth

open Function
open Hesape.Text (isSpace trim_append map_trim)

/-! ### Tenants -/

/-- The keys of a tenant's sign-ins. -/
def World.IsOf (w : World) (tenant k : String) : Prop :=
  ∃ i, (w.signIns i).tenant = tenant ∧ (k = w.pair i ∨ k = w.client i)

theorem World.tenant_of_isOf {w : World} {tenant : String} {i : Nat} {k : String}
    (h : w.IsOf tenant k) (hk : k = w.pair i ∨ k = w.client i) : (w.signIns i).tenant = tenant := by
  obtain ⟨j, rfl, hj⟩ := h
  rcases hk with rfl | rfl <;> rcases hj with hj | hj
  · exact tenant_of_pair hj
  · exact absurd hj (w.pair_ne_client i j)
  · exact absurd hj.symm (w.pair_ne_client j i)
  · exact tenant_of_client hj

/-- The sign-in that acts, if the action is one of a sign-in. -/
def Action.signIn? : Action → Option Nat
  | .attempt i _ | .refund i | .clear i => some i
  | .tick _ => none

/-- The action is one of the tenant's sign-ins, or time passing. -/
def concerns (w : World) (tenant : String) (a : Action) : Bool :=
  a.signIn?.all fun i => (w.signIns i).tenant = tenant

def only (w : World) (tenant : String) (as : List Action) : List Action := as.filter (concerns w tenant)

/-- Two states are the same to a tenant's sign-ins. -/
structure Alike (w : World) (tenant : String) (s t : State) : Prop where
  now : s.now = t.now
  places : ∀ i, (w.signIns i).tenant = tenant → s.places i = t.places i
  seen : ∀ k, w.IsOf tenant k → s.throttle.seen s.now k = t.throttle.seen t.now k

namespace Alike

variable {w : World} {tenant : String} {s t s' t' : State} {a : Action}

variable (h : Alike w tenant s t)
include h

theorem symm : Alike w tenant t s :=
  ⟨h.now.symm, fun i hi => (h.places i hi).symm, fun k hk => (h.seen k hk).symm⟩

/-- A step of one sign-in, of what it shows where the tenant looks and where it leaves that sign-in. -/
theorem moved {i : Nat} {m m' : MemoryThrottle} {p p' : Place}
    (hseen : ∀ k, w.IsOf tenant k → m.seen s.now k = m'.seen t.now k)
    (hp : (w.signIns i).tenant = tenant → p = p') {u u' : State}
    (hu : u.throttle = m ∧ u.now = s.now ∧ u.places = update s.places i p)
    (hu' : u'.throttle = m' ∧ u'.now = t.now ∧ u'.places = update t.places i p') :
    Alike w tenant u u' := by
  obtain ⟨rfl, hnow, hplaces⟩ := hu
  obtain ⟨rfl, hnow', hplaces'⟩ := hu'
  refine ⟨hnow.trans (h.now.trans hnow'.symm), fun j hj => ?_, fun k hk => ?_⟩
  · rw [hplaces, hplaces']
    by_cases hji : j = i
    · subst hji
      rw [update_self, update_self]
      exact hp hj
    · rw [update_of_ne hji, update_of_ne hji]
      exact h.places j hj
  · rw [hnow, hnow']
    exact hseen k hk

/-- **The same call in two states that are the same to the tenant.** -/
theorem step_both (hs : proper w s a) (ht : proper w t a)
    (hstep : step w s a = some s') (hstep' : step w t a = some t') (hc : concerns w tenant a) :
    Alike w tenant s' t' := by
  have hnow := h.now
  cases a with
  | tick d =>
    cases hstep
    cases hstep'
    refine ⟨congrArg (· + (d : Int)) hnow, h.places, fun k hk => ?_⟩
    show s.throttle.seen (s.now + d) k = t.throttle.seen (t.now + d) k
    rw [seen_later, seen_later, h.seen k hk, hnow]
  | attempt i =>
    have hi : (w.signIns i).tenant = tenant := of_decide_eq_true hc
    obtain ⟨-, hattempt⟩ := step_attempt hs hstep
    obtain ⟨-, hattempt'⟩ := step_attempt ht hstep'
    have hswept : ∀ k, w.IsOf tenant k → (s.throttle.swept w.policy s.now).seen s.now k
        = (t.throttle.swept w.policy t.now).seen t.now k :=
      fun k hk => seen_swept.trans ((h.seen k hk).trans seen_swept.symm)
    have hrefusal : refusal w (s.throttle.swept w.policy s.now) s.now i
        = refusal w (t.throttle.swept w.policy t.now) t.now i := by
      rw [refusal_eq, refusal_eq, hswept _ ⟨i, hi, .inl rfl⟩, hswept _ ⟨i, hi, .inr rfl⟩, hnow]
    cases hattempt with
    | refused _ spent =>
      cases hattempt' with
      | refused _ spent' =>
        cases spent.symm.trans (hrefusal.trans spent')
        exact h.moved hswept (fun _ => rfl) ⟨rfl, rfl, rfl⟩ ⟨rfl, rfl, rfl⟩
      | granted free' => cases spent.symm.trans (hrefusal.trans free')
    | granted free =>
      cases hattempt' with
      | refused _ spent' => cases free.symm.trans (hrefusal.trans spent')
      | granted =>
        refine h.moved (fun k hk => ?_) (fun _ => rfl) ⟨rfl, rfl, rfl⟩ ⟨rfl, rfl, rfl⟩
        refine seen_countBoth.trans (Eq.trans ?_ seen_countBoth.symm)
        rw [hswept k hk, hnow]
  | refund =>
    obtain ⟨-, rfl⟩ := step_refund hstep
    obtain ⟨-, rfl⟩ := step_refund hstep'
    refine h.moved (fun k hk => ?_) (fun _ => rfl) ⟨rfl, rfl, rfl⟩ ⟨rfl, rfl, rfl⟩
    refine seen_refund.trans (Eq.trans ?_ seen_refund.symm)
    rw [h.seen k hk]
  | clear =>
    obtain ⟨-, rfl⟩ := step_clear hstep
    obtain ⟨-, rfl⟩ := step_clear hstep'
    refine h.moved (fun k hk => ?_) (fun _ => rfl) ⟨rfl, rfl, rfl⟩ ⟨rfl, rfl, rfl⟩
    refine seen_clear.trans (Eq.trans ?_ seen_clear.symm)
    rw [h.seen k hk]

/-- **A call about another tenant.** -/
theorem step_other (hs : proper w s a) (hstep : step w s a = some s')
    (hc : concerns w tenant a = false) : Alike w tenant s' t := by
  have hself : ∀ i, t.places = update t.places i (t.places i) := fun i => (update_eq_self ..).symm
  have far : ∀ i, a.signIn? = some i → (w.signIns i).tenant ≠ tenant ∧
      ∀ k, w.IsOf tenant k → ¬(k = w.pair i ∨ k = w.client i) := by
    intro i hi
    have htenant : (w.signIns i).tenant ≠ tenant := by
      rw [concerns, hi] at hc
      exact of_decide_eq_false hc
    exact ⟨htenant, fun k hk hki => htenant (World.tenant_of_isOf hk hki)⟩
  cases a with
  | tick => cases hc
  | attempt i =>
    obtain ⟨htenant, hfar⟩ := far i rfl
    obtain ⟨-, hattempt⟩ := step_attempt hs hstep
    cases hattempt with
    | refused =>
      exact h.moved (fun k hk => seen_swept.trans (h.seen k hk)) (fun hi => absurd hi htenant) ⟨rfl, rfl, rfl⟩
        ⟨rfl, rfl, hself i⟩
    | granted =>
      refine h.moved (fun k hk => ?_) (fun hi => absurd hi htenant) ⟨rfl, rfl, rfl⟩ ⟨rfl, rfl, hself i⟩
      refine seen_countBoth.trans ((if_neg (hfar k hk)).trans ?_)
      exact seen_swept.trans (h.seen k hk)
  | refund i =>
    obtain ⟨htenant, hfar⟩ := far i rfl
    obtain ⟨-, rfl⟩ := step_refund hstep
    refine h.moved (fun k hk => ?_) (fun hi => absurd hi htenant) ⟨rfl, rfl, rfl⟩ ⟨rfl, rfl, hself i⟩
    exact seen_refund.trans ((if_neg (hfar k hk)).trans (h.seen k hk))
  | clear i =>
    obtain ⟨htenant, hfar⟩ := far i rfl
    obtain ⟨-, rfl⟩ := step_clear hstep
    refine h.moved (fun k hk => ?_) (fun hi => absurd hi htenant) ⟨rfl, rfl, rfl⟩ ⟨rfl, rfl, hself i⟩
    obtain ⟨hp, hcl⟩ := not_or.mp (hfar k hk)
    exact seen_clear.trans ((if_neg hp).trans ((if_neg hcl).trans (h.seen k hk)))

theorem of_follow {as bs : List Action}
    (hs : Run.follow (step w) (proper w) s as = some s') (ht : Run.follow (step w) (proper w) t bs = some t')
    (hsame : only w tenant as = only w tenant bs) : Alike w tenant s' t' :=
  Run.follow_related (fun _ _ _ _ h hok hstep hc => h.step_other hok hstep hc)
    (fun _ _ _ _ h hok hstep hc => (h.symm.step_other hok hstep hc).symm)
    (fun _ _ _ _ _ h hok hok' hstep hstep' hc => h.step_both hok hok' hstep hstep' hc) h hs ht hsame

end Alike

/-! ### Identities -/

/-- Two identities are the same up to case and the white space around them. -/
def World.SameIdentity (w : World) (a b : String) : Prop :=
  ∃ before mid after before' mid' after', a.toList = before ++ (mid ++ after) ∧
    b.toList = before' ++ (mid' ++ after') ∧ (∀ c ∈ (before ++ after) ++ (before' ++ after'), isSpace c) ∧
    mid.map w.toLower = mid'.map w.toLower

theorem World.fingerprint_eq {w : World} {a b : String} (h : w.SameIdentity a b) :
    w.fingerprint a = w.fingerprint b := by
  obtain ⟨before, mid, after, before', mid', after', ha, hb, hspace, hmid⟩ := h
  simp only [List.mem_append] at hspace
  unfold World.fingerprint
  rw [ha, hb, trim_append (fun c hc => hspace c (.inl (.inl hc))) (fun c hc => hspace c (.inl (.inr hc))),
    trim_append (fun c hc => hspace c (.inr (.inl hc))) (fun c hc => hspace c (.inr (.inr hc))),
    map_trim w.isSpace_toLower, map_trim w.isSpace_toLower, hmid]

/-! ### Lockouts -/

/-- Nobody who is counted in the window of the key gives back. -/
def keeps (key : String) (s : State) : Action → Bool
  | .refund i | .clear i => !s.books.counts key i
  | .attempt _ _ | .tick _ => true

/-- Until `t`, the key shows a spent budget. -/
def Locked (w : World) (key : String) (t : Int) (s : State) : Prop :=
  s.now < t → ∃ n reset, s.throttle.seen s.now key = some (n, reset) ∧ w.limit key ≤ n ∧ t ≤ reset

section Locked

variable {w : World} {key : String} {i : Nat} {t : Int} {s u : State}

variable (h : Locked w key t s)
include h

/-- A locked key refuses. -/
theorem Locked.refusal_isSome (hnow : s.now < t) (hi : key = w.pair i ∨ key = w.client i) :
    refusal w (s.throttle.swept w.policy s.now) s.now i ≠ none := by
  obtain ⟨n, reset, hseen, hspent, -⟩ := h hnow
  intro hnone
  rw [refusal_eq, Option.or_eq_none_iff, seen_swept, seen_swept] at hnone
  have hfree : (s.throttle.seen s.now key).spent (w.limit key) s.now = none := by
    rcases hi with rfl | rfl
    · exact hnone.1
    · exact hnone.2
  rw [hseen, Budget.spent, if_neg (Int.not_lt.mpr hspent)] at hfree
  cases hfree

/-- One who is not counted under a locked key gives back under other keys. -/
theorem Locked.ne_of_stands (hnow : s.now < t) (hkeeps : !s.books.counts key i)
    (hok : stands s (w.pair i) i && stands s (w.client i) i) : key ≠ w.pair i ∧ key ≠ w.client i := by
  obtain ⟨n, reset, hseen, -⟩ := h hnow
  have hout : stands s key i = false := by
    rw [stands, hseen, (Bool.not_eq_true' _).mp hkeeps]
    rfl
  obtain ⟨hp, hc⟩ := Bool.and_eq_true_iff.mp hok
  constructor
  · rintro rfl
    exact Bool.false_ne_true (hout.symm.trans hp)
  · rintro rfl
    exact Bool.false_ne_true (hout.symm.trans hc)

theorem Locked.step {a : Action} (hok : proper w s a) (hkeeps : keeps key s a)
    (hs : Auth.step w s a = some u) : Locked w key t u := by
  cases a with
  | tick d =>
    cases hs
    intro ht
    have ht : s.now + d < t := ht
    obtain ⟨n, reset, hseen, hspent, hreset⟩ := h (by omega)
    refine ⟨n, reset, (seen_later d).trans ?_, hspent, hreset⟩
    rw [hseen]
    exact if_pos (by dsimp only; omega)
  | refund =>
    obtain ⟨-, rfl⟩ := step_refund hs
    intro ht
    obtain ⟨hp, hc⟩ := h.ne_of_stands ht hkeeps hok
    rw [seen_refund, if_neg (not_or.mpr ⟨hp, hc⟩)]
    exact h ht
  | clear =>
    obtain ⟨-, rfl⟩ := step_clear hs
    intro ht
    obtain ⟨hp, hc⟩ := h.ne_of_stands ht hkeeps hok
    rw [seen_clear, if_neg hp, if_neg hc]
    exact h ht
  | attempt i =>
    obtain ⟨-, hattempt⟩ := step_attempt hok hs
    cases hattempt with
    | refused =>
      intro ht
      rw [seen_swept]
      exact h ht
    | granted free =>
      intro ht
      have hkey : ¬(key = w.pair i ∨ key = w.client i) := fun hi => h.refusal_isSome ht hi free
      refine seen_countBoth.symm ▸ ?_
      rw [if_neg hkey, seen_swept]
      exact h ht

omit h

/-- The attempt that spends a budget locks its key. -/
theorem locked_of_grant {m : MemoryThrottle} (hkept : Kept w (s.grant w i m))
    (hi : key = w.pair i ∨ key = w.client i) (hlockout : 0 < w.policy.lockout) {x : Window}
    (hx : (s.grant w i m).books key = some x) (hspent : w.limit key ≤ x.units.length) :
    Locked w key (s.now + w.policy.lockout) (s.grant w i m) := by
  intro ht
  have hreset : x.reset = s.now + w.policy.lockout := by
    rw [books_grant, if_pos hi] at hx
    cases hx
    rw [List.length_cons] at hspent
    exact if_pos ⟨by omega, hlockout⟩
  refine ⟨x.units.length, x.reset, ?_, hspent, by omega⟩
  rw [hkept.shown, hx]
  exact if_pos (hreset ▸ ht)

end Locked

/-! ### The policy -/

/-- What the policy promises of a state. -/
structure Honoured (w : World) (s : State) : Prop where
  /-- Sign-ins of one tenant and client share the budget of the client, and those with the same identity,
  up to case and white space around it, the budget of the pair. -/
  shared : ∀ i j, (w.signIns i).tenant = (w.signIns j).tenant → (w.signIns i).client = (w.signIns j).client →
    w.client i = w.client j ∧
      (w.SameIdentity (w.signIns i).identity (w.signIns j).identity → w.pair i = w.pair j)
  /-- Those granted for a pair since its window was opened and until its reset that are neither refunded
  nor followed by a `Clear` of that pair. -/
  pair : ∀ i x, s.books (w.pair i) = some x → (x.units.length : Int) ≤ w.policy.maxFailures
  /-- Those granted for a client since its window was opened and until its reset that gave nothing back. -/
  client : ∀ i x, s.books (w.client i) = some x → (x.units.length : Int) ≤ w.policy.maxFailuresPerClient
  /-- An attempt that is granted and spends the budget of its pair or its client locks it for the time
  of the lockout, unless a sign-in counted in that budget gives back. -/
  locked : ∀ i order u, proper w s (.attempt i order) = true → step w s (.attempt i order) = some u →
    u.places i = .granted → 0 < w.policy.lockout → ∀ key x, key = w.pair i ∨ key = w.client i →
    u.books key = some x → w.limit key ≤ x.units.length →
    ∀ t, Run.Reach (step w) (fun s a => proper w s a && keeps key s a) u t →
    t.now < s.now + w.policy.lockout → ∀ j order u', key = w.pair j ∨ key = w.client j →
    proper w t (.attempt j order) = true → step w t (.attempt j order) = some u' →
    ∃ retry, u'.places j = .refused retry
  /-- A refused attempt changes nothing. -/
  refused : ∀ i order u retry, proper w s (.attempt i order) = true → step w s (.attempt i order) = some u →
    u.places i = .refused retry → u.now = s.now ∧ (∀ k, u.throttle.seen u.now k = s.throttle.seen s.now k) ∧
      (∀ j, j ≠ i → u.places j = s.places j) ∧ u.books = s.books

/-- **The throttle grants no more guesses than its policy**, where units are given back to the windows
they were taken from; and calls about one tenant change no answer about another. -/
theorem guesses_within_policy (w : World) {as : List Action} {s : State}
    (h : Run.follow (step w) (proper w) w.initial as = some s) :
    Honoured w s ∧ ∀ tenant bs t, Run.follow (step w) (proper w) w.initial bs = some t →
      only w tenant as = only w tenant bs →
      ∀ i, (w.signIns i).tenant = tenant → s.places i = t.places i := by
  have hkept : Kept w s :=
    (Run.reach_of_follow h).invariant (kept_initial w) fun _ _ _ hk hok hs => hk.step hok hs
  constructor
  · constructor
    case shared =>
      intro i j htenant hclient
      refine ⟨?_, fun hsame => ?_⟩
      · rw [World.client, World.client, htenant, hclient]
      · rw [World.pair, World.pair, htenant, hclient, World.fingerprint_eq hsame]
    case pair => exact fun i x hx => w.limit_pair i ▸ hkept.bounded _ x hx
    case client => exact fun i x hx => w.limit_client i ▸ hkept.bounded _ x hx
    case locked =>
      intro i order u hok hs hgranted hlockout key x hi hx hspent t hreach hnow j _ _ hj hok' hs'
      have hkept' := hkept.step hok hs
      obtain ⟨-, hattempt⟩ := step_attempt hok hs
      cases hattempt with
      | refused => cases (update_self ..).symm.trans hgranted
      | granted =>
        have hlocked := hreach.invariant (locked_of_grant hkept' hi hlockout hx hspent) fun t a u hl hok hs => by
          obtain ⟨hok, hkeeps⟩ := Bool.and_eq_true_iff.mp hok
          exact hl.step hok hkeeps hs
        obtain ⟨-, hattempt'⟩ := step_attempt hok' hs'
        cases hattempt' with
        | refused retry => exact ⟨retry, update_self ..⟩
        | granted free' => exact absurd free' (hlocked.refusal_isSome hnow hj)
    case refused =>
      intro i order u retry hok hs hrefused
      obtain ⟨-, hattempt⟩ := step_attempt hok hs
      cases hattempt with
      | refused => exact ⟨rfl, fun k => seen_swept, fun j hj => update_of_ne hj .., rfl⟩
      | granted => cases (update_self ..).symm.trans hrefused
  · intro tenant bs t ht hsame
    have hfirst : Alike w tenant w.initial w.initial := ⟨rfl, fun _ _ => rfl, fun _ _ => rfl⟩
    exact (hfirst.of_follow h ht hsame).places

/-- Sign-ins of one identity, written in two ways, from one address; two of them may fail in a minute. -/
def twice : World where
  policy := ⟨2, 10, 60, 0, by decide, by decide, by decide, by decide⟩
  signIns i := ⟨"acme", if i % 2 = 0 then "a@example.org" else " A@example.org", "10.0.0.1", by decide⟩
  toLower c := if c = 'A' then 'a' else c
  isSpace_toLower c := by
    split
    · next h => rw [h]; decide
    · rfl
  digest := id
  start := 0

/-- A sign-in that is refunded in its window leaves room for another, and then the pair is spent. -/
theorem guesses_within_policy_in_time : ∃ s, s.places 2 = .granted ∧ (∃ retry, s.places 3 = .refused retry) ∧
    twice.pair 0 = twice.pair 1 ∧ Honoured twice s := by
  obtain ⟨s, hs, hgranted⟩ : ∃ s, Run.follow (step twice) (proper twice) twice.initial
      [.attempt 0 [], .attempt 1 [], .refund 0, .attempt 2 [], .attempt 3 []] = some s ∧
      decide (s.places 2 = .granted ∧ s.places 3 = .refused 60) :=
    (Option.any_eq_true _ _).mp (by decide +kernel)
  obtain ⟨hgranted, hrefused⟩ := of_decide_eq_true hgranted
  exact ⟨s, hgranted, ⟨60, hrefused⟩, by decide +kernel, (guesses_within_policy twice hs).1⟩

/-- A refund that comes a window late: three guesses are granted in one window, and none of them gave
anything back. -/
theorem late_refund : ∃ s, Run.Reach (step twice) (fun _ _ => true) twice.initial s ∧ ¬Honoured twice s := by
  obtain ⟨s, hs, hthree⟩ : ∃ s, Run.Reach (step twice) (fun _ _ => true) twice.initial s ∧
      s.books (twice.pair 0) = some ⟨[3, 2, 1], 120⟩ :=
    Run.exists_reach [.attempt 0 [], .tick 60, .attempt 1 [], .attempt 2 [], .refund 0, .attempt 3 []]
      (by decide +kernel)
  exact ⟨s, hs, fun h => absurd (h.pair 0 _ hthree) (by decide)⟩

/-! ### The table is bounded -/

def MemoryThrottle.len (m : MemoryThrottle) : Nat := m.counters.keys.length

/-- The map hands over every key it has. -/
def ranges (w : World) (s : State) : Action → Bool
  | .attempt _ order => (s.throttle.swept w.policy s.now).counters.keys.all (· ∈ order)
  | _ => true

/-- A round over all keys evicts enough, however full the table is. -/
theorem length_evict : ∀ {order : List String} {t : Counters}, (∀ k ∈ t.keys, k ∈ order) →
    (MemoryThrottle.evict order t).keys.length ≤ maxTrackedSignIns - 2 := by
  intro order
  induction order with
  | nil =>
    intro t h
    have hkeys : t.keys = [] := List.eq_nil_iff_forall_not_mem.mpr fun k hk => nomatch h k hk
    simp [MemoryThrottle.evict, hkeys]
  | cons k order ih =>
    intro t h
    by_cases hroom : t.keys.length ≤ maxTrackedSignIns - 2
    · rwa [evict_of_le _ hroom]
    · rw [MemoryThrottle.evict, List.foldl_cons, if_neg hroom]
      refine ih fun x hx => ?_
      obtain ⟨hne, hx⟩ := AList.mem_erase.mp hx
      exact List.mem_of_ne_of_mem hne (h x hx)

theorem len_giveBack_le (m : MemoryThrottle) (k : String) : (m.giveBack k).len ≤ m.len := by
  unfold MemoryThrottle.giveBack MemoryThrottle.len
  split
  · exact Nat.le_refl _
  · next c hc =>
    have hk := AList.mem_keys.mp (AList.lookup_isSome.mp (Option.isSome_of_eq_some hc))
    split <;> grind [AList.keys_erase, AList.keys_insert]

/-- An attempt adds at most two counters, and has made room for them. -/
theorem len_attempt_le (m : MemoryThrottle) {policy : ThrottlePolicy} {now : Int} {order : List String}
    (h : ∀ k ∈ (m.swept policy now).counters.keys, k ∈ order) (pk ck : String) :
    (m.attempt policy pk ck now order).2.len ≤ maxTrackedSignIns := by
  have htrim : (m.trim policy now order).len ≤ maxTrackedSignIns - 2 := length_evict h
  have hcount (m : MemoryThrottle) (k : String) (limit : Int) : (m.count policy k limit now).len ≤ m.len + 1 := by
    grind [MemoryThrottle.count, MemoryThrottle.len, AList.keys_insert]
  grind [MemoryThrottle.attempt, maxTrackedSignIns]

/-- **The table is bounded**: whatever is attempted and given back, there are never more counters than
the cap. -/
theorem len_bounded {w : World} {s : State} (h : Run.Reach (step w) (ranges w) w.initial s) :
    s.throttle.len ≤ maxTrackedSignIns := by
  refine h.invariant (I := (·.throttle.len ≤ _)) (Nat.zero_le _) fun s a u hs hok hu => ?_
  cases a with
  | tick => cases hu; exact hs
  | refund i =>
    obtain ⟨-, rfl⟩ := step_refund hu
    exact (len_giveBack_le ..).trans ((len_giveBack_le ..).trans hs)
  | clear i =>
    obtain ⟨-, rfl⟩ := step_clear hu
    exact (len_giveBack_le ..).trans (Nat.le_trans (by grind [MemoryThrottle.len, AList.keys_erase]) hs)
  | attempt i order =>
    have hlen := len_attempt_le s.throttle (fun k hk => of_decide_eq_true (List.all_eq_true.mp hok k hk))
      (w.pair i) (w.client i)
    grind [step, State.grant]

/-- Sign-ins from three addresses, each attempt on the table the last one left. -/
theorem len_bounded_attempt : ∃ s : State, s.throttle.len = 4 ∧ s.throttle.len ≤ maxTrackedSignIns := by
  let w : World := { twice with signIns := fun i => ⟨"acme", "a@example.org", toString i, by decide⟩ }
  obtain ⟨s, hs, hfour⟩ : ∃ s, Run.Reach (step w) (ranges w) w.initial s ∧ s.throttle.len = 4 :=
    Run.exists_reach [.attempt 0 [], .attempt 1 [w.pair 0, w.client 0], .clear 0,
      .attempt 2 [w.client 1, w.pair 1]] (by decide +kernel)
  exact ⟨s, hfour, len_bounded hs⟩

end Hesape.Auth
