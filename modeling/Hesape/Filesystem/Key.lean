import Hesape.Auth.Tenant
import Hesape.Text.Paths

/-!
# The stored path of a key

A file is stored at the tenant of the `Grant`, a slash and the cleaned key.  `cleanKey` refuses a
key whose cleaned form would leave the tenant's directory, so what it accepts is one or more
proper parts with a slash between (`Clean`), and an accepted key is cleaned once and for all.
`prefixPath` is the same for a listing, where nothing at all names the whole tenant and a slash at
the end is kept.
-/

namespace Hesape.Filesystem

open Hesape.Text (Bytes)
open Hesape.Text.Path
open List

/-- What a `Grant` says to a disk: whose files, and whether it may only look. -/
structure Grant where
  tenant : Bytes
  readOnly : Bool

/-- What a file system answers when it refuses. -/
inductive Fault
  | notExist
  | notDir
  | isDir
  | notEmpty
  | invalid

inductive Err
  | noTenant (invalid : Option Bytes)
  | badKey
  | notFound
  | readOnly
  | driver (doing : String) (path : Bytes) (fault : Fault)
  | wrapped (op : String) (key : Bytes) (disk : String) (cause : Err)

/-- `errors.Is(err, ErrNotFound)` -/
def Err.isNotFound : Err → Bool
  | notFound => true
  | wrapped _ _ _ cause => cause.isNotFound
  | _ => false

/-! ### Tenants -/

/-- `ValidTenant`, of the bytes of a name. -/
def validTenant (tenant : Bytes) : Bool := Auth.tenantName UInt8.toNat tenant

/-- A tenant's name is one part of a path. -/
theorem proper_of_validTenant {tenant : Bytes} (h : validTenant tenant) : Proper tenant ∧ (0 : UInt8) ∉ tenant := by
  obtain ⟨hne, hchars⟩ := Auth.tenantName_codes h
  have hslash : (47 : UInt8) ∉ tenant := fun hm => by
    have := hchars 47 hm
    revert this
    decide
  have hdot : (46 : UInt8) ∉ tenant := fun hm => by
    have := hchars 46 hm
    revert this
    decide
  have hnul : (0 : UInt8) ∉ tenant := fun hm => by
    have := hchars 0 hm
    revert this
    decide
  refine ⟨⟨hne, hslash, ?_, ?_⟩, hnul⟩
  · rintro rfl
    exact hdot mem_cons_self
  · rintro rfl
    exact hdot mem_cons_self

/-! ### Keys -/

/-- `strings.TrimPrefix(key, "/")` -/
def trimSlash (key : Bytes) : Bytes := if key.head? = some 47 then key.tail else key

def cleanKey (key : Bytes) : Except Err Bytes :=
  if key = [] then .error .badKey
  else
    let clean := clean (trimSlash key)
    if clean = [46] ∨ clean = [47] ∨ up ++ [47] <+: clean ∨ clean = up then .error .badKey
    else if clean.head? = some 47 then .error .badKey
    else if 0 ∈ clean then .error .badKey
    else .ok clean

/-- `Key` -/
def key (g : Grant) (k : Bytes) : Except Err Bytes :=
  if g.tenant = [] then .error (.noTenant none)
  else if validTenant g.tenant = false then .error (.noTenant (some g.tenant))
  else (cleanKey k).map fun clean => g.tenant ++ 47 :: clean

def endsInSlash (p : Bytes) : Bool := p.getLast? = some 47

def prefixPath (g : Grant) (p : Bytes) : Except Err Bytes :=
  if g.tenant = [] then .error (.noTenant none)
  else if validTenant g.tenant = false then .error (.noTenant (some g.tenant))
  else if p = [] ∨ p = [47] then .ok (g.tenant ++ [47])
  else (cleanKey p).map fun clean => g.tenant ++ 47 :: (if endsInSlash p then clean ++ [47] else clean)

/-! ### What is accepted -/

/-- One or more proper parts with a slash between, and no NUL. -/
def Clean (c : Bytes) : Prop := (∃ l, l ≠ [] ∧ (∀ part ∈ l, Proper part) ∧ c = join l) ∧ (0 : UInt8) ∉ c

theorem join_up {n : Nat} {l : List Bytes} :
    join (replicate (n + 1) up ++ l) = up ∨ up ++ [47] <+: join (replicate (n + 1) up ++ l) := by
  rw [replicate_succ, cons_append]
  by_cases hrest : replicate n up ++ l = []
  · rw [hrest, join_singleton]
    exact .inl rfl
  · rw [join_cons hrest]
    exact .inr ⟨join (replicate n up ++ l), by simp⟩

/-- **An accepted key is proper parts with a slash between.** -/
theorem clean_of_cleanKey {k c : Bytes} (h : cleanKey k = .ok c) : Clean c ∧ c = clean (trimSlash k) := by
  unfold cleanKey at h
  dsimp only at h
  split_ifs at h with hnil hrefused habs hnul
  cases h
  refine ⟨⟨?_, hnul⟩, rfl⟩
  simp only [not_or] at hrefused
  obtain ⟨hdot, -, hups, hup⟩ := hrefused
  obtain ⟨n, l, hparts, hl, -⟩ := parts_kept false (trimSlash k)
  have hrel : (trimSlash k).head? ≠ some 47 := by
    intro hhead
    rw [clean, if_pos hhead] at habs
    exact habs rfl
  by_cases hempty : parts false (trimSlash k) = []
  · rw [clean, if_neg hrel, if_pos hempty] at hdot
    exact absurd rfl hdot
  · have hclean : clean (trimSlash k) = join (parts false (trimSlash k)) := by
      rw [clean, if_neg hrel, if_neg hempty]
    cases n with
    | zero =>
      rw [replicate_zero, nil_append] at hparts
      rw [hparts] at hempty hclean
      exact ⟨l, hempty, hl, hclean⟩
    | succ =>
      rw [hclean, hparts] at hups hup
      rcases join_up with heq | hpre
      · exact absurd heq hup
      · exact absurd hpre hups

variable {c : Bytes}

theorem Clean.ne_nil (h : Clean c) : c ≠ [] := by
  obtain ⟨⟨l, hne, hl, rfl⟩, -⟩ := h
  exact join_ne_nil hne hl

theorem Clean.head (h : Clean c) : c.head? ≠ some 47 := by
  obtain ⟨⟨l, -, hl, rfl⟩, -⟩ := h
  exact head_join hl

/-- A clean path does not begin above itself. -/
theorem Clean.not_up (h : Clean c) : c ≠ up ∧ ¬ up ++ [47] <+: c ∧ c ≠ [46] := by
  obtain ⟨⟨l, hne, hl, rfl⟩, -⟩ := h
  have hsplit := splitOn_join hne hl
  have hproper : ∀ part ∈ (join l).splitOn 47, Proper part := by rwa [hsplit]
  refine ⟨fun heq => ?_, ?_, fun heq => ?_⟩
  · rw [heq] at hproper
    exact not_proper_up (hproper up (by decide))
  · rintro ⟨_, hrest⟩
    rw [← hrest, append_assoc, singleton_append, splitOn_append_cons_self] at hproper
    exact not_proper_up (hproper up (mem_append_left _ (by decide)))
  · rw [heq] at hproper
    exact (hproper [46] (by decide)).2.2.1 rfl

/-- A key that is clean already is accepted as it is, a slash after it or not. -/
theorem cleanKey_of_clean {c k : Bytes} (h : Clean c) (hk : k = c ∨ k = c ++ [47]) : cleanKey k = .ok c := by
  obtain ⟨b, _, hb⟩ := exists_cons_of_ne_nil h.ne_nil
  have hhead : k.head? ≠ some 47 := by
    have := h.head
    rcases hk with rfl | rfl
    · exact this
    · rw [hb] at this ⊢
      simpa using this
  have hne : k ≠ [] := by
    rcases hk with rfl | rfl
    · exact h.ne_nil
    · simp
  have htrim : trimSlash k = k := if_neg hhead
  have hclean : clean k = c := by
    obtain ⟨⟨l, hl, hproper, rfl⟩, -⟩ := h
    exact clean_of_proper hl hproper hk
  obtain ⟨hup, hups, hdot⟩ := h.not_up
  have hroot : c ≠ [47] := fun heq => h.head (heq ▸ rfl)
  simp only [cleanKey]
  rw [if_neg hne, htrim, hclean, if_neg (by simp [hdot, hroot, hups, hup]), if_neg h.head, if_neg h.2]

/-- A slash after a key changes nothing. -/
theorem cleanKey_append_slash {k : Bytes} (hne : k ≠ []) (hlast : endsInSlash k = false) : cleanKey (k ++ [47]) = cleanKey k := by
  obtain ⟨b, rest, rfl⟩ := exists_cons_of_ne_nil hne
  have htrim : trimSlash (b :: rest ++ [47]) = trimSlash (b :: rest) ++ [47] := by
    by_cases hb : b = 47
    · subst hb
      rfl
    · rw [trimSlash, if_neg (by simpa using hb), trimSlash, if_neg (by simpa using hb)]
  have htrimmed : trimSlash (b :: rest) ≠ [] := by
    unfold trimSlash
    split_ifs with hb
    · rintro hrest
      rw [tail_cons] at hrest
      subst hrest
      rw [head?_cons] at hb
      simp [endsInSlash, Option.some.inj hb] at hlast
    · exact cons_ne_nil _ _
  simp only [cleanKey, htrim, clean_append_slash htrimmed]
  rw [if_neg (by simp), if_neg (cons_ne_nil _ _)]

/-! ### What reaches a driver -/

/-- A path of the tenant's own: its name, a slash and a clean path. -/
def Named (tenant path : Bytes) : Prop := ∃ c, Clean c ∧ path = tenant ++ 47 :: c

/-- What a listing asks for under the tenant's name: everything, or what begins with a clean path,
a slash after it or not. -/
def Listed (tenant path : Bytes) : Prop :=
  path = tenant ++ [47] ∨ Named tenant path ∨ ∃ c, Clean c ∧ path = tenant ++ 47 :: (c ++ [47])

theorem ok_of_map {k path : Bytes} {f : Bytes → Bytes} (h : (cleanKey k).map f = .ok path) :
    ∃ c, cleanKey k = .ok c ∧ Clean c ∧ path = f c := by
  cases hk : cleanKey k with
  | error =>
    rw [hk] at h
    cases h
  | ok c =>
    rw [hk] at h
    cases h
    exact ⟨c, rfl, (clean_of_cleanKey hk).1, rfl⟩

theorem named_of_key {g : Grant} {k path : Bytes} (h : key g k = .ok path) :
    validTenant g.tenant ∧ Named g.tenant path := by
  unfold key at h
  split_ifs at h with hnone hvalid
  obtain ⟨c, -, hc, rfl⟩ := ok_of_map h
  exact ⟨by simpa using hvalid, c, hc, rfl⟩

theorem listed_of_prefixPath {g : Grant} {p path : Bytes} (h : prefixPath g p = .ok path) :
    validTenant g.tenant ∧ Listed g.tenant path := by
  unfold prefixPath at h
  split_ifs at h with hnone hvalid hall hslash
  · cases h
    exact ⟨by simpa using hvalid, .inl rfl⟩
  · obtain ⟨c, -, hc, rfl⟩ := ok_of_map h
    exact ⟨by simpa using hvalid, .inr (.inr ⟨c, hc, rfl⟩)⟩
  · obtain ⟨c, -, hc, rfl⟩ := ok_of_map h
    exact ⟨by simpa using hvalid, .inr (.inl ⟨c, hc, rfl⟩)⟩

variable {tenant path : Bytes}

theorem Named.begins (h : Named tenant path) : tenant ++ [47] <+: path := by
  obtain ⟨c, -, rfl⟩ := h
  exact ⟨c, by simp⟩

theorem Listed.begins (h : Listed tenant path) : tenant ++ [47] <+: path := by
  rcases h with rfl | h | ⟨c, -, rfl⟩
  · exact prefix_refl _
  · exact h.begins
  · exact ⟨c ++ [47], by simp⟩

end Hesape.Filesystem
