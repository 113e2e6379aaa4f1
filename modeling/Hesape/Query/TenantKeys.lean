import Hesape.Query.InsertRows
import Mathlib.Data.List.Dedup

/-!
# The keys that reach the tenant column

`withoutTenantColumn` takes out of a map of values every key that `NamesColumn` reads as the
tenant column.  Each grammar then reads the keys that are left in its own way: MySQL cuts a
JSON path off in front of its first arrow, Postgres looks behind the last dot first, SQLite
collects the paths behind the first dot into one document for each column.  `leftSide` is
the column a grammar writes on the left of an assignment, and `tenantOnly_of_agreeing` says on
which maps nothing but the grant's tenant reaches the tenant column.

Keys are Go strings and the grammars cut them at byte positions, so a key is the list of its
bytes, each written as the character of its number.  Where the bytes are ASCII the functions of
`CompileWrite` cut a key in the same places (`lastSegment_eq`, `namesTenant_eq`).  The maps of an
update are lists of their entries, since in what order a set list names its columns does not
matter; the rows of an insert are in key order, since they are sent that way.
-/

namespace Hesape.Query.Keys

open Sql (KeyMap placeholders)
open List

/-- A Go string by its bytes. -/
abbrev Text := List Char

/-- `TenantColumn`. -/
def tenantKey : Text := ['t', 'e', 'n', 'a', 'n', 't', '_', 'i', 'd']

/-- What `strings` does by the tables of Unicode: lowering, which may change how many bytes a
letter takes, and trimming, which takes away white space. -/
structure Unicode where
  lower : Text → Text
  lower_ascii : ∀ s : Text, (∀ c ∈ s, c.toNat < 128) → lower s = s.map Char.toLower
  trimSpace : Text → Text
  trim_ascii : ∀ s : Text, (∀ c ∈ s, c.toNat < 128) → trimSpace s = Text.trim Text.isSpace s
  trimmed : ∀ s, ∃ a b, s = a ++ (trimSpace s ++ b)
    ∧ ∀ c ∈ a ++ b, c.toNat ≤ 32 ∨ 128 ≤ c.toNat

/-! ### Cutting keys -/

/-- `after` with a dot. -/
def afterDot (s : Text) : Text := if '.' ∈ s then (s.dropWhile (· ≠ '.')).tail else s

/-- `strings.LastIndex` of a dot. -/
def lastDot (s : Text) : Option Nat :=
  if '.' ∈ s then some (s.length - 1 - (afterLastDot s).length) else none

def beforeArrow (s : Text) : Text := (splitArrow s).headD []

section Reading

variable (U : Unicode)

def bareColumn (s : Text) : Text := Text.trim inCutset (afterLastDot (U.trimSpace s))

/-- `NamesColumn` of the tenant column.  No letter beyond ASCII folds to one of its own. -/
def namesTenant (s : Text) : Bool := (bareColumn U s).map Char.toLower == tenantKey

/-- `lastSegment`: the dot is looked for in the lowered text and the text itself is cut there,
which panics where the text is shorter. -/
def lastSegment (s : Text) : Option Text :=
  match lastDot (U.lower s) with
  | none => some s
  | some i => if i + 1 ≤ s.length then some (s.drop (i + 1)) else none

end Reading

/-- `\s` of a regular expression. -/
def isBlank (c : Char) : Bool := c ∈ ['\t', '\n', '\x0c', '\r', ' ']

/-- The rest of `as` and white space.  A long s, two bytes, folds to an `s`. -/
def endsAs : Text → Bool
  | 's' :: c :: _ => isBlank c
  | 'S' :: c :: _ => isBlank c
  | '\xc5' :: '\xbf' :: c :: _ => isBlank c
  | _ => false

def startsAs : Text → Bool
  | 'a' :: r => endsAs r
  | 'A' :: r => endsAs r
  | _ => false

/-- Whether `aliasSplit` finds an alias. -/
def isAliased : Text → Bool
  | [] => false
  | c :: r => isBlank c && startsAs r || isAliased r

/-- The column `Wrap` writes; with an alias or as a JSON selector it is none that can be
assigned to. -/
def wrapTarget (s : Text) : Option Text :=
  if isAliased s || hasArrow s then none else some (afterLastDot s)

/-! ### Assignments -/

/-- What an assignment sets a column to: a value, or a document with a path of it replaced. -/
inductive Assigned (V : Type)
  | value (v : V)
  | path
  deriving DecidableEq

structure Assignment (V : Type) where
  key : Text
  rhs : Assigned V

def Assigned.isPath {V : Type} : Assigned V → Bool
  | value _ => false
  | path => true

/-- The column `groupJSONColumnsForUpdate` files a JSON path under. -/
def groupKey (s : Text) : Text := (beforeArrow (afterDot s)).takeWhile (· ≠ '.')

section Columns

variable (U : Unicode) (d : Dialect)

/-- The left side of an assignment of `CompileUpdateColumns`: no text where the grammar panics,
and no column where the text is not one. -/
def leftSide (key : Text) (isPath : Bool) : Option (Option Text) :=
  match d with
  | .mysql | .mariadb => some (wrapTarget (if isPath then beforeArrow key else key))
  | .postgres => (lastSegment U key).map fun c => wrapTarget (if isPath then beforeArrow c else c)
  | .sqlite => (lastSegment U key).map wrapTarget

/-- Postgres resolves a quoted name as it is, the others in any case. -/
def isTenant (name : Text) : Bool :=
  match d with
  | .postgres => name == tenantKey
  | _ => name.map Char.toLower == tenantKey

variable {V : Type}

/-- The set list.  SQLite lets the document of a column replace a value given for it. -/
def assignments (values : List (Text × V)) : List (Assignment V) :=
  match d with
  | .sqlite =>
    let groups := ((values.filter fun e => hasArrow e.1).map fun e => groupKey e.1).dedup
    (values.filter fun e => !hasArrow e.1 && !groups.contains e.1).map
      (fun e => ⟨e.1, .value e.2⟩) ++ groups.map fun k => ⟨k, .path⟩
  | _ => values.map fun e => ⟨e.1, if hasArrow e.1 then .path else .value e.2⟩

/-- `withoutTenantColumn`. -/
def withoutTenant (values : List (Text × V)) : List (Text × V) :=
  values.filter fun e => !namesTenant U e.1

/-- `prepareUpdateValues`, the map that is compiled. -/
def prepareUpdateValues (tenant : V) (values : List (Text × V)) : List (Text × V) :=
  if values.any fun e => namesTenant U e.1 then (tenantKey, tenant) :: withoutTenant U values
  else withoutTenant U values

/-- `stampTenant`, a key being the text of its bytes. -/
def stampTenant (tenant : String) (rows : List (KeyMap Val)) : List (KeyMap Val) :=
  rows.map fun row =>
    (row.filter fun k _ => !namesTenant U k.toList).insert tenantColumn (.str tenant)

/-- The cells of a values list at its placeholders. -/
def places (rows : List (KeyMap Val)) : List Cell :=
  (writtenCells rows).flatMap fun c => (placeholders (parameter c.value)).map fun _ => c

inductive TenantWrite
  | update (values : List (Text × Val))
  | insert (first : KeyMap Val) (rest : List (KeyMap Val))

def Assignment.left (a : Assignment V) : Option (Option Text) := leftSide U d a.key a.rhs.isPath

/-- The left side is the tenant column. -/
def reaching (left : Option (Option Text)) : Bool := left.join.any (isTenant d)

/-- The only assignment to the tenant column, if there is one, assigns the grant's tenant.  An insert
sends the values of each row in the order of that row's own keys, the expressions left out, to
the placeholders written for the columns of the first; it is refused when their numbers differ. -/
def TenantOnly (tenant : String) : TenantWrite → Prop
  | .update values =>
    let sets := assignments d (prepareUpdateValues U (.str tenant) values)
    (∀ a ∈ sets, a.left U d ≠ none) → ∀ a ∈ sets, reaching d (a.left U d) →
      a.rhs = .value (.str tenant) ∧ ∀ b ∈ sets, reaching d (b.left U d) → b.key = a.key
  | .insert first rest =>
    let rows := stampTenant U tenant (first :: rest)
    let sent := cleanBindings (flattenRows rows)
    (∀ c ∈ writtenCells rows, reaching d (some (wrapTarget c.column.toList)) →
        c.column = tenantColumn ∧ c.bound)
      ∧ ((places rows).length = sent.length → ∀ p ∈ (places rows).zip sent,
        reaching d (some (wrapTarget p.1.column.toList)) → p.2 = .str tenant)

/-- The left side a key of a map of values ends up on. -/
def keyLeft (k : Text) : Option (Option Text) :=
  leftSide U d (if hasArrow k && d = .sqlite then groupKey k else k) (hasArrow k)

/-- A key left in the map that the grammar takes for the tenant column stops the statement, or is
no path, has the grant's tenant for its value and is alone.  The rows of an insert have the
columns of the first. -/
def Agreeing (tenant : String) : TenantWrite → Prop
  | .update values =>
    (∃ e ∈ withoutTenant U values, keyLeft U d e.1 = none) ∨
    ∀ e ∈ withoutTenant U values, reaching d (keyLeft U d e.1) →
      hasArrow e.1 = false ∧ e.2 = .str tenant ∧ (∀ f ∈ values, namesTenant U f.1 = false)
        ∧ ∀ f ∈ withoutTenant U values, reaching d (keyLeft U d f.1) → f.1 = e.1
  | .insert first rest => Regular (stampTenant U tenant (first :: rest))

instance (tenant : String) (w : TenantWrite) : Decidable (TenantOnly U d tenant w) :=
  match w with
  | .update _ => inferInstanceAs (Decidable (_ → _))
  | .insert _ _ => inferInstanceAs (Decidable (_ ∧ _))

end Columns

/-! ### The tenant column under its own name -/

theorem forall_of_all {P : Char → Prop} [DecidablePred P] {s : Text}
    (h : (s.all fun c => decide (P c))) : ∀ c ∈ s, P c := by
  simpa [all_eq_true] using h

theorem afterLastDot_append {q n : Text} (hn : ∀ c ∈ n, c ≠ '.')
    (hq : q = [] ∨ ∃ p, q = p ++ ['.']) : afterLastDot (q ++ n) = n := by
  have htake : n.reverse.takeWhile (· ≠ '.') = n.reverse :=
    takeWhile_eq_self_iff.mpr fun c hc => by simpa using hn c (mem_reverse.mp hc)
  rw [afterLastDot, rtakeWhile, reverse_append]
  rcases hq with rfl | ⟨p, rfl⟩
  · rw [reverse_nil, append_nil, htake, reverse_reverse]
  · rw [takeWhile_append, htake, if_pos rfl]
    simp

/-- A key is what stands up to its last dot and what stands behind it. -/
theorem exists_afterLastDot (s : Text) : (∀ c ∈ afterLastDot s, c ≠ '.')
    ∧ ∃ q, s = q ++ afterLastDot s ∧ (q = [] ∨ ∃ p, q = p ++ ['.']) := by
  have hs := takeWhile_append_dropWhile (p := (· ≠ '.')) (l := s.reverse)
  refine ⟨fun c hc => ?_, (s.reverse.dropWhile (· ≠ '.')).reverse, ?_, ?_⟩
  · simpa using mem_rtakeWhile_imp hc
  · rw [afterLastDot, rtakeWhile, ← reverse_append, hs, reverse_reverse]
  · cases hd : s.reverse.dropWhile (· ≠ '.') with
    | nil => exact .inl rfl
    | cons c r =>
      have hc : c = '.' := by
        have := head?_dropWhile_not (· ≠ '.') s.reverse
        rw [hd] at this
        simpa using this
      exact .inr ⟨r.reverse, by rw [hc, reverse_cons]⟩

/-- The letters of the tenant column in either case. -/
theorem plain_of_toLower {c : Char} (h : c.toLower ∈ tenantKey) :
    32 < c.toNat ∧ c.toNat < 128 ∧ inCutset c = false := by
  unfold Char.toLower at h
  split at h
  · next hc =>
    have hc : 65 ≤ c.toNat ∧ c.toNat ≤ 90 := by simpa [UInt32.le_iff_toNat_le] using hc
    refine ⟨by omega, by omega, ?_⟩
    have hne : ∀ d : Char, d.toNat < 65 ∨ 90 < d.toNat → c ≠ d := by
      rintro d _ rfl
      omega
    simp only [inCutset, decide_eq_false_iff_not, mem_cons, not_mem_nil, or_false, not_or]
    exact ⟨hne _ (by decide), hne _ (by decide), hne _ (by decide), hne _ (by decide),
      hne _ (by decide), hne _ (by decide), hne _ (by decide), hne _ (by decide)⟩
  · have hall : ∀ c ∈ tenantKey, 32 < c.toNat ∧ c.toNat < 128 ∧ inCutset c = false :=
      forall_of_all rfl
    exact hall c h

/-- Trimming leaves the end of a key that is printable. -/
theorem trimSpace_append (U : Unicode) {q n : Text} (hne : n ≠ [])
    (hn : ∀ c ∈ n, 32 < c.toNat ∧ c.toNat < 128) :
    ∃ p r, q = p ++ r ∧ U.trimSpace (q ++ n) = r ++ n := by
  obtain ⟨a, b, hs, hab⟩ := U.trimmed (q ++ n)
  have hapart : ∀ {c : Char}, c ∈ a ++ b → c ∈ n → False := by
    intro c h₁ h₂
    have h₁ := hab c h₁
    have h₂ := hn c h₂
    omega
  have hb : b = [] := by
    rw [← append_assoc] at hs
    rcases append_eq_append_iff.mp hs with ⟨e, -, he⟩ | ⟨e, -, he⟩
    · exact eq_nil_iff_forall_not_mem.mpr fun c hc => hapart (mem_append_right _ hc)
        (he ▸ mem_append_right _ hc)
    · obtain ⟨c, hc⟩ := exists_mem_of_ne_nil n hne
      exact (hapart (mem_append_right _ (he ▸ mem_append_right _ hc)) hc).elim
  rw [hb, append_nil] at hs
  rcases append_eq_append_iff.mp hs with ⟨e, ha, he⟩ | ⟨e, hq, ht⟩
  · have hnil : e = [] := eq_nil_iff_forall_not_mem.mpr fun c hc =>
      hapart (mem_append_left _ (ha ▸ mem_append_right _ hc))
        (he ▸ mem_append_left _ hc)
    subst hnil
    exact ⟨q, [], by simp, by simpa using he.symm⟩
  · exact ⟨a, e, hq, ht⟩

/-- **The guard knows the tenant column behind the last dot**, whatever stands in front. -/
theorem namesTenant_of_afterLastDot (U : Unicode) {k : Text}
    (h : (afterLastDot k).map Char.toLower = tenantKey) : namesTenant U k := by
  obtain ⟨hdot, q, hk, hq⟩ := exists_afterLastDot k
  have hplain := fun c (hc : c ∈ afterLastDot k) =>
    plain_of_toLower (h ▸ mem_map_of_mem hc : Char.toLower c ∈ tenantKey)
  have hne : afterLastDot k ≠ [] := by
    intro he
    rw [he] at h
    exact absurd h (by decide)
  obtain ⟨p, r, hqr, htrim⟩ := trimSpace_append U (q := q) hne
    fun c hc => ⟨(hplain c hc).1, (hplain c hc).2.1⟩
  rw [← hk] at htrim
  have hr : r = [] ∨ ∃ t, r = t ++ ['.'] := by
    rcases eq_nil_or_concat r with hr | ⟨t, c, hr⟩
    · exact .inl hr
    · rcases hq with hq | ⟨u, hq⟩
      · simp [hr, hq] at hqr
      · rw [hr, hq, concat_eq_append, ← append_assoc] at hqr
        exact .inr ⟨t, by rw [hr, concat_eq_append, (append_inj' hqr rfl).2]⟩
  rw [namesTenant, bareColumn, htrim, afterLastDot_append hdot hr,
    Text.trim_eq_self, h]
  · exact beq_self_eq_true _
  · exact fun c hc => by simp [(hplain c (mem_of_head? hc)).2.2]
  · exact fun c hc => by simp [(hplain c (mem_of_getLast? hc)).2.2]

theorem lower_of_isTenant {d : Dialect} {n : Text} (h : isTenant d n) :
    n.map Char.toLower = tenantKey := by
  cases d with
  | postgres => rw [beq_iff_eq.mp h]; rfl
  | _ => exact beq_iff_eq.mp h

/-- What an insert or a set list takes for the tenant column is known to the guard. -/
theorem namesTenant_of_reaching (U : Unicode) {d : Dialect} {k : Text}
    (h : reaching d (some (wrapTarget k))) : namesTenant U k := by
  unfold wrapTarget at h
  split at h
  · cases h
  · have hten : isTenant d (afterLastDot k) := h
    exact namesTenant_of_afterLastDot U (lower_of_isTenant hten)

theorem tenantKey_unpathed : hasArrow tenantKey = false := rfl

/-! ### Keys and assignments -/

section Sets

variable {U : Unicode} {d : Dialect} {V : Type} {values : List (Text × V)}

variable {e : Text × V}

/-- Every key ends up on the left of an assignment. -/
theorem exists_assignment (he : e ∈ values) :
    ∃ a ∈ assignments d values, a.left U d = keyLeft U d e.1 := by
  cases hd : decide (d = .sqlite) with
  | false =>
    have hne : d ≠ .sqlite := of_decide_eq_false hd
    refine ⟨⟨e.1, if hasArrow e.1 then .path else .value e.2⟩, ?_, ?_⟩
    · cases d <;> first | exact absurd rfl hne | exact mem_map_of_mem he
    · cases ha : hasArrow e.1 <;> simp [Assignment.left, keyLeft, ha, hd, Assigned.isPath]
  | true =>
    obtain rfl := of_decide_eq_true hd
    simp only [assignments, mem_append, mem_map, mem_filter, mem_dedup]
    cases ha : hasArrow e.1 with
    | true =>
      exact ⟨⟨groupKey e.1, .path⟩, .inr ⟨_, ⟨e, ⟨he, ha⟩, rfl⟩, rfl⟩, by
        simp [Assignment.left, keyLeft, ha, leftSide]⟩
    | false =>
      by_cases hg : ∃ f, (f ∈ values ∧ hasArrow f.1) ∧ groupKey f.1 = e.1
      · exact ⟨⟨e.1, .path⟩, .inr ⟨e.1, hg, rfl⟩, by simp [Assignment.left, keyLeft, ha, leftSide]⟩
      · refine ⟨⟨e.1, .value e.2⟩, .inl ⟨e, ⟨he, ?_⟩, rfl⟩, by
          simp [Assignment.left, keyLeft, ha, leftSide]⟩
        simpa [ha, mem_dedup] using hg

/-- Every assignment comes from a key. -/
theorem exists_key {a : Assignment V} (h : a ∈ assignments d values) :
    ∃ e ∈ values, a.left U d = keyLeft U d e.1
      ∧ (hasArrow e.1 = false → a.rhs = .value e.2 ∧ a.key = e.1) := by
  cases hd : decide (d = .sqlite) with
  | false =>
    have hne : d ≠ .sqlite := of_decide_eq_false hd
    obtain ⟨e, he, rfl⟩ : ∃ e ∈ values,
        (⟨e.1, if hasArrow e.1 then .path else .value e.2⟩ : Assignment V) = a := by
      cases d <;> first | exact absurd rfl hne | exact mem_map.mp h
    refine ⟨e, he, ?_, fun ha => ?_⟩
    · cases ha : hasArrow e.1 <;> simp [Assignment.left, keyLeft, ha, hd, Assigned.isPath]
    · simp [ha]
  | true =>
    obtain rfl := of_decide_eq_true hd
    simp only [assignments, mem_append, mem_map, mem_filter, mem_dedup] at h
    rcases h with ⟨e, ⟨he, hplain⟩, rfl⟩ | ⟨k, ⟨e, ⟨he, ha⟩, rfl⟩, rfl⟩
    · have ha : hasArrow e.1 = false := by
        cases ha : hasArrow e.1 with
        | false => rfl
        | true => simp [ha] at hplain
      exact ⟨e, he, by simp [Assignment.left, keyLeft, ha, leftSide], fun _ => ⟨rfl, rfl⟩⟩
    · exact ⟨e, he, by simp [Assignment.left, keyLeft, ha, leftSide], fun h => by simp [ha] at h⟩

variable {tenant : V}

theorem mem_prepareUpdateValues : e ∈ prepareUpdateValues U tenant values ↔
    (e = (tenantKey, tenant) ∧ ∃ f ∈ values, namesTenant U f.1)
      ∨ e ∈ withoutTenant U values := by
  unfold prepareUpdateValues
  split
  · next h => simp [any_eq_true.mp h]
  · next h =>
    have : ¬ ∃ f ∈ values, namesTenant U f.1 := fun hf => h (any_eq_true.mpr hf)
    simp only [this, and_false, false_or]

end Sets

/-! ### Where nothing else reaches the column -/

section Agree

variable {U : Unicode} {d : Dialect} {tenant : String}

/-- The set list of an update. -/
theorem update_tenantOnly {values : List (Text × Val)} (h : Agreeing U d tenant (.update values)) :
    TenantOnly U d tenant (.update values) := by
  rintro hall a ha har
  rcases h with ⟨e, he, hstop⟩ | hagree
  · have he' : e ∈ prepareUpdateValues U (.str tenant) values := mem_prepareUpdateValues.mpr (.inr he)
    obtain ⟨b, hb, hleft⟩ := exists_assignment (U := U) (d := d) he'
    exact absurd (hleft.trans hstop) (hall b hb)
  -- Either the tenant's own key is the only one that reaches the column, or one left in is.
  have hone : ∀ {e f : Text × Val}, e ∈ prepareUpdateValues U (.str tenant) values →
      f ∈ prepareUpdateValues U (.str tenant) values → reaching d (keyLeft U d e.1) →
      reaching d (keyLeft U d f.1) → hasArrow e.1 = false ∧ e.2 = .str tenant ∧ f.1 = e.1 := by
    intro e f he hf her hfr
    rcases mem_prepareUpdateValues.mp he with ⟨rfl, g, hg, hgn⟩ | he
    · rcases mem_prepareUpdateValues.mp hf with ⟨rfl, -⟩ | hf
      · exact ⟨tenantKey_unpathed, rfl, rfl⟩
      · have := (hagree f hf hfr).2.2.1 g hg
        rw [hgn] at this; cases this
    · obtain ⟨harrow, hval, hnot, hsame⟩ := hagree e he her
      rcases mem_prepareUpdateValues.mp hf with ⟨rfl, g, hg, hgn⟩ | hf
      · rw [hnot g hg] at hgn; cases hgn
      · exact ⟨harrow, hval, hsame f hf hfr⟩
  obtain ⟨e, he, hel, hset⟩ := exists_key (U := U) ha
  have her : reaching d (keyLeft U d e.1) := hel ▸ har
  obtain ⟨harrow, hval, -⟩ := hone he he her her
  obtain ⟨hrhs, hkey⟩ := hset harrow
  refine ⟨hval ▸ hrhs, fun b hb hbr => ?_⟩
  obtain ⟨f, hf, hfl, hfset⟩ := exists_key (U := U) hb
  have hfr : reaching d (keyLeft U d f.1) := hfl ▸ hbr
  rw [(hfset (hone hf hf hfr hfr).1).2, hkey]
  exact (hone he hf her hfr).2.2

/-- The cells of an insert that stand under the tenant column hold the tenant. -/
theorem writtenCells_tenant {first : KeyMap Val} {rest : List (KeyMap Val)} {c : Cell}
    (hc : c ∈ writtenCells (stampTenant U tenant (first :: rest)))
    (hr : reaching d (some (wrapTarget c.column.toList))) :
    c.column = tenantColumn ∧ c.value = .str tenant := by
  obtain ⟨r, hrow, hcol, hval⟩ := mem_writtenCells.mp hc
  have hname : c.column = tenantColumn := by
    obtain ⟨e, he, hec⟩ := mem_map.mp (show c.column ∈ KeyMap.keys _ from hcol)
    rcases Sql.key_mem_insertEntry he with hk | he
    · exact hec ▸ hk
    · have hnot : (!namesTenant U e.1.toList) = true := (mem_filter.mp he).2
      rw [hec, namesTenant_of_reaching U hr] at hnot
      cases hnot
  obtain ⟨m, -, rfl⟩ := mem_map.mp (mem_of_getElem? hrow)
  rw [hname] at hval
  exact ⟨hname, hval.symm.trans (valueAt_of_mem (e := (tenantColumn, .str tenant))
    (Sql.mem_insertEntry_self _ _ _))⟩

theorem places_of_regular {rows : List (KeyMap Val)} (h : Regular rows) :
    places rows = (writtenCells rows).filter Cell.bound := by
  have hcell : ∀ c ∈ writtenCells rows,
      ((placeholders (parameter c.value)).map fun _ => c) = if c.bound then [c] else [] := by
    intro c hc
    rw [(placeholders_parameter_iff _).mpr (unmarked_of_regular h hc), Val.binding, Cell.bound]
    cases c.value.isExpression <;> rfl
  rw [places, flatMap_congr hcell]
  induction writtenCells rows with
  | nil => rfl
  | cons c r ih => rw [flatMap_cons, ih, filter_cons]; split <;> rfl

/-- The values list of an insert. -/
theorem insert_tenantOnly {first : KeyMap Val} {rest : List (KeyMap Val)}
    (h : Agreeing U d tenant (.insert first rest)) : TenantOnly U d tenant (.insert first rest) := by
  refine ⟨fun c hc hr => ?_, fun _ p hp hr => ?_⟩
  · obtain ⟨hname, hval⟩ := writtenCells_tenant hc hr
    exact ⟨hname, by rw [Cell.bound, hval]; rfl⟩
  · -- The rows line up, so each place is sent its own cell's value.
    rw [places_of_regular h, ← givenCells_value, cleanBindings_value, cells_eq_of_regular h] at hp
    obtain ⟨i, hi⟩ := mem_iff_getElem?.mp hp
    rw [getElem?_zip_eq_some, getElem?_map] at hi
    obtain ⟨hcell, hsent⟩ := hi
    rw [hcell, Option.map_some, Option.some.injEq] at hsent
    rw [← hsent]
    exact (writtenCells_tenant (mem_of_mem_filter (mem_of_getElem? hcell)) hr).2

end Agree

/-! ### Some tables -/

/-- ASCII letters and `Ⱥ` lowered, two bytes becoming three. -/
def lowerBytes : Text → Text
  | '\xc8' :: '\xba' :: r => '\xe2' :: '\xb1' :: '\xa5' :: lowerBytes r
  | c :: r => c.toLower :: lowerBytes r
  | [] => []

theorem lowerBytes_ascii (s : Text) (h : ∀ c ∈ s, c.toNat < 128) :
    lowerBytes s = s.map Char.toLower := by
  fun_induction lowerBytes s with
  | case1 r ih => exact absurd (h '\xc8' mem_cons_self) (by decide)
  | case2 c r hne ih => rw [map_cons, ih fun d hd => h d (mem_cons_of_mem _ hd)]
  | case3 => rfl

/-- The tables as far as they matter to the keys below. -/
def someTables : Unicode where
  lower := lowerBytes
  lower_ascii := lowerBytes_ascii
  trimSpace := Text.trim Text.isSpace
  trim_ascii := fun _ _ => rfl
  trimmed := fun s => by
    obtain ⟨a, b, hs, hab⟩ := Text.exists_trim Text.isSpace s
    refine ⟨a, b, hs, fun c hc => ?_⟩
    have := hab c hc
    simp only [Text.isSpace, Bool.or_eq_true, Bool.and_eq_true, decide_eq_true_eq, mem_cons,
      not_mem_nil, or_false] at this
    omega

/-- Two rows with the column `a`, stamped. -/
def likeRows : List (KeyMap Val) :=
  stampTenant someTables "acme"
    [.ofList [("a", .int 1)], .ofList [("a", .int 2), ("[TENANT_ID]", .str "globex")]]

/-- A path into the tenant column, as a key of an update. -/
def pathKey : Text := tenantKey ++ ['-', '>', 'x']

/-- `Ⱥ.xtenant_id`: the letter takes two bytes, and three when it is lowered. -/
def shiftedKey : Text := ['\xc8', '\xba'] ++ '.' :: 'x' :: tenantKey

/-- The placeholders of an insert are those of its cells, behind those of an expression that
stands for the table. -/
theorem length_places (g : Grammar) (b : Builder Tree) (first : KeyMap Val)
    (rest : List (KeyMap Val)) :
    (placeholders (g.compileInsert b (first :: rest))).length
      = (placeholders (g.writeSource b).toks).length + (places (first :: rest)).length := by
  rw [placeholders_compileInsert, length_append, flatMap_map, places, length_flatMap, length_flatMap]
  simp only [length_map]

theorem toLower_ne_dot (c : Char) : c.toLower ≠ '.' ↔ c ≠ '.' := by
  unfold Char.toLower
  split
  · next hc =>
    have hc : 65 ≤ c.toNat ∧ c.toNat ≤ 90 := by simpa [UInt32.le_iff_toNat_le] using hc
    refine iff_of_true (fun h => ?_) (by rintro rfl; exact absurd hc.1 (by decide))
    have h : (c.val + ('a'.val - 'A'.val)).toNat = 46 := congrArg Char.toNat h
    have hval : c.val.toNat = c.toNat := rfl
    simp [UInt32.toNat_add] at h
    omega
  · rfl

section Ascii

variable {key : String} (h : ∀ c ∈ key.toList, c.toNat < 128)
include h

/-- Lowering moves no dot of an ASCII key. -/
theorem lastSegment_eq (U : Unicode) :
    lastSegment U key.toList = some (Query.lastSegment key).toList := by
  rw [Query.lastSegment, String.toList_ofList]
  generalize key.toList = s at h
  obtain ⟨hno, q, hs, hq⟩ := exists_afterLastDot s
  have hp : ((fun c => decide (c ≠ '.')) ∘ Char.toLower) = fun c : Char => decide (c ≠ '.') :=
    funext fun c => decide_eq_decide.mpr (toLower_ne_dot c)
  have hlow : afterLastDot (s.map Char.toLower) = (afterLastDot s).map Char.toLower := by
    rw [afterLastDot, rtakeWhile, ← map_reverse, takeWhile_map, hp, ← map_reverse]
    rfl
  have hmem : '.' ∈ s.map Char.toLower ↔ '.' ∈ s := by
    simp only [mem_map]
    refine ⟨fun ⟨c, hc, hd⟩ => ?_, fun h => ⟨_, h, rfl⟩⟩
    rwa [← not_ne_iff.mp fun hne => (toLower_ne_dot c).mpr hne hd]
  rw [lastSegment, U.lower_ascii s h, lastDot, hlow, length_map, length_map]
  rcases hq with rfl | ⟨p, rfl⟩
  · rw [if_neg fun hd => ?_]
    · exact congrArg some hs
    · rw [nil_append] at hs
      exact hno '.' (hs ▸ hmem.mp hd) rfl
  · have hlen : s.length - 1 - (afterLastDot s).length = p.length := by
      have := congrArg length hs
      simp only [length_append, length_singleton] at this
      omega
    have hdrop : s.drop (p.length + 1) = afterLastDot s := by
      conv_lhs => rw [hs]
      exact drop_left' (by simp)
    rw [if_pos (hmem.mpr (by rw [hs]; simp)), hlen]
    simp only [hdrop]
    rw [if_pos]
    have := congrArg length hs
    simp only [length_append, length_singleton] at this
    omega

/-- **The guard of the compilers is this one.** -/
theorem namesTenant_eq (U : Unicode) : namesTenant U key.toList = namesColumn key tenantColumn := by
  have hten : (Query.bareColumn tenantColumn).toLower.toList = tenantKey := by decide +kernel
  have hkey : (Query.bareColumn key).toLower.toList
      = (bareColumn U key.toList).map Char.toLower := by
    show ((Query.bareColumn key).map Char.toLower).toList = _
    rw [String.toList_map, Query.bareColumn, String.toList_ofList, bareColumn,
      U.trim_ascii _ h]
  rw [namesTenant, namesColumn, ← hkey, ← hten]
  have hne : tenantColumn ≠ "" := by decide
  simp [Bool.beq_eq_decide_eq, String.toList_inj, hne]

end Ascii

/-- So is the stamp. -/
theorem stampTenant_eq (U : Unicode) (tenant : String) {rows : List (KeyMap Val)}
    (h : ∀ row ∈ rows, ∀ e ∈ row.entries, ∀ c ∈ e.1.toList, c.toNat < 128) :
    stampTenant U tenant rows = Query.stampTenant rows tenant := by
  refine map_congr_left fun row hrow => ?_
  simp only [KeyMap.filter]
  congr 2
  exact filter_congr fun e he => by rw [namesTenant_eq (h row hrow e he) U]

end Hesape.Query.Keys
