import Mathlib.Data.List.Basic

/-!
# Byte strings

Texts of a protocol are strings of bytes.  `ascii` spells one and `chars` reads one as characters.  A
text is cut at a byte with `List.splitOn`, which undoes `List.intercalate`; joining runs of pieces, in
groups or not, comes to one text (`intercalate_append`, `intercalate_groups`).

White space is what Unicode takes for it, as the bytes that encode it: `trimSpace` takes it from both
ends, and `fields` are the runs between.  Neither touches printable ASCII (`trimSpace_indented`,
`fields_intercalate`).
-/

namespace Hesape.Text

open List

abbrev Bytes := List UInt8

def byte (c : Char) : UInt8 := UInt8.ofNat c.toNat

def ascii (s : List Char) : Bytes := s.map byte

def chars (s : Bytes) : List Char := s.map fun b => Char.ofNat b.toNat

theorem chars_ascii {s : List Char} (hs : ∀ c ∈ s, c.toNat < 256) : chars (ascii s) = s := by
  rw [chars, ascii, map_map]
  conv_rhs => rw [← map_id s]
  refine map_congr_left fun c hc => ?_
  show Char.ofNat (UInt8.ofNat c.toNat).toNat = c
  rw [UInt8.toNat_ofNat_of_lt' (hs c hc), Char.ofNat_toNat]

/-! ### Pieces -/

section Pieces

variable {α : Type} [BEq α] [LawfulBEq α] {x : α}

theorem splitOn_inj {a b : List α} (h : a.splitOn x = b.splitOn x) : a = b := by
  calc a = [x].intercalate (a.splitOn x) := (intercalate_splitOn x).symm
    _ = [x].intercalate (b.splitOn x) := by rw [h]
    _ = b := intercalate_splitOn x

theorem notMem_of_mem_splitOn {a : List α} : ∀ {p : List α}, p ∈ a.splitOn x → x ∉ p := by
  induction a with
  | nil =>
    intro p hp
    have hp : p ∈ [[]] := hp
    rw [mem_singleton.mp hp]
    exact not_mem_nil
  | cons y a ih =>
    intro p hp
    rw [splitOn_cons_eq_if_modifyHead] at hp
    split at hp
    · rcases mem_cons.mp hp with rfl | hp
      · exact not_mem_nil
      · exact ih hp
    · next hy =>
      cases hsplit : a.splitOn x with
      | nil => exact absurd hsplit (splitOn_ne_nil x a)
      | cons q =>
        rw [hsplit] at hp ih
        rcases mem_cons.mp hp with rfl | hp
        · rw [mem_cons, not_or]
          exact ⟨fun hxy => hy (by rw [hxy]; exact BEq.rfl), ih mem_cons_self⟩
        · exact ih (mem_cons_of_mem q hp)

omit [BEq α] [LawfulBEq α] in
/-- Two runs of pieces, joined. -/
theorem intercalate_append {p q : List (List α)} (hp : p ≠ []) (hq : q ≠ []) :
    [x].intercalate (p ++ q) = [x].intercalate p ++ x :: [x].intercalate q := by
  induction p with
  | nil => exact absurd rfl hp
  | cons a p ih =>
    cases p with
    | nil =>
      obtain ⟨b, _, rfl⟩ := exists_cons_of_ne_nil hq
      rw [singleton_append, intercalate_cons_cons, intercalate_singleton, append_assoc]
      rfl
    | cons =>
      rw [cons_append, cons_append, intercalate_cons_cons, ← cons_append, ih nofun,
        intercalate_cons_cons, append_assoc, append_assoc, append_assoc]

omit [BEq α] [LawfulBEq α] in
/-- Pieces that are joined in groups, and the groups joined, are the pieces joined. -/
theorem intercalate_groups : ∀ {groups : List (List (List α))}, (∀ g ∈ groups, g ≠ []) →
    [x].intercalate (groups.map ([x].intercalate ·)) = [x].intercalate groups.flatten := by
  intro groups
  induction groups with
  | nil => intro _; rfl
  | cons g groups ih =>
    intro hg
    have hrest := ih fun g' hg' => hg g' (mem_cons_of_mem g hg')
    cases groups with
    | nil => simp
    | cons g' groups =>
      have hflat : (g' :: groups).flatten ≠ [] := by
        rw [flatten_cons]
        exact append_ne_nil_of_left_ne_nil (hg g' (by simp)) _
      rw [flatten_cons, intercalate_append (hg g (by simp)) hflat, ← hrest, map_cons, map_cons,
        intercalate_cons_cons, append_assoc]
      rfl

end Pieces

/-! ### White space -/

/-- Unicode's white space, as it is encoded. -/
def spaces : List Bytes :=
  [[9], [10], [11], [12], [13], [32], [0xC2, 0x85], [0xC2, 0xA0], [0xE1, 0x9A, 0x80], [0xE2, 0x80, 0x80],
    [0xE2, 0x80, 0x81], [0xE2, 0x80, 0x82], [0xE2, 0x80, 0x83], [0xE2, 0x80, 0x84], [0xE2, 0x80, 0x85],
    [0xE2, 0x80, 0x86], [0xE2, 0x80, 0x87], [0xE2, 0x80, 0x88], [0xE2, 0x80, 0x89], [0xE2, 0x80, 0x8A],
    [0xE2, 0x80, 0xA8], [0xE2, 0x80, 0xA9], [0xE2, 0x80, 0xAF], [0xE2, 0x81, 0x9F], [0xE3, 0x80, 0x80]]

/-- `s` without the units it begins with. -/
def trimBy (units : List Bytes) : Nat → Bytes → Bytes
  | 0, s => s
  | n + 1, s =>
    match units.find? (·.isPrefixOf s) with
    | none => s
    | some u => trimBy units n (s.drop u.length)

def trimLeft (s : Bytes) : Bytes := trimBy spaces s.length s

def trimRight (s : Bytes) : Bytes := (trimBy (spaces.map List.reverse) s.length s.reverse).reverse

def trimSpace (s : Bytes) : Bytes := trimRight (trimLeft s)

/-- Each byte, and nothing in place of a white space; `skip` bytes still belong to the last one. -/
def marks : Nat → Bytes → List (Option UInt8)
  | _, [] => []
  | skip + 1, _ :: s => marks skip s
  | 0, b :: s =>
    match spaces.find? (·.isPrefixOf (b :: s)) with
    | some u => none :: marks (u.length - 1) s
    | none => some b :: marks 0 s

def fields (s : Bytes) : List Bytes :=
  (((marks 0 s).splitOn none).map (·.filterMap id)).filter (· ≠ [])

/-- Printable ASCII, but for the space. -/
def printable (b : UInt8) : Bool := 33 ≤ b && b ≤ 126

variable {b : UInt8} {units : List Bytes}

theorem find_units (hunits : (units.all fun u => u.head?.any fun b => !printable b)) (hb : printable b) (s : Bytes) : units.find? (·.isPrefixOf (b :: s)) = none := by
  rw [find?_eq_none]
  intro u hu
  have hhead := all_eq_true.mp hunits u hu
  cases u with
  | nil => cases hhead
  | cons c =>
    have hc : printable c = false := by simpa using hhead
    rw [isPrefixOf_cons_cons, Bool.and_eq_true, not_and]
    intro hcb
    rw [eq_of_beq hcb, hb] at hc
    cases hc

theorem find_spaces (hb : printable b) (s : Bytes) : spaces.find? (·.isPrefixOf (b :: s)) = none :=
  find_units (by decide) hb s

theorem trimBy_printable (hunits : (units.all fun u => u.head?.any fun b => !printable b)) (hb : printable b) (n : Nat) (s : Bytes) : trimBy units n (b :: s) = b :: s := by
  cases n with
  | zero => rfl
  | succ =>
    unfold trimBy
    rw [find_units hunits hb]

theorem trimLeft_indented (hb : printable b) (s : Bytes) (k : Nat) :
    trimLeft (replicate k 32 ++ b :: s) = b :: s := by
  have hn : ∀ n, k ≤ n → trimBy spaces n (replicate k 32 ++ b :: s) = b :: s := by
    induction k with
    | zero => exact fun n _ => trimBy_printable (by decide) hb n s
    | succ k ih =>
      intro n hn
      obtain ⟨m, rfl⟩ : ∃ m, n = m + 1 := ⟨n - 1, by omega⟩
      have hfind : spaces.find? (·.isPrefixOf (32 :: (replicate k 32 ++ b :: s))) = some [32] := by
        simp [spaces]
      rw [replicate_succ, cons_append, trimBy, hfind]
      exact ih m (by omega)
  exact hn _ (by simp)

/-- A text between printable bytes, behind spaces or not. -/
theorem trimSpace_indented {s : Bytes} (hne : s ≠ []) (hs : ∀ b ∈ s, printable b) (k : Nat) :
    trimSpace (replicate k 32 ++ s) = s := by
  obtain ⟨b, _, rfl⟩ := exists_cons_of_ne_nil hne
  rw [trimSpace, trimLeft_indented (hs b (by simp))]
  obtain ⟨c, _, hback⟩ := exists_cons_of_ne_nil (reverse_ne_nil_iff.mpr hne)
  have hc : printable c := hs c (mem_reverse.mp (hback ▸ mem_cons_self))
  rw [trimRight, hback, trimBy_printable (by decide) hc, ← hback, reverse_reverse]

theorem marks_printable {s : Bytes} (hs : ∀ b ∈ s, printable b) (rest : Bytes) :
    marks 0 (s ++ rest) = s.map some ++ marks 0 rest := by
  induction s with
  | nil => rfl
  | cons b s ih =>
    rw [cons_append, marks, find_spaces (hs b (by simp)), ih fun c hc => hs c (mem_cons_of_mem b hc)]
    rfl

theorem marks_intercalate : ∀ {l : List Bytes}, (∀ s ∈ l, ∀ b ∈ s, printable b) →
    marks 0 ([32].intercalate l) = [none].intercalate (l.map (·.map some)) := by
  intro l
  induction l with
  | nil => intro _; rfl
  | cons s l ih =>
    intro hl
    have hs := hl s (by simp)
    have hrest := ih fun s' hs' => hl s' (mem_cons_of_mem s hs')
    cases l with
    | nil =>
      rw [intercalate_singleton, map_singleton, intercalate_singleton, ← append_nil s,
        marks_printable hs, append_nil]
      exact append_nil _
    | cons s' l =>
      have hspace : ∀ t, marks 0 (32 :: t) = none :: marks 0 t := by
        intro t
        have hfind : spaces.find? (·.isPrefixOf (32 :: t)) = some [32] := by simp [spaces]
        rw [marks, hfind]
        rfl
      rw [intercalate_cons_cons, append_assoc, marks_printable hs, singleton_append, hspace, hrest]
      show _ = [none].intercalate (s.map some :: s'.map some :: l.map (·.map some))
      rw [intercalate_cons_cons, append_assoc]
      rfl

/-- Printable texts joined by spaces are their fields. -/
theorem fields_intercalate {l : List Bytes} (hl : ∀ s ∈ l, s ≠ [] ∧ ∀ b ∈ s, printable b) :
    fields ([32].intercalate l) = l := by
  unfold fields
  rw [marks_intercalate fun s hs => (hl s hs).2]
  by_cases hne : l = []
  · subst hne
    rfl
  · rw [splitOn_intercalate none (fun s hs => ?_) (by simpa using hne), map_map]
    · have hid : (l.map (((·.filterMap id) : List (Option UInt8) → Bytes) ∘ (·.map some))) = l := by
        conv_rhs => rw [← map_id l]
        exact map_congr_left fun s _ => by simp
      rw [hid, filter_eq_self]
      exact fun s hs => decide_eq_true (hl s hs).1
    · obtain ⟨_, -, rfl⟩ := mem_map.mp hs
      simp

end Hesape.Text
