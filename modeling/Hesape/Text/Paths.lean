import Hesape.Text.Bytes

/-!
# Paths of slash-separated parts

Cleaning a path reads its parts from the left over a stack: empty parts and `.` are dropped, and
`..` takes back the part before it.  A part that is none of those is proper, and a path all of
whose parts are proper is left as it is.  A cleaned relative path is proper but for the `..` that
nothing before them could take back, and those all stand in front.
-/

namespace Hesape.Text.Path

open Hesape.Text (Bytes)
open List

/-- The part `..`. -/
def up : Bytes := [46, 46]

/-- What `..` does to the parts kept so far, the last of which is the head. -/
def back (rooted : Bool) : List Bytes → List Bytes
  | [] => if rooted then [] else [up]
  | last :: before => if last = up then up :: last :: before else before

/-- One part read over the parts kept so far. -/
def push (rooted : Bool) (kept : List Bytes) (part : Bytes) : List Bytes :=
  if part = [] ∨ part = [46] then kept else if part = up then back rooted kept else part :: kept

/-- The parts a path is left with. -/
def parts (rooted : Bool) (path : Bytes) : List Bytes := ((path.splitOn 47).foldl (push rooted) []).reverse

/-- Parts with a slash between. -/
def join (parts : List Bytes) : Bytes := [(47 : UInt8)].intercalate parts

/-- The shortest path that names the same place. -/
def clean (path : Bytes) : Bytes :=
  if path.head? = some 47 then 47 :: join (parts true path)
  else if parts false path = [] then [46] else join (parts false path)

/-- A part that cleaning keeps. -/
def Proper (part : Bytes) : Prop := part ≠ [] ∧ (47 : UInt8) ∉ part ∧ part ≠ [46] ∧ part ≠ up

/-! ### Parts that are kept -/

variable {part path : Bytes} {l : List Bytes}

theorem push_proper (hp : Proper part) (rooted : Bool) (kept : List Bytes) :
    push rooted kept part = part :: kept := by
  obtain ⟨hnil, -, hdot, hup⟩ := hp
  rw [push, if_neg (by simp [hnil, hdot]), if_neg hup]

theorem foldl_push_proper (hl : ∀ part ∈ l, Proper part) (rooted : Bool) (kept : List Bytes) :
    l.foldl (push rooted) kept = l.reverse ++ kept := by
  induction l generalizing kept with
  | nil => rfl
  | cons part l ih =>
    rw [foldl_cons, push_proper (hl part mem_cons_self), ih fun q hq => hl q (mem_cons_of_mem _ hq)]
    simp

theorem push_empty (rooted : Bool) (kept : List Bytes) : push rooted kept [] = kept := by
  rw [push, if_pos (.inl rfl)]

/-! ### Joining and splitting -/

theorem splitOn_slash (path : Bytes) : (47 :: path).splitOn 47 = [] :: path.splitOn 47 := by
  rw [splitOn_cons_eq_if_modifyHead]
  simp

theorem splitOn_join (hne : l ≠ []) (hl : ∀ part ∈ l, Proper part) : (join l).splitOn 47 = l :=
  splitOn_intercalate 47 (fun part hp => (hl part hp).2.1) hne

theorem join_splitOn (path : Bytes) : join (path.splitOn 47) = path := intercalate_splitOn 47

theorem join_cons (hne : l ≠ []) : join (part :: l) = part ++ 47 :: join l := by
  obtain ⟨_, _, rfl⟩ := exists_cons_of_ne_nil hne
  simp [join, intercalate_cons_cons]

theorem join_singleton (part : Bytes) : join [part] = part := by simp [join]

theorem join_append {m : List Bytes} (hl : l ≠ []) (hm : m ≠ []) : join (l ++ m) = join l ++ 47 :: join m := by
  induction l with
  | nil => exact absurd rfl hl
  | cons _ l ih =>
    cases l with
    | nil => rw [singleton_append, join_cons hm, join_singleton]
    | cons next l =>
      rw [cons_append, join_cons (append_ne_nil_of_left_ne_nil (cons_ne_nil _ _) _),
        ih (cons_ne_nil _ _), join_cons (cons_ne_nil next l)]
      simp

theorem join_ne_nil (hne : l ≠ []) (hl : ∀ part ∈ l, Proper part) : join l ≠ [] := by
  intro h
  have hsplit := splitOn_join hne hl
  rw [h] at hsplit
  have hmem : ([] : Bytes) ∈ l := by
    rw [← hsplit]
    simp
  exact (hl [] hmem).1 rfl

variable (hl : ∀ part ∈ l, Proper part)
include hl

theorem head_join : (join l).head? ≠ some 47 := by
  cases l with
  | nil => simp [join]
  | cons part l =>
    obtain ⟨hne, hslash, -⟩ := hl part mem_cons_self
    obtain ⟨b, _, rfl⟩ := exists_cons_of_ne_nil hne
    have hb : b ≠ 47 := fun h => hslash (h ▸ mem_cons_self)
    cases l with
    | nil => simpa [join_singleton] using hb
    | cons =>
      rw [join_cons (cons_ne_nil _ _)]
      simpa using hb

theorem getLast_join : (join l).getLast? ≠ some 47 := by
  intro h
  obtain ⟨before, hbefore⟩ : ∃ before, join l = before ++ [47] := by
    obtain ⟨before, hb⟩ := getLast?_eq_some_iff.mp h
    exact ⟨before, hb⟩
  have hne : l ≠ [] := by
    rintro rfl
    simp [join] at hbefore
  have hsplit := splitOn_join hne hl
  rw [hbefore, splitOn_append_cons_self] at hsplit
  have hmem : ([] : Bytes) ∈ l := by
    rw [← hsplit]
    simp
  exact (hl [] hmem).1 rfl

/-! ### What cleaning leaves alone -/

/-- A path written with proper parts, a slash after it or not, is cleaned to those parts. -/
theorem parts_of_proper
    (hpath : path.splitOn 47 = l ∨ path.splitOn 47 = l ++ [[]]) (rooted : Bool) : parts rooted path = l := by
  have hfold := foldl_push_proper hl rooted []
  rcases hpath with h | h
  · rw [parts, h, hfold]
    simp
  · rw [parts, h, foldl_append, hfold]
    simp [push_empty]

omit hl

theorem clean_of_proper (hne : l ≠ []) (hl : ∀ part ∈ l, Proper part)
    (hpath : path = join l ∨ path = join l ++ [47]) : clean path = join l := by
  have hsplit : path.splitOn 47 = l ∨ path.splitOn 47 = l ++ [[]] := by
    rcases hpath with rfl | rfl
    · exact .inl (splitOn_join hne hl)
    · refine .inr ?_
      rw [splitOn_append_cons_self, splitOn_join hne hl]
      rfl
  have hhead : path.head? ≠ some 47 := by
    have hj := head_join hl
    obtain ⟨b, _, hb⟩ := exists_cons_of_ne_nil (join_ne_nil hne hl)
    rcases hpath with rfl | rfl
    · exact hj
    · rw [hb] at hj ⊢
      simpa using hj
  rw [clean, if_neg hhead, parts_of_proper hl hsplit, if_neg hne]

/-- Under a root, too. -/
theorem clean_rooted (hl : ∀ part ∈ l, Proper part)
    (hpath : path.splitOn 47 = l ∨ path.splitOn 47 = l ++ [[]]) : clean (47 :: path) = 47 :: join l := by
  have hparts : parts true (47 :: path) = parts true path := by
    rw [parts, splitOn_slash, foldl_cons, push_empty, parts]
  rw [clean, head?_cons, if_pos rfl, hparts, parts_of_proper hl hpath]

/-- A slash at the end makes no difference. -/
theorem clean_append_slash (hne : path ≠ []) : clean (path ++ [47]) = clean path := by
  have hparts (rooted : Bool) : parts rooted (path ++ [47]) = parts rooted path := by
    rw [parts, splitOn_append_cons_self, foldl_append, parts]
    simp [push_empty]
  have hhead : (path ++ [47]).head? = path.head? := by
    obtain ⟨b, _, rfl⟩ := exists_cons_of_ne_nil hne
    rfl
  rw [clean, hhead, hparts, hparts, ← clean]

/-! ### What cleaning leaves -/

/-- The parts kept so far: proper ones on `..` that nothing could take back. -/
def Kept (rooted : Bool) (kept : List Bytes) : Prop :=
  ∃ l n, kept = l ++ List.replicate n up ∧ (∀ part ∈ l, Proper part) ∧ (rooted = true → n = 0)

theorem not_proper_up : ¬ Proper up := fun h => h.2.2.2 rfl

theorem Kept.push {rooted : Bool} {kept : List Bytes} (h : Kept rooted kept) (hpart : (47 : UInt8) ∉ part) :
    Kept rooted (push rooted kept part) := by
  obtain ⟨l, n, rfl, hl, hn⟩ := h
  unfold Path.push
  split_ifs with hskip hup
  · exact ⟨l, n, rfl, hl, hn⟩
  · cases l with
    | nil =>
      cases n with
      | zero =>
        cases rooted with
        | true => exact ⟨[], 0, rfl, nofun, fun _ => rfl⟩
        | false => exact ⟨[], 1, rfl, nofun, nofun⟩
      | succ n =>
        refine ⟨[], n + 2, ?_, nofun, fun hr => absurd (hn hr) (Nat.succ_ne_zero n)⟩
        simp [back, replicate_succ]
    | cons last before =>
      have hlast : last ≠ up := fun heq => not_proper_up (heq ▸ hl last mem_cons_self)
      refine ⟨before, n, ?_, fun q hq => hl q (mem_cons_of_mem _ hq), hn⟩
      rw [cons_append, back, if_neg hlast]
  · refine ⟨part :: l, n, rfl, ?_, hn⟩
    intro q hq
    rcases mem_cons.mp hq with rfl | hq
    · rw [not_or] at hskip
      exact ⟨hskip.1, hpart, hskip.2, hup⟩
    · exact hl q hq

theorem kept_foldl (rooted : Bool) : ∀ (l : List Bytes) (kept : List Bytes), (∀ part ∈ l, (47 : UInt8) ∉ part) →
    Kept rooted kept → Kept rooted (l.foldl (push rooted) kept) := by
  intro l
  induction l with
  | nil => exact fun kept _ h => h
  | cons part l ih =>
    intro kept hl h
    exact ih _ (fun q hq => hl q (mem_cons_of_mem _ hq)) (h.push (hl part mem_cons_self))

/-- **A path is left with `..` in front and proper parts behind**, and under a root with proper
parts only. -/
theorem parts_kept (rooted : Bool) (path : Bytes) :
    ∃ n l, parts rooted path = replicate n up ++ l ∧ (∀ part ∈ l, Proper part) ∧ (rooted → n = 0) := by
  obtain ⟨l, n, heq, hl, hn⟩ : Kept rooted ((path.splitOn 47).foldl (push rooted) []) :=
    kept_foldl rooted _ _ (fun part hp => notMem_of_mem_splitOn hp) ⟨[], 0, rfl, nofun, fun _ => rfl⟩
  refine ⟨n, l.reverse, ?_, fun q hq => hl q (mem_reverse.mp hq), hn⟩
  rw [parts, heq, reverse_append, reverse_replicate]

end Hesape.Text.Path
