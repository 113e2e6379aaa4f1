import Hesape.Query.CompileSelect

/-!
# The barrier in front of the compiler

Before anything is compiled the whole builder graph is walked once: a builder with an
error refuses, and so does any operator or direction that has no listed spelling.
`validate g t` is that walk over a tree, with the builder's own grammar as the policy.

The walk also rewrites what it accepts to the listed spelling.  The fluent methods have
already done so for every clause they add, which is why the tree walk only answers; the
rewriting itself is part of the pointer model.
-/

namespace Hesape.Query

/-- Which clauses have an operator that is printed.  The type names are compared as they
are written. -/
def clauseOperatorNeedsValidation (typ operator : String) : Bool :=
  if typ = "Raw" || typ = "Expression" then false
  else if operator ≠ "" then true
  else typ ∈ ["Basic", "Bitwise", "bit", "Column", "Date", "Time", "Day", "Month", "Year",
    "RowValues", "JsonLength", "Sub"]

section Checks

/-- Runs a check over a list, stopping at the first refusal. -/
def checkAll {A : Type} (f : A → Except Err Unit) : List A → Except Err Unit
  | [] => .ok ()
  | a :: l =>
    match f a with
    | .error e => .error e
    | .ok _ => checkAll f l

theorem checkAll_eq_ok {A : Type} {f : A → Except Err Unit} {l : List A} :
    checkAll f l = .ok () ↔ ∀ a ∈ l, f a = .ok () := by
  induction l with
  | nil => simp [checkAll]
  | cons a l ih =>
    cases hf : f a with
    | error => simp [checkAll, hf]
    | ok => simp [checkAll, hf, ih]

theorem checkAll_map {A B : Type} (f : B → Except Err Unit) (h : A → B) (l : List A) :
    checkAll f (l.map h) = checkAll (fun a => f (h a)) l := by
  induction l with
  | nil => rfl
  | cons a l ih => simp only [List.map_cons, checkAll, ih]

/-- One check after another. -/
def andThen (a b : Except Err Unit) : Except Err Unit :=
  match a with
  | .error e => .error e
  | .ok _ => b

@[simp] theorem andThen_eq_ok {a b : Except Err Unit} :
    andThen a b = .ok () ↔ a = .ok () ∧ b = .ok () := by
  cases a with
  | error => simp [andThen]
  | ok => simp [andThen]

end Checks

section Builder

variable (allowed : List String) {Q : Type} (sub : Q → Except Err Unit)

def checkOperator (typ operator : String) : Except Err Unit :=
  if clauseOperatorNeedsValidation typ operator then
    (normalizeOperator allowed none operator).map fun _ => ()
  else .ok ()

def checkChild (q : Option Q) : Except Err Unit := (q.map sub).getD (.ok ())

def checkWhere (w : Where Q) : Except Err Unit :=
  andThen (checkOperator allowed w.typ w.operator) (checkChild sub w.query)

def checkHaving (h : Having Q) : Except Err Unit :=
  andThen (checkOperator allowed h.typ h.operator) (checkChild sub h.query)

def checkOrder (o : Order) : Except Err Unit := (normalizeOrderDirection o).map fun _ => ()

/-- `validateQueryGraph` at one builder. -/
def validateBuilder (b : Builder Q) : Except Err Unit :=
  match b.err with
  | some e => .error e
  | none =>
    andThen (checkAll (checkWhere allowed sub) b.wheres)
      (andThen (checkAll (checkHaving allowed sub) b.havings)
        (andThen (checkAll checkOrder b.orders)
          (andThen (checkAll checkOrder b.unionOrders)
            (andThen (checkAll (fun j => sub j.builder) b.joins)
              (andThen (checkAll (fun u => sub u.query) b.unions)
                (checkAll (fun s => sub s.query) b.subqueries))))))

end Builder

/-- `ValidateForCompilation`. -/
def validate (g : Grammar) : Tree → Except Err Unit :=
  Tree.para fun b => validateBuilder g.getOperators Prod.snd b

theorem validateBuilder_map {A B : Type} (allowed : List String) (sub : B → Except Err Unit)
    (f : A → B) (b : Builder A) :
    validateBuilder allowed sub (b.map f) = validateBuilder allowed (fun a => sub (f a)) b := by
  have hw : ∀ w : Where A, checkWhere allowed sub (w.map f)
      = checkWhere allowed (fun a => sub (f a)) w := fun w => by
    cases hq : w.query <;> simp [checkWhere, Where.map, checkChild, hq]
  have hh : ∀ h : Having A, checkHaving allowed sub (h.map f)
      = checkHaving allowed (fun a => sub (f a)) h := fun h => by
    cases hq : h.query <;> simp [checkHaving, Having.map, checkChild, hq]
  simp only [validateBuilder, Builder.map, checkAll_map, hw, hh]
  rfl

theorem validate_node (g : Grammar) (b : Builder Tree) :
    validate g (.node b) = validateBuilder g.getOperators (validate g) b := by
  rw [validate, Tree.para_node, validateBuilder_map]

/-- A builder that passes has no error, and the builders it refers to pass. -/
theorem validate_children {g : Grammar} {b : Builder Tree} (h : validate g (.node b) = .ok ()) :
    b.err = none ∧ ∀ t ∈ b.children, validate g t = .ok () := by
  rw [validate_node, validateBuilder] at h
  cases he : b.err with
  | some => simp [he] at h
  | none =>
    simp only [he, andThen_eq_ok, checkAll_eq_ok] at h
    obtain ⟨hw, hh, _, _, hj, hu, hs⟩ := h
    refine ⟨rfl, fun t ht => ?_⟩
    simp only [Builder.children, List.mem_append, List.mem_filterMap, List.mem_map] at ht
    rcases ht with (((⟨w, hm, hq⟩ | ⟨w, hm, hq⟩) | ⟨j, hm, rfl⟩) | ⟨u, hm, rfl⟩) | ⟨s, hm, rfl⟩
    · have := hw w hm
      simpa [checkWhere, checkChild, hq] using (andThen_eq_ok.mp this).2
    · have := hh w hm
      simpa [checkHaving, checkChild, hq] using (andThen_eq_ok.mp this).2
    · exact hj j hm
    · exact hu u hm
    · exact hs s hm

end Hesape.Query
