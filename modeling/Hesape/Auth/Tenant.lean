import Hesape.Text.Segments

/-!
# Tenants

A tenant's name goes into storage paths, cache keys and lock names, so it is a short word of lowercase
letters, digits, `-` and `_`.  A system grant asked for with anything else is the zero grant, whose
tenant is empty.
-/

namespace Hesape.Auth

open List

/-- `tenantName`, `^[a-z0-9][a-z0-9_-]{0,63}$`, of a text whose characters have these codes. -/
def tenantName {α : Type} (code : α → Nat) : List α → Bool :=
  let plain := fun c => (97 ≤ code c && code c ≤ 122) || (48 ≤ code c && code c ≤ 57)
  fun
  | [] => false
  | c :: rest => plain c && rest.length ≤ 63 && rest.all fun c => plain c || code c = 95 || code c = 45

theorem tenantName_codes {α : Type} {code : α → Nat} {name : List α} (h : tenantName code name) :
    name ≠ [] ∧ ∀ c ∈ name, code c = 45 ∨ 48 ≤ code c ∧ code c ≤ 57 ∨ 95 ≤ code c := by
  cases name with
  | nil => cases h
  | cons =>
    simp only [tenantName, Bool.and_eq_true, all_eq_true, Bool.or_eq_true, decide_eq_true_eq] at h
    refine ⟨cons_ne_nil _ _, fun d hd => ?_⟩
    rcases mem_cons.mp hd with rfl | hd
    · have := h.1.1
      omega
    · have := h.2 d hd
      omega

def validTenant (name : String) : Bool := tenantName Char.toNat name.toList

/-- The tenant of a `SystemGrant`. -/
def systemTenant (tenant : String) : String := if validTenant tenant then tenant else ""

theorem validTenant_colon {name : String} (h : validTenant name) : ':' ∉ name.toList := by
  intro hmem
  have := (tenantName_codes h).2 ':' hmem
  revert this
  decide

theorem systemTenant_colon (tenant : String) : ':' ∉ (systemTenant tenant).toList := by
  unfold systemTenant
  split
  · next h => exact validTenant_colon h
  · simp

end Hesape.Auth
