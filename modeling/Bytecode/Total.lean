/-!
# Totals

The sum of a measure over the members of a list.
-/

namespace Bytecode

/-- What the members of a list measure together. -/
def total {α : Type} (measure : α → Nat) : List α → Nat
  | [] => 0
  | a :: rest => measure a + total measure rest

@[simp]
theorem total_nil {α : Type} (measure : α → Nat) : total measure [] = 0 := rfl

@[simp]
theorem total_cons {α : Type} (measure : α → Nat) (a : α) (rest : List α) :
    total measure (a :: rest) = measure a + total measure rest := rfl

@[simp]
theorem total_append {α : Type} (measure : α → Nat) (as bs : List α) :
    total measure (as ++ bs) = total measure as + total measure bs := by
  induction as with
  | nil => simp
  | cons a rest ih => simp [ih, Nat.add_assoc]

/-- Replacing a member changes the total by the difference. -/
theorem total_set {α : Type} {measure : α → Nat} {xs : List α} {i : Nat} {a b : α}
    (h : xs[i]? = some a) :
    total measure (xs.set i b) + measure a = total measure xs + measure b := by
  induction xs generalizing i with
  | nil => cases h
  | cons x xs ih =>
    cases i with
    | zero =>
      cases h
      simp only [List.set_cons_zero, total_cons]
      omega
    | succ i =>
      have rest := ih h
      simp only [List.set_cons_succ, total_cons]
      omega

/-- A bound on the members bounds the total. -/
theorem total_le {α : Type} {measure : α → Nat} {bound : Nat} {xs : List α}
    (h : ∀ a ∈ xs, measure a ≤ bound) : total measure xs ≤ xs.length * bound := by
  induction xs with
  | nil => exact Nat.zero_le _
  | cons a xs ih =>
    obtain ⟨first, rest⟩ := List.forall_mem_cons.mp h
    rw [total_cons, List.length_cons, Nat.succ_mul, Nat.add_comm]
    exact Nat.add_le_add (ih rest) first

end Bytecode
