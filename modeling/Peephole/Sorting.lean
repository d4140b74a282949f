/-!
# Stable sorting

`sortBy le` sorts a list by insertion. Members that `le` does not tell apart keep their order.

Main statement: `sortBy_perm`, the result has the same members.
-/

set_option autoImplicit false
set_option relaxedAutoImplicit false

namespace Peephole

variable {α : Type}

/-- Puts a member in front of the first one that it does not come after. -/
def insertBy (le : α → α → Bool) (a : α) : List α → List α
  | [] => [a]
  | b :: rest => if le a b then a :: b :: rest else b :: insertBy le a rest

/-- A list in ascending order. -/
def sortBy (le : α → α → Bool) : List α → List α
  | [] => []
  | a :: rest => insertBy le a (sortBy le rest)

theorem insertBy_perm (le : α → α → Bool) (a : α) (l : List α) :
    (insertBy le a l).Perm (a :: l) := by
  induction l with
  | nil => exact .refl _
  | cons b rest ih =>
    rw [insertBy]
    by_cases h : le a b
    · rw [if_pos h]
    · rw [if_neg h]
      exact (ih.cons b).trans (.swap a b rest)

theorem sortBy_perm (le : α → α → Bool) (l : List α) : (sortBy le l).Perm l := by
  induction l with
  | nil => exact .refl _
  | cons a rest ih => exact (insertBy_perm le a _).trans (ih.cons a)

end Peephole
