import Mathlib.Data.List.Infix
import Mathlib.Order.Nat

/-!
# Greedy allocation along a list

A quantity is handed out along a list of takers, each of which takes what is
left of it up to its own capacity, until nothing is left.  `allocate` is the
list of the takers that get something, with what they get.

The takers that get something are a prefix of the list, and all of them but the
last are filled up.
-/

namespace NanoExchange
namespace Lib

universe u

variable {α : Type u} (cap : α → Nat)

/-- Hand out `q` along a list. -/
def allocate : Nat → List α → List (α × Nat)
  | _, [] => []
  | q, x :: l =>
      if q = 0 then []
      else (x, min q (cap x)) :: allocate (q - cap x) l

variable {cap}

@[simp] theorem allocate_zero (l : List α) :
    allocate cap 0 l = [] := by
  cases l <;> rfl

@[simp] theorem allocate_nil (q : Nat) :
    allocate cap q [] = [] := by
  rfl

/-- The first taker is filled up. -/
theorem allocate_full
    {q : Nat} {x : α} (hq : q ≠ 0) (hle : cap x ≤ q) (l : List α) :
    allocate cap q (x :: l) =
      (x, cap x) :: allocate cap (q - cap x) l := by
  rw [allocate, if_neg hq, Nat.min_eq_right hle]

/-- The first taker takes all. -/
theorem allocate_part
    {q : Nat} {x : α} (hq : q ≠ 0) (hlt : q ≤ cap x) (l : List α) :
    allocate cap q (x :: l) = [(x, q)] := by
  rw [allocate, if_neg hq, Nat.min_eq_left hlt, Nat.sub_eq_zero_of_le hlt,
    allocate_zero]

/-- Those who get something come first. -/
theorem allocate_prefix (q : Nat) (l : List α) :
    (allocate cap q l).map Prod.fst <+: l := by
  induction l generalizing q with
  | nil => exact List.prefix_refl _
  | cons x l ih =>
      rw [allocate]
      split_ifs
      · exact List.nil_prefix
      · exact (List.cons_prefix_cons).mpr ⟨rfl, ih (q - cap x)⟩

/-- Everyone who gets something, but the last, is filled up. -/
theorem allocate_dropLast (q : Nat) (l : List α) :
    ∀ e ∈ (allocate cap q l).dropLast, e.2 = cap e.1 := by
  induction l generalizing q with
  | nil => simp
  | cons x l ih =>
      by_cases hq : q = 0
      · simp [hq]
      by_cases hle : cap x ≤ q
      · rw [allocate_full hq hle]
        cases hrest : allocate cap (q - cap x) l with
        | nil => simp
        | cons y t =>
            rw [List.dropLast_cons_cons]
            intro e he
            rcases List.mem_cons.mp he with rfl | he
            · rfl
            · exact ih (q - cap x) e (hrest ▸ he)
      · rw [allocate_part hq (not_le.mp hle).le]
        simp

end Lib
end NanoExchange
