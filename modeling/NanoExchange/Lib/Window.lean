import Mathlib.Data.Nat.ModEq
import Mathlib.Data.List.Basic

/-!
# A ring that remembers the end of a stream

A ring of `cap` slots into which the elements of a stream are written one after
the other, the `k`-th element into slot `k % cap`, each overwriting what was
there.  `Window.Holds` says that the ring still has the last `cap` elements of
the stream.
-/

namespace NanoExchange
namespace Lib
namespace Window

variable {α : Type*} {cap : Nat}

/-- Every element of the stream that is among the last `cap` ones is in its
slot. -/
def Holds (cap : Nat) (ring : Nat → α) (l : List α) : Prop :=
  ∀ k x, l[k]? = some x → l.length ≤ k + cap → ring (k % cap) = x

theorem Holds.nil (ring : Nat → α) : Holds cap ring [] := by
  intro k x hx
  simp at hx

/-- Fewer than `cap` apart, two positions have different slots. -/
theorem slot_ne {j k : Nat} (hjk : j < k) (hcap : k < j + cap) :
    j % cap ≠ k % cap := by
  intro hmod
  have hdvd : cap ∣ k - j := (Nat.modEq_iff_dvd' hjk.le).mp hmod
  have hle := Nat.le_of_dvd (Nat.sub_pos_of_lt hjk) hdvd
  omega

/-- Writing the next element into its slot. -/
theorem Holds.write
    {ring : Nat → α} {l : List α} (h : Holds cap ring l) (x : α) :
    Holds cap (Function.update ring (l.length % cap) x) (l ++ [x]) := by
  intro k y hy hk
  rw [List.length_append, List.length_singleton] at hk
  by_cases hlast : k = l.length
  · subst hlast
    rw [List.getElem?_concat_length] at hy
    rw [Function.update_self]
    exact Option.some.inj hy
  · have hlt : k < l.length := by
      have hbound := (List.getElem?_eq_some_iff.mp hy).1
      rw [List.length_append, List.length_singleton] at hbound
      omega
    rw [List.getElem?_append_left hlt] at hy
    rw [Function.update_of_ne (slot_ne hlt (by omega))]
    exact h k y hy (by omega)

end Window
end Lib
end NanoExchange
