import Mathlib.Data.List.Nodup
import Mathlib.Data.List.Perm.Basic
import Mathlib.Logic.Function.Basic

/-!
# A list read as a table

A list of records is read as a partial function: `key` says under which key a
record is listed, if it is listed at all, and `val` what is read there, if
anything is.  As long as the keys that occur are distinct, the order of the
records does not matter (`directory_perm`), and a record that comes or goes is
an update at its key.
-/

namespace NanoExchange
namespace Lib

variable {α β κ : Type*} [DecidableEq κ]

/-- What is read under a key: the value of the first record listed there. -/
def directory (key : α → Option κ) (val : α → Option β) (l : List α) :
    κ → Option β := fun k =>
  (l.find? fun x => key x = some k).bind val

variable {key : α → Option κ} {val : α → Option β} {x : α} {l l' : List α}
  {k : κ}

@[simp] theorem directory_nil :
    directory key val [] = fun _ => none := by
  rfl

theorem directory_cons_listed (h : key x = some k) :
    directory key val (x :: l) =
      Function.update (directory key val l) k (val x) := by
  funext k'
  by_cases hk : k' = k
  · subst hk
    simp [directory, h]
  · have hne : ¬ k = k' := fun e => hk e.symm
    simp [directory, h, hk, hne]

theorem directory_cons_unlisted (h : key x = none) :
    directory key val (x :: l) = directory key val l := by
  funext k
  simp [directory, h]

/-- Nothing is read under a key that no record has. -/
theorem directory_eq_none (h : k ∉ l.filterMap key) :
    directory key val l k = none := by
  have hfind : l.find? (fun x => key x = some k) = none := by
    rw [List.find?_eq_none]
    intro x hx hkey
    exact h (List.mem_filterMap.mpr ⟨x, hx, of_decide_eq_true hkey⟩)
  rw [directory, hfind, Option.bind_none]

/-- **If the keys are distinct, every record is read under its own.** -/
theorem directory_eq_some
    (hnodup : (l.filterMap key).Nodup) {v : β} :
    directory key val l k = some v ↔
      ∃ x ∈ l, key x = some k ∧ val x = some v := by
  induction l with
  | nil => simp
  | cons y l ih =>
      cases hy : key y with
      | none =>
          rw [List.filterMap_cons_none hy] at hnodup
          rw [directory_cons_unlisted hy, ih hnodup]
          simp [hy]
      | some k' =>
          rw [List.filterMap_cons_some hy] at hnodup
          obtain ⟨hnew, hnodup⟩ := List.nodup_cons.mp hnodup
          rw [directory_cons_listed hy]
          by_cases hk : k = k'
          · subst hk
            rw [Function.update_self, List.exists_mem_cons_iff]
            refine ⟨fun hv => .inl ⟨hy, hv⟩, ?_⟩
            rintro (⟨-, hv⟩ | ⟨x, hx, hkey, -⟩)
            · exact hv
            · exact absurd (List.mem_filterMap.mpr ⟨x, hx, hkey⟩) hnew
          · have hne : ¬ k' = k := fun e => hk e.symm
            rw [Function.update_of_ne hk, ih hnodup,
              List.exists_mem_cons_iff]
            simp [hy, hne]

theorem directory_perm
    (h : l.Perm l') (hnodup : (l.filterMap key).Nodup) :
    directory key val l = directory key val l' := by
  have hnodup' := (h.filterMap key).nodup_iff.mp hnodup
  funext k
  refine Option.ext fun v => ?_
  rw [directory_eq_some hnodup, directory_eq_some hnodup']
  simp only [h.mem_iff]

end Lib
end NanoExchange
