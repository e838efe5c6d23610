import Mathlib.Data.Finmap

/-!
# Two-level hash indices

`std::unordered_map<A, std::unordered_map<B, V>>` as a finite map of finite
maps.  `set` is `m[a][b] = v`; `unset` erases `b` from the inner map of `a`
and drops the inner map when that leaves it empty.  `find` is the two-step
lookup, and `NoEmpty` says that no inner map is empty.
-/

namespace NanoExchange
namespace Lib

universe u v w

/-- A finite map from `α` to finite maps from `β` to `ν`. -/
abbrev NestedIndex (α : Type u) (β : Type v) (ν : Type w) :=
  Finmap fun _ : α => Finmap fun _ : β => ν

namespace NestedIndex

variable {α : Type u} {β : Type v} {ν : Type w}
variable [DecidableEq α] [DecidableEq β]

/-- The inner map `m[a]`; a missing one reads as empty. -/
def inner (m : NestedIndex α β ν) (a : α) : Finmap fun _ : β => ν :=
  (m.lookup a).getD ∅

/-- The value stored under a pair of keys. -/
def find (m : NestedIndex α β ν) (a : α) (b : β) : Option ν :=
  (m.lookup a).bind fun i => i.lookup b

/-- `m[a][b] = v`. -/
def set (m : NestedIndex α β ν) (a : α) (b : β) (v : ν) : NestedIndex α β ν :=
  m.insert a ((m.inner a).insert b v)

/-- Erase `b` from `m[a]`, and `a` itself once `m[a]` is empty. -/
def unset [DecidableEq ν] (m : NestedIndex α β ν) (a : α) (b : β) :
    NestedIndex α β ν :=
  if (m.inner a).erase b = ∅ then m.erase a
  else m.insert a ((m.inner a).erase b)

/-- No outer key is mapped to an empty inner map. -/
def NoEmpty (m : NestedIndex α β ν) : Prop :=
  ∀ a i, m.lookup a = some i → i ≠ ∅

theorem lookup_inner
    (m : NestedIndex α β ν) (a : α) (b : β) :
    (m.inner a).lookup b = m.find a b := by
  unfold inner find
  cases m.lookup a <;> simp

@[simp] theorem find_empty (a : α) (b : β) :
    find (∅ : NestedIndex α β ν) a b = none := by
  simp [find]

theorem find_set
    (m : NestedIndex α β ν) (a a' : α) (b b' : β) (v : ν) :
    (m.set a b v).find a' b' =
      if a = a' ∧ b = b' then some v else m.find a' b' := by
  unfold set
  by_cases ha : a = a'
  · subst ha
    by_cases hb : b = b'
    · subst hb
      simp [find]
    · have hb' : b' ≠ b := fun h => hb h.symm
      simp only [find, Finmap.lookup_insert, Option.bind_some,
        Finmap.lookup_insert_of_ne _ hb', lookup_inner, hb, and_false, if_false]
  · have ha' : a' ≠ a := fun h => ha h.symm
    simp [find, Finmap.lookup_insert_of_ne _ ha', ha]

theorem find_unset
    [DecidableEq ν] (m : NestedIndex α β ν) (a a' : α) (b b' : β) :
    (m.unset a b).find a' b' =
      if a = a' ∧ b = b' then none else m.find a' b' := by
  have hinner :
      ((m.inner a).erase b).lookup b' =
        if b = b' then none else m.find a b' := by
    by_cases hb : b = b'
    · subst hb
      simp
    · have hb' : b' ≠ b := fun h => hb h.symm
      rw [Finmap.lookup_erase_ne hb', lookup_inner, if_neg hb]
  unfold unset
  by_cases ha : a = a'
  · subst ha
    split_ifs with hempty hb hb
    · simp [find]
    · rw [hempty, Finmap.lookup_empty] at hinner
      have hb' : b ≠ b' := fun h => hb ⟨rfl, h⟩
      rw [if_neg hb'] at hinner
      rw [← hinner]
      simp [find]
    · rw [find, Finmap.lookup_insert, Option.bind_some, hinner, if_pos hb.2]
    · have hb' : b ≠ b' := fun h => hb ⟨rfl, h⟩
      rw [find, Finmap.lookup_insert, Option.bind_some, hinner, if_neg hb']
  · have ha' : a' ≠ a := fun h => ha h.symm
    split_ifs with hempty h h
    · exact absurd h.1 ha
    · simp [find, Finmap.lookup_erase_ne ha']
    · exact absurd h.1 ha
    · simp [find, Finmap.lookup_insert_of_ne _ ha']

omit [DecidableEq β] in
theorem noEmpty_empty : NoEmpty (∅ : NestedIndex α β ν) := by
  intro a i h
  simp at h

theorem noEmpty_set
    {m : NestedIndex α β ν} (h : m.NoEmpty) (a : α) (b : β) (v : ν) :
    (m.set a b v).NoEmpty := by
  intro a' i hi
  by_cases ha : a' = a
  · subst ha
    rw [set, Finmap.lookup_insert] at hi
    obtain rfl := Option.some.inj hi
    intro hempty
    have hv : ((m.inner a').insert b v).lookup b = some v :=
      Finmap.lookup_insert _
    rw [hempty, Finmap.lookup_empty] at hv
    cases hv
  · rw [set, Finmap.lookup_insert_of_ne _ ha] at hi
    exact h a' i hi

theorem noEmpty_unset
    [DecidableEq ν] {m : NestedIndex α β ν} (h : m.NoEmpty) (a : α) (b : β) :
    (m.unset a b).NoEmpty := by
  intro a' i hi
  unfold unset at hi
  split_ifs at hi with hempty
  · by_cases ha : a' = a
    · subst ha
      simp at hi
    · rw [Finmap.lookup_erase_ne ha] at hi
      exact h a' i hi
  · by_cases ha : a' = a
    · subst ha
      rw [Finmap.lookup_insert] at hi
      obtain rfl := Option.some.inj hi
      exact hempty
    · rw [Finmap.lookup_insert_of_ne _ ha] at hi
      exact h a' i hi

end NestedIndex

end Lib
end NanoExchange
