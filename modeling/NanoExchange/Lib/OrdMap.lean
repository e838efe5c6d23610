import Mathlib.Data.List.Pairwise
import Mathlib.Order.RelClasses

/-!
# Ordered maps as sorted association lists

A finite map whose entries are kept strictly sorted by a comparator `lt`, in
the way a C++ `std::map<K, V, Cmp>` presents them to an iterator.  Sortedness
is a field of the structure, so every value of the type is a legal map.

The interface is extensional.  The lookup laws (`find?_insert`, `find?_erase`)
describe the contents, and `first?_eq_some` / `first?_eq_none` describe
`begin()` in terms of the lookup alone, so that a client never has to look at
the entry list.
-/

namespace NanoExchange
namespace Lib

universe u v

/-- A finite map with entries sorted by `lt`. -/
structure OrdMap (α : Type u) (β : Type v) (lt : α → α → Prop) where
  entries : List (α × β)
  sorted : entries.Pairwise (fun x y => lt x.1 y.1)

namespace OrdMap

section Entries

variable {α : Type u} {β : Type v}
variable (lt : α → α → Prop) [DecidableRel lt]

/-- Insert or replace one entry of a sorted entry list. -/
def insertEntry (k : α) (v : β) : List (α × β) → List (α × β)
  | [] => [(k, v)]
  | e :: es =>
      if lt k e.1 then (k, v) :: e :: es
      else if lt e.1 k then e :: insertEntry k v es
      else (k, v) :: es

/-- Look a key up in an entry list. -/
def findEntry [DecidableEq α] (k : α) : List (α × β) → Option β
  | [] => none
  | e :: es => if e.1 = k then some e.2 else findEntry k es

theorem mem_insertEntry
    {k : α} {v : β} {x : α × β} :
    ∀ {es : List (α × β)},
      x ∈ insertEntry lt k v es → x = (k, v) ∨ x ∈ es
  | [], h => by simpa [insertEntry] using h
  | e :: es, h => by
      unfold insertEntry at h
      split_ifs at h
      · simpa using h
      · rcases List.mem_cons.mp h with rfl | h
        · simp
        · rcases mem_insertEntry h with h | h
          · exact Or.inl h
          · exact Or.inr (List.mem_cons_of_mem _ h)
      · rcases List.mem_cons.mp h with h | h
        · exact Or.inl h
        · exact Or.inr (List.mem_cons_of_mem _ h)

theorem insertEntry_sorted
    [IsStrictTotalOrder α lt] (k : α) (v : β) :
    ∀ {es : List (α × β)},
      es.Pairwise (fun x y => lt x.1 y.1) →
        (insertEntry lt k v es).Pairwise (fun x y => lt x.1 y.1)
  | [], _ => by simp [insertEntry]
  | e :: es, h => by
      have hhead : ∀ x ∈ es, lt e.1 x.1 :=
        fun x hx => List.rel_of_pairwise_cons h hx
      have htail := h.of_cons
      unfold insertEntry
      split_ifs with h1 h2
      · refine List.Pairwise.cons ?_ h
        intro x hx
        rcases List.mem_cons.mp hx with rfl | hx
        · exact h1
        · exact trans_of lt h1 (hhead x hx)
      · refine List.Pairwise.cons ?_ (insertEntry_sorted k v htail)
        intro x hx
        rcases mem_insertEntry lt hx with rfl | hx
        · exact h2
        · exact hhead x hx
      · have hk : k = e.1 := Std.Trichotomous.trichotomous k e.1 h1 h2
        refine List.Pairwise.cons ?_ htail
        intro x hx
        rw [hk]
        exact hhead x hx

variable [DecidableEq α]

theorem findEntry_insertEntry
    [IsStrictTotalOrder α lt] (k k' : α) (v : β) :
    ∀ es : List (α × β),
      findEntry k' (insertEntry lt k v es) =
        if k = k' then some v else findEntry k' es
  | [] => by simp [insertEntry, findEntry]
  | e :: es => by
      have ih := findEntry_insertEntry k k' v es
      by_cases h1 : lt k e.1
      · simp [insertEntry, h1, findEntry]
      · by_cases h2 : lt e.1 k
        · rw [insertEntry, if_neg h1, if_pos h2, findEntry, ih, findEntry]
          by_cases hk : k = k'
          · have hne : e.1 ≠ k' := by
              intro he
              rw [he, ← hk] at h2
              exact irrefl_of lt k h2
            simp [hk, hne]
          · simp [hk]
        · have hek : k = e.1 := Std.Trichotomous.trichotomous k e.1 h1 h2
          rw [insertEntry, if_neg h1, if_neg h2, findEntry, findEntry, ← hek]
          by_cases hk : k = k' <;> simp [hk]

theorem mem_of_findEntry {k : α} {v : β} :
    ∀ {es : List (α × β)}, findEntry k es = some v → (k, v) ∈ es
  | [], h => by simp [findEntry] at h
  | e :: es, h => by
      by_cases hk : e.1 = k
      · have hv : e.2 = v := by simpa [findEntry, hk] using h
        subst hk
        subst hv
        simp
      · have h' : findEntry k es = some v := by simpa [findEntry, hk] using h
        exact List.mem_cons_of_mem _ (mem_of_findEntry h')

theorem findEntry_filter (k k' : α) :
    ∀ es : List (α × β),
      findEntry k' (es.filter fun x => x.1 ≠ k) =
        if k = k' then none else findEntry k' es
  | [] => by simp [findEntry]
  | e :: es => by
      have ih := findEntry_filter k k' es
      by_cases he : e.1 = k
      · rw [List.filter_cons_of_neg (by simpa using he), ih]
        by_cases hk : k = k'
        · simp [hk]
        · have hne : e.1 ≠ k' := fun h => hk (he.symm.trans h)
          simp [findEntry, hk, hne]
      · rw [List.filter_cons_of_pos (by simpa using he)]
        by_cases hk' : e.1 = k'
        · have hk : k ≠ k' := fun h => he (hk'.trans h.symm)
          simp [findEntry, hk', hk]
        · rw [findEntry, if_neg hk', ih, findEntry, if_neg hk']

end Entries

section Maps

variable {α : Type u} {β : Type v} {lt : α → α → Prop}

/-- The empty map. -/
def empty : OrdMap α β lt :=
  ⟨[], List.Pairwise.nil⟩

/-- The entry an iterator at `begin()` refers to. -/
def first? (m : OrdMap α β lt) : Option (α × β) :=
  m.entries.head?

/-- Insert a key, or overwrite its value. -/
def insert [DecidableRel lt] [IsStrictTotalOrder α lt]
    (m : OrdMap α β lt) (k : α) (v : β) : OrdMap α β lt :=
  ⟨insertEntry lt k v m.entries, insertEntry_sorted lt k v m.sorted⟩

variable [DecidableEq α]

/-- The value stored under a key. -/
def find? (m : OrdMap α β lt) (k : α) : Option β :=
  findEntry k m.entries

/-- Erase a key; nothing happens when it is absent. -/
def erase (m : OrdMap α β lt) (k : α) : OrdMap α β lt :=
  ⟨m.entries.filter fun x => x.1 ≠ k, m.sorted.filter _⟩

@[simp] theorem find?_empty (k : α) :
    (empty : OrdMap α β lt).find? k = none := by
  rfl

theorem find?_insert
    [DecidableRel lt] [IsStrictTotalOrder α lt]
    (m : OrdMap α β lt) (k k' : α) (v : β) :
    (m.insert k v).find? k' = if k = k' then some v else m.find? k' :=
  findEntry_insertEntry lt k k' v m.entries

theorem find?_erase
    (m : OrdMap α β lt) (k k' : α) :
    (m.erase k).find? k' = if k = k' then none else m.find? k' :=
  findEntry_filter k k' m.entries

/-- `begin()` is `end()` exactly when no key is present. -/
theorem first?_eq_none
    {m : OrdMap α β lt} (h : m.first? = none) (k : α) :
    m.find? k = none := by
  have hnil : m.entries = [] := List.head?_eq_none_iff.mp h
  simp [find?, hnil, findEntry]

/-- The entry at `begin()` is present, and no present key precedes it. -/
theorem first?_eq_some
    [IsStrictTotalOrder α lt] {m : OrdMap α β lt} {k : α} {v : β}
    (h : m.first? = some (k, v)) :
    m.find? k = some v ∧
      ∀ k', (m.find? k').isSome → ¬ lt k' k := by
  obtain ⟨es, hes⟩ : ∃ es, m.entries = (k, v) :: es :=
    List.head?_eq_some_iff.mp h
  have hsorted := m.sorted
  rw [hes] at hsorted
  refine ⟨by simp [find?, hes, findEntry], ?_⟩
  intro k' hk' hlt
  obtain ⟨v', hv'⟩ := Option.isSome_iff_exists.mp hk'
  have hmem : (k', v') ∈ (k, v) :: es := hes ▸ mem_of_findEntry hv'
  rcases List.mem_cons.mp hmem with heq | hmem
  · have hkk : k' = k := (Prod.ext_iff.mp heq).1
    rw [hkk] at hlt
    exact irrefl_of lt k hlt
  · exact asymm_of lt hlt (List.rel_of_pairwise_cons hsorted hmem)

end Maps

end OrdMap

end Lib
end NanoExchange
