import Mathlib.Data.List.Nodup

/-!
# Facts about concatenated lists

`exists_split_of_mem_filterMap` cuts a list at the one place where a value
occurs, and `filter_flatMap_split` finds what that place contributes to a
concatenation.  `flatMap_eq_flatMap_iff` compares two lists that are concatenated from
the same pieces: if one reading of a piece is never longer than the other, the
whole lists agree exactly when every piece reads the same.

`Along P l` says that each element of a list stands in the relation `P` to what
comes before it; it is built from the front to the back (`along_concat`).
`foldl_update_eq_some_iff` reads a function that a list of entries was written
into.  `filter_eq_of_perm_of_sorted` says which part of a list no sort
rearranges, and `pair_sublist_of_sublist` that taking elements out does not
rearrange any.
-/

namespace NanoExchange
namespace Lib

variable {α β : Type*}

/-- A list in which `b` occurs once under `f`, cut at that place. -/
theorem exists_split_of_mem_filterMap
    {f : α → Option β} {l : List α} {b : β}
    (hmem : b ∈ l.filterMap f) (hnodup : (l.filterMap f).Nodup) :
    ∃ l₁ x l₂, l = l₁ ++ x :: l₂ ∧ f x = some b ∧
      ∀ y ∈ l₁ ++ l₂, f y ≠ some b := by
  obtain ⟨x, hx, hfx⟩ := List.mem_filterMap.mp hmem
  obtain ⟨l₁, l₂, rfl⟩ := List.append_of_mem hx
  refine ⟨l₁, x, l₂, rfl, hfx, fun y hy hfy => ?_⟩
  rw [List.filterMap_append, List.filterMap_cons_some hfx,
    List.nodup_middle, List.nodup_cons, ← List.filterMap_append] at hnodup
  exact hnodup.1 (List.mem_filterMap.mpr ⟨y, hy, hfy⟩)

/-- If only the piece of `x` has elements with the property, and only such
elements, filtering the concatenation leaves that piece. -/
theorem filter_flatMap_split
    {g : α → List β} {p : β → Bool} {l₁ l₂ : List α} {x : α}
    (hother : ∀ y ∈ l₁ ++ l₂, ∀ z ∈ g y, ¬ p z) (hx : ∀ z ∈ g x, p z) :
    ((l₁ ++ x :: l₂).flatMap g).filter p = g x := by
  have hnil : ∀ l : List α, (∀ y ∈ l, ∀ z ∈ g y, ¬ p z) →
      (l.flatMap g).filter p = [] := by
    intro l hl
    refine List.filter_eq_nil_iff.mpr fun z hz => ?_
    obtain ⟨y, hy, hzy⟩ := List.mem_flatMap.mp hz
    exact hl y hy z hzy
  rw [List.flatMap_append, List.flatMap_cons, List.filter_append,
    List.filter_append, List.filter_eq_self.mpr hx,
    hnil l₁ fun y hy => hother y (List.mem_append_left _ hy),
    hnil l₂ fun y hy => hother y (List.mem_append_right _ hy),
    List.nil_append, List.append_nil]

theorem length_flatMap_le
    {f g : α → List β} (hle : ∀ x, (g x).length ≤ (f x).length)
    (l : List α) :
    (l.flatMap g).length ≤ (l.flatMap f).length := by
  induction l with
  | nil => exact Nat.le_refl _
  | cons x l ih =>
      rw [List.flatMap_cons, List.flatMap_cons, List.length_append,
        List.length_append]
      exact Nat.add_le_add (hle x) ih

theorem flatMap_eq_flatMap_iff
    {f g : α → List β} (hle : ∀ x, (g x).length ≤ (f x).length)
    {l : List α} :
    l.flatMap f = l.flatMap g ↔ ∀ x ∈ l, f x = g x := by
  constructor
  · intro h
    induction l with
    | nil => simp
    | cons x l ih =>
        rw [List.flatMap_cons, List.flatMap_cons] at h
        -- neither part is longer on the right, so the cut falls at one place
        have hlen := congrArg List.length h
        rw [List.length_append, List.length_append] at hlen
        have hx := hle x
        have hl := length_flatMap_le hle l
        obtain ⟨hhead, htail⟩ := List.append_inj h (by omega)
        intro y hy
        rcases List.mem_cons.mp hy with rfl | hy
        · exact hhead
        · exact ih htail y hy
  · intro h
    exact List.flatMap_congr h

/-- Two elements that are left of a list without repetitions stand in the order
in which they stood. -/
theorem pair_sublist_of_sublist
    {l l' : List α} {a b : α} (hsub : l'.Sublist l) (hnodup : l.Nodup)
    (hab : [a, b].Sublist l) (ha : a ∈ l') (hb : b ∈ l') :
    [a, b].Sublist l' := by
  induction hsub with
  | slnil => cases ha
  | @cons l' l x hsub ih =>
      obtain ⟨hx, hnodup⟩ := List.nodup_cons.mp hnodup
      cases hab with
      | cons _ hab => exact ih hnodup hab ha hb
      | cons_cons _ _ => exact absurd (hsub.subset ha) hx
  | @cons_cons l' l x hsub ih =>
      obtain ⟨hx, hnodup⟩ := List.nodup_cons.mp hnodup
      cases hab with
      | cons _ hab =>
          have hax : a ≠ x := by
            rintro rfl
            exact hx (hab.subset List.mem_cons_self)
          have hbx : b ≠ x := by
            rintro rfl
            exact hx (hab.subset (List.mem_cons_of_mem _ List.mem_cons_self))
          have ha' := (List.mem_cons.mp ha).resolve_left hax
          have hb' := (List.mem_cons.mp hb).resolve_left hbx
          exact (ih hnodup hab ha' hb').cons x
      | cons_cons _ hb₁ =>
          have hbx : b ≠ a := by
            rintro rfl
            exact hx (hb₁.subset List.mem_cons_self)
          have hb' := (List.mem_cons.mp hb).resolve_left hbx
          exact (List.singleton_sublist.mpr hb').cons_cons a

/-- Each element of the list is in the relation with what precedes it. -/
def Along (P : List α → α → Prop) (l : List α) : Prop :=
  ∀ pre x post, l = pre ++ x :: post → P pre x

theorem along_nil {P : List α → α → Prop} : Along P [] := by
  intro pre x post h
  simp at h

theorem along_concat
    {P : List α → α → Prop} {l : List α} {x : α} :
    Along P (l ++ [x]) ↔ Along P l ∧ P l x := by
  constructor
  · intro h
    refine ⟨fun pre y post hl => ?_, h l x [] rfl⟩
    exact h pre y (post ++ [x]) (by rw [hl]; simp)
  · rintro ⟨hl, hx⟩ pre y post h
    rcases List.eq_nil_or_concat' post with rfl | ⟨post, z, rfl⟩
    · obtain ⟨rfl, hxy⟩ := List.append_inj' h rfl
      obtain rfl := List.singleton_inj.mp hxy
      exact hx
    · rw [← List.cons_append, ← List.append_assoc] at h
      exact hl pre y post (List.append_inj' h rfl).1

/-- A list along which the relation holds is continued by one along which it
holds from there on. -/
theorem Along.append
    {P : List α → α → Prop} {l l' : List α} (h : Along P l)
    (h' : Along (fun pre x => P (l ++ pre) x) l') :
    Along P (l ++ l') := by
  intro pre x post hsplit
  rcases List.append_eq_append_iff.mp hsplit with
    ⟨mid, rfl, hl'⟩ | ⟨mid, rfl, hmid⟩
  · exact h' mid x post hl'
  · cases mid with
    | nil => simpa using h' [] x post hmid.symm
    | cons y mid =>
        obtain ⟨rfl, -⟩ := List.cons.inj hmid
        exact h pre x mid rfl

theorem Along.getElem?
    {P : List α → α → Prop} {l : List α} (h : Along P l)
    {k : Nat} {x : α} (hx : l[k]? = some x) :
    P (l.take k) x := by
  obtain ⟨hk, rfl⟩ := List.getElem?_eq_some_iff.mp hx
  refine h (l.take k) l[k] (l.drop (k + 1)) ?_
  rw [← List.drop_eq_getElem_cons hk, List.take_append_drop]

/-- Entries with different keys, written into a function one by one. -/
theorem foldl_update_eq_some_iff {κ β : Type*} [DecidableEq κ]
    {es : List (κ × β)} (hes : (es.map Prod.fst).Nodup)
    {f : κ → Option β} {k : κ} {v : β} :
    es.foldl (fun (f : κ → Option β) e => Function.update f e.1 (some e.2)) f
        k = some v ↔
      (k, v) ∈ es ∨ k ∉ es.map Prod.fst ∧ f k = some v := by
  induction es generalizing f with
  | nil => simp
  | cons e es ih =>
      obtain ⟨k', v'⟩ := e
      rw [List.map_cons, List.nodup_cons] at hes
      rw [List.foldl_cons, ih hes.2]
      by_cases hk : k = k'
      · subst hk
        have hmem : (k, v) ∉ es :=
          fun h => hes.1 (List.mem_map.mpr ⟨(k, v), h, rfl⟩)
        simp only [List.map_cons, List.mem_cons, Prod.mk.injEq, true_and,
          Function.update_self, Option.some.injEq, hes.1, hmem,
          not_false_eq_true, false_or, or_false, not_true_eq_false,
          false_and]
        exact eq_comm
      · simp only [List.map_cons, List.mem_cons, Prod.mk.injEq, hk, false_and,
          false_or, Function.update_of_ne hk]

/-- Sorting by a key leaves a part as it is whose keys increase. -/
theorem filter_eq_of_perm_of_sorted
    {α : Type*} {key : α → Nat} {p : α → Bool} {l l' : List α}
    (hperm : l'.Perm l) (hsorted : l'.Pairwise fun a b => key a ≤ key b)
    (hstrict : (l.filter p).Pairwise fun a b => key a < key b) :
    l'.filter p = l.filter p := by
  have hnodup : ((l.filter p).map key).Nodup := by
    rw [List.Nodup, List.pairwise_map]
    exact hstrict.imp fun hab => Nat.ne_of_lt hab
  have hfilter := hperm.filter p
  refine List.Perm.eq_of_pairwise ?_ (hsorted.filter p)
    (hstrict.imp fun hab => Nat.le_of_lt hab) hfilter
  intro a b ha hb hab hba
  exact List.inj_on_of_nodup_map hnodup (hfilter.subset ha) hb
    (Nat.le_antisymm hab hba)

end Lib
end NanoExchange
