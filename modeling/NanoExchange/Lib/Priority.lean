import Mathlib.Data.List.Sort

/-!
# Stable priority lists

A list kept in priority order of a key: an element is placed behind everything
that is at least as good, so that elements of one key stay in arrival order.
`before` is the strict priority on keys and `key` reads an element's key.

The point of the module is `filter_place`: restricted to one key, placing an
element is appending it.  A list in priority order is thus the same thing as a
family of first-in-first-out queues, one for each key (`eq_of_queueAt`).
-/

namespace NanoExchange
namespace Lib

universe u v

variable {α : Type u} {κ : Type v}
variable (before : κ → κ → Prop) (key : α → κ)

/-- No element is preceded by one of strictly lower priority. -/
def InPriority (l : List α) : Prop :=
  l.Pairwise fun x y => ¬ before (key y) (key x)

/-- Place an element behind everything at least as good as it. -/
def place [DecidableRel before] (x : α) (l : List α) : List α :=
  l.orderedInsert (fun a b => before (key a) (key b)) x

/-- The queue of the elements of one key. -/
def queueAt [DecidableEq κ] (l : List α) (k : κ) : List α :=
  l.filter fun x => key x = k

variable {before key}

theorem mem_place
    [DecidableRel before] {x y : α} {l : List α} :
    y ∈ place before key x l ↔ y = x ∨ y ∈ l :=
  List.mem_orderedInsert _

theorem place_perm
    [DecidableRel before] (x : α) (l : List α) :
    (place before key x l).Perm (x :: l) :=
  List.perm_orderedInsert _ x l

theorem map_place
    {γ : Type*} [DecidableRel before] {key' : γ → κ} (f : α → γ)
    (hf : ∀ x, key' (f x) = key x) (x : α) (l : List α) :
    (place before key x l).map f = place before key' (f x) (l.map f) := by
  refine List.map_orderedInsert _ _ f l x ?_ ?_
  · intro a _
    simp [hf]
  · intro a _
    simp [hf]

/-- A relation that holds along a list in priority order still holds after an
element has been placed, if it holds from every element to the new one and
from the new one to every element it goes before. -/
theorem pairwise_place
    [DecidableRel before] [IsStrictTotalOrder κ before]
    {r : α → α → Prop} {x : α} {l : List α} (hl : l.Pairwise r)
    (hto : ∀ y ∈ l, ¬ before (key x) (key y) → r y x)
    (hfrom : ∀ y ∈ l, before (key x) (key y) → r x y)
    (h : InPriority before key l) :
    (place before key x l).Pairwise r := by
  unfold InPriority place at *
  induction l with
  | nil => simp
  | cons b l ih =>
      have hb := List.pairwise_cons.mp h
      have hr := List.pairwise_cons.mp hl
      by_cases hxb : before (key x) (key b)
      · rw [List.orderedInsert_cons, if_pos hxb]
        refine List.Pairwise.cons (fun c hc => hfrom c hc ?_) hl
        rcases List.mem_cons.mp hc with rfl | hc
        · exact hxb
        · by_contra hxc
          rcases trichotomous_of before (key b) (key c) with hbc | hbc | hcb
          · exact hxc (trans_of before hxb hbc)
          · exact hxc (hbc ▸ hxb)
          · exact hb.1 c hc hcb
      · rw [List.orderedInsert_cons, if_neg hxb]
        refine List.Pairwise.cons ?_ (ih hr.2 ?_ ?_ hb.2)
        · intro c hc
          rcases (List.mem_orderedInsert _).mp hc with rfl | hc
          · exact hto b List.mem_cons_self hxb
          · exact hr.1 c hc
        · exact fun y hy => hto y (List.mem_cons_of_mem _ hy)
        · exact fun y hy => hfrom y (List.mem_cons_of_mem _ hy)

theorem inPriority_place
    [DecidableRel before] [IsStrictTotalOrder κ before]
    {x : α} {l : List α} (h : InPriority before key l) :
    InPriority before key (place before key x l) :=
  pairwise_place h (fun _ _ hxy => hxy)
    (fun _ _ hxy => asymm_of before hxy) h

/-- Seen at one key, placing an element is appending it. -/
theorem filter_place
    [DecidableRel before] [DecidableEq κ] [IsStrictTotalOrder κ before]
    (x : α) {l : List α} (h : InPriority before key l) (k : κ) :
    queueAt key (place before key x l) k =
      queueAt key l k ++ if key x = k then [x] else [] := by
  unfold queueAt place
  induction l with
  | nil =>
      by_cases hx : key x = k <;> simp [hx]
  | cons b l ih =>
      have hb := List.pairwise_cons.mp h
      by_cases hxb : before (key x) (key b)
      · rw [List.orderedInsert_cons, if_pos hxb]
        by_cases hx : key x = k
        · have hnone : (b :: l).filter (fun y => key y = k) = [] := by
            refine List.filter_eq_nil_iff.mpr ?_
            intro c hc hck
            have hck : key c = key x := (of_decide_eq_true hck).trans hx.symm
            rcases List.mem_cons.mp hc with rfl | hc
            · exact irrefl_of before (key x) (hck ▸ hxb)
            · exact hb.1 c hc (hck ▸ hxb)
          rw [List.filter_cons_of_pos (by simpa using hx), hnone, if_pos hx]
          rfl
        · rw [List.filter_cons_of_neg (by simpa using hx), if_neg hx,
            List.append_nil]
      · rw [List.orderedInsert_cons, if_neg hxb, List.filter_cons,
          List.filter_cons, ih hb.2]
        split_ifs <;> simp

/-- A partial map that keeps the keys acts on each queue by itself. -/
theorem queueAt_filterMap
    [DecidableEq κ] {f : α → Option α}
    (hf : ∀ x y, f x = some y → key y = key x) (l : List α) (k : κ) :
    queueAt key (l.filterMap f) k = (queueAt key l k).filterMap f := by
  induction l with
  | nil => rfl
  | cons x l ih =>
      rw [queueAt] at ih ⊢
      cases hx : f x with
      | none =>
          rw [List.filterMap_cons_none hx, ih, queueAt, queueAt]
          by_cases hk : key x = k <;> simp [hk, hx]
      | some y =>
          have hkey := hf x y hx
          rw [List.filterMap_cons_some hx]
          by_cases hk : key x = k
          · simp [queueAt, hk, hx, hkey] at ih ⊢
            exact ih
          · simp [queueAt, hk, hkey] at ih ⊢
            exact ih

/-- **A list in priority order is determined by its queues.** -/
theorem eq_of_queueAt
    [DecidableEq κ] [IsStrictTotalOrder κ before] {l l' : List α}
    (h : InPriority before key l) (h' : InPriority before key l')
    (hq : ∀ k, queueAt key l k = queueAt key l' k) :
    l = l' := by
  have hmem : ∀ {m m' : List α}, (∀ k, queueAt key m k = queueAt key m' k) →
      ∀ x ∈ m, x ∈ m' := by
    intro m m' hm x hx
    have hx' : x ∈ queueAt key m (key x) := List.mem_filter.mpr ⟨hx, by simp⟩
    rw [hm] at hx'
    exact List.mem_of_mem_filter hx'
  induction l generalizing l' with
  | nil =>
      refine (List.eq_nil_iff_forall_not_mem.mpr fun x hx => ?_).symm
      exact absurd (hmem (fun k => (hq k).symm) x hx) List.not_mem_nil
  | cons x t ih =>
      cases l' with
      | nil => exact absurd (hmem hq x List.mem_cons_self) List.not_mem_nil
      | cons y t' =>
          have hx := List.pairwise_cons.mp h
          have hy := List.pairwise_cons.mp h'
          have hxy : ¬ before (key y) (key x) := by
            have hmem' := hmem (fun k => (hq k).symm) y List.mem_cons_self
            rcases List.mem_cons.mp hmem' with rfl | hyt
            · exact irrefl_of before _
            · exact hx.1 y hyt
          have hyx : ¬ before (key x) (key y) := by
            rcases List.mem_cons.mp (hmem hq x List.mem_cons_self) with
              rfl | hxt
            · exact irrefl_of before _
            · exact hy.1 x hxt
          have hkey : key x = key y :=
            Std.Trichotomous.trichotomous _ _ hyx hxy
          have hhead := hq (key x)
          simp only [queueAt, hkey, List.filter_cons, decide_true,
            if_true] at hhead
          obtain ⟨rfl, -⟩ := List.cons.inj hhead
          rw [ih hx.2 hy.2 fun k => ?_]
          have hk := hq k
          simp only [queueAt, List.filter_cons] at hk ⊢
          split_ifs at hk
          · exact (List.cons.inj hk).2
          · exact hk

theorem inPriority_filter
    {l : List α} (h : InPriority before key l) (p : α → Bool) :
    InPriority before key (l.filter p) :=
  List.Pairwise.filter p h

end Lib
end NanoExchange
