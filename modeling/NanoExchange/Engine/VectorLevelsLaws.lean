import NanoExchange.Engine.Representation
import NanoExchange.Engine.VectorBook

/-!
# The level arrays are a lawful level table

`Chain` describes one side of the vector book: the prices of the open levels
form a list, sorted best first, which the `next_` / `prev_` links of the levels
spell out and of which the cached best level is the head.  A level that is not
open is as the constructor left it.

`insertPricelevel` puts a price into its place in this list, and
`removePriceLevel` takes one out.  The walk to the place ends because the list
has at most `MAX_PRICE_LEVELS` members.
-/

namespace NanoExchange
namespace VectorLevels

open Lib

theorem modifyAt_apply (arr : Price → PriceLevel) (k q : Price)
    (f : PriceLevel → PriceLevel) :
    modifyAt arr k f q = if q = k then f (arr k) else arr q := by
  simp [modifyAt, Function.update_apply]

theorem modifyAt?_apply (arr : Price → PriceLevel) (k : Option Price)
    (q : Price) (f : PriceLevel → PriceLevel) :
    modifyAt? arr k f q = if k = some q then f (arr q) else arr q := by
  cases k with
  | none => simp [modifyAt?]
  | some k =>
      rw [modifyAt?, modifyAt_apply]
      by_cases hq : q = k
      · simp [hq]
      · have hk : k ≠ q := fun e => hq e.symm
        simp [hq, hk]

/-- The array after a level has been chained in behind `curr`. -/
theorem chainAfter_apply
    {arr : Price → PriceLevel} {k curr : Price}
    (hk : k ≠ curr) (hnk : (arr curr).next ≠ some k)
    (hnc : (arr curr).next ≠ some curr) (q : Price) :
    chainAfter arr k curr q =
      if q = k then
        { arr k with next := (arr curr).next, prev := some curr }
      else if q = curr then { arr curr with next := some k }
      else if (arr curr).next = some q then { arr q with prev := some k }
      else arr q := by
  have hck : curr ≠ k := fun e => hk e.symm
  simp only [chainAfter, modifyAt_apply, modifyAt?_apply, if_neg hck]
  by_cases hqk : q = k
  · subst hqk
    simp [hk, hnk]
  · by_cases hqc : q = curr
    · subst hqc
      simp [hqk, hnc]
    · simp [hqk, hqc]

/-- The array after a level has been taken out of the chain. -/
theorem removePriceLevel_array
    {lv : VectorLevels} {s : Side} {k : Price}
    (hn : (lv.array s k).next ≠ some k) (hp : (lv.array s k).prev ≠ some k)
    (hnp : ∀ q, (lv.array s k).next = some q → (lv.array s k).prev ≠ some q)
    (q : Price) :
    (lv.removePriceLevel s k).array s q =
      if q = k then { price := (lv.array s k).price }
      else if (lv.array s k).next = some q then
        { lv.array s q with prev := (lv.array s k).prev }
      else if (lv.array s k).prev = some q then
        { lv.array s q with next := (lv.array s k).next }
      else lv.array s q := by
  have harray : (lv.removePriceLevel s k).array s =
      modifyAt
        (modifyAt?
          (modifyAt? (lv.array s) (lv.array s k).next
            fun l => { l with prev := (lv.array s k).prev })
          (lv.array s k).prev
          fun l => { l with next := (lv.array s k).next })
        k fun l =>
          { l with next := none, prev := none, head := none, tail := none } := by
    cases s <;> rfl
  rw [harray]
  simp only [modifyAt_apply, modifyAt?_apply]
  by_cases hqk : q = k
  · simp [hqk, hn, hp]
  · by_cases hqn : (lv.array s k).next = some q
    · simp [hqk, hqn, hnp q hqn]
    · simp [hqk, hqn]

/-- One side of the vector book: `c` lists the open levels. -/
structure Chain (s : Side) (arr : Price → PriceLevel) (best : Option Price)
    (E : Price → Option (Option Ptr × Option Ptr)) (c : List Price) :
    Prop where
  price : ∀ k, (arr k).price = k
  mem : ∀ k, k ∈ c ↔ (E k).isSome
  ends : ∀ k e, E k = some e → ((arr k).head, (arr k).tail) = e
  closed : ∀ k, E k = none → arr k = { price := k }
  sorted : c.Pairwise s.precedes
  linked : Linked (fun k => (arr k).next) (fun k => (arr k).prev) c
  best : best = c.head?
  bound : ∀ k ∈ c, k < maxPriceLevels

namespace Chain

variable {s : Side} {arr : Price → PriceLevel} {best : Option Price}
variable {E : Price → Option (Option Ptr × Option Ptr)} {c : List Price}

theorem nodup (h : Chain s arr best E c) : c.Nodup := by
  refine h.sorted.imp ?_
  rintro a b hab rfl
  exact irrefl_of s.precedes a hab

theorem length_le (h : Chain s arr best E c) :
    c.length ≤ maxPriceLevels := by
  have hsub : c ⊆ List.range maxPriceLevels :=
    fun k hk => List.mem_range.mpr (h.bound k hk)
  have hle := (h.nodup.subperm hsub).length_le
  rwa [List.length_range] at hle

/-- The links of a level in the middle of the chain. -/
theorem links
    {l₁ l₂ : List Price} {k : Price}
    (h : Chain s arr best E (l₁ ++ k :: l₂)) :
    (arr k).prev = l₁.getLast? ∧ (arr k).next = l₂.head? :=
  h.linked.neighbours

/-- Writing the ends of an open level's queue. -/
theorem store
    (h : Chain s arr best E c) {k : Price} (hk : (E k).isSome)
    (head tail : Option Ptr) :
    Chain s
      (modifyAt arr k fun _ => { arr k with head := head, tail := tail })
      best (Function.update E k (some (head, tail))) c := by
  have hfield : ∀ {β : Type} (f : PriceLevel → β),
      (f { arr k with head := head, tail := tail } = f (arr k)) →
      ∀ q, f (modifyAt arr k (fun _ =>
        { arr k with head := head, tail := tail }) q) = f (arr q) := by
    intro β f hf q
    rw [modifyAt_apply]
    by_cases hq : q = k
    · rw [if_pos hq, hf, hq]
    · rw [if_neg hq]
  constructor
  · intro q
    rw [hfield PriceLevel.price rfl q, h.price]
  · intro q
    rw [h.mem, Function.update_apply]
    by_cases hq : q = k
    · simp [hq, hk]
    · simp [hq]
  · intro q e he
    rw [modifyAt_apply]
    by_cases hq : q = k
    · rw [hq, Function.update_self] at he
      rw [if_pos hq]
      exact Option.some.inj he
    · rw [Function.update_of_ne hq] at he
      rw [if_neg hq]
      exact h.ends q e he
  · intro q hq
    rw [Function.update_apply] at hq
    by_cases hqk : q = k
    · simp [hqk] at hq
    · rw [modifyAt_apply, if_neg hqk]
      exact h.closed q (by simpa [hqk] using hq)
  · exact h.sorted
  · refine h.linked.congr (fun q _ => ?_) (fun q _ => ?_)
    · exact hfield PriceLevel.next rfl q
    · exact hfield PriceLevel.prev rfl q
  · exact h.best
  · exact h.bound

/-- A closed level is not in the chain, and no link leads to it. -/
theorem not_mem (h : Chain s arr best E c) {k : Price} (hk : E k = none) :
    k ∉ c := by
  rw [h.mem, hk]
  simp

/-- A closed level is put into the chain by setting links that agree with its
place. -/
theorem open_
    {l₁ l₂ : List Price} (h : Chain s arr best E (l₁ ++ l₂)) {k : Price}
    (hk : E k = none) (hbound : k < maxPriceLevels)
    (h₁ : ∀ x ∈ l₁, s.precedes x k) (h₂ : ∀ x ∈ l₂, s.precedes k x)
    {arr' : Price → PriceLevel} {best' : Option Price}
    (harr : ∀ q, arr' q =
      { arr q with
        next := if q = k then l₂.head?
          else if l₁.getLast? = some q then some k else (arr q).next
        prev := if q = k then l₁.getLast?
          else if l₂.head? = some q then some k else (arr q).prev })
    (hbest : best' = (l₁ ++ k :: l₂).head?) :
    Chain s arr' best' (Function.update E k (some (none, none)))
      (l₁ ++ k :: l₂) := by
  have hnot := h.not_mem hk
  constructor
  · intro q
    rw [harr]
    exact h.price q
  · intro q
    have hmem := h.mem q
    rw [List.mem_append] at hmem ⊢
    rw [List.mem_cons, Function.update_apply]
    by_cases hq : q = k
    · simp [hq]
    · simpa [hq] using hmem
  · intro q e he
    rw [harr]
    by_cases hq : q = k
    · rw [hq, Function.update_self] at he
      rw [hq, h.closed k hk]
      exact Option.some.inj he
    · rw [Function.update_of_ne hq] at he
      exact h.ends q e he
  · intro q hq
    rw [Function.update_apply] at hq
    by_cases hqk : q = k
    · simp [hqk] at hq
    · rw [if_neg hqk] at hq
      have hqc := h.not_mem hq
      have hl₁ : l₁.getLast? ≠ some q := fun e =>
        hqc (List.mem_append_left _ (List.mem_of_getLast? e))
      have hl₂ : l₂.head? ≠ some q := fun e =>
        hqc (List.mem_append_right _ (List.mem_of_mem_head? e))
      rw [harr, if_neg hqk, if_neg hqk, if_neg hl₁, if_neg hl₂, h.closed q hq]
  · have hsorted := List.pairwise_append.mp h.sorted
    refine List.pairwise_append.mpr
      ⟨hsorted.1, List.Pairwise.cons h₂ hsorted.2.1, ?_⟩
    intro x hx y hy
    rcases List.mem_cons.mp hy with rfl | hy
    · exact h₁ x hx
    · exact hsorted.2.2 x hx y hy
  · have hne : ∀ q ∈ l₁ ++ l₂, q ≠ k := fun q hq e => hnot (e ▸ hq)
    refine h.linked.insert h.nodup ?_ ?_ ?_ ?_
    · intro q hq
      rw [harr]
      exact if_neg (hne q hq)
    · intro q hq
      rw [harr]
      exact if_neg (hne q hq)
    · rw [harr]
      exact if_pos rfl
    · rw [harr]
      exact if_pos rfl
  · exact hbest
  · intro q hq
    rw [List.mem_append, List.mem_cons] at hq
    rcases hq with hq | rfl | hq
    · exact h.bound q (List.mem_append_left _ hq)
    · exact hbound
    · exact h.bound q (List.mem_append_right _ hq)

/-- An empty level is taken out of the chain. -/
theorem close
    {l₁ l₂ : List Price} {k : Price}
    (h : Chain s arr best E (l₁ ++ k :: l₂))
    {arr' : Price → PriceLevel} {best' : Option Price}
    (hk : arr' k = { price := k })
    (harr : ∀ q, q ≠ k → arr' q =
      { arr q with
        next := if l₁.getLast? = some q then l₂.head? else (arr q).next
        prev := if l₂.head? = some q then l₁.getLast? else (arr q).prev })
    (hbest : best' = (l₁ ++ l₂).head?) :
    Chain s arr' best' (Function.update E k none) (l₁ ++ l₂) := by
  have hnodup := h.nodup
  have hnot : k ∉ l₁ ++ l₂ := (List.nodup_middle.mp hnodup |>
    List.nodup_cons.mp).1
  have hne : ∀ q ∈ l₁ ++ l₂, q ≠ k := fun q hq e => hnot (e ▸ hq)
  constructor
  · intro q
    by_cases hq : q = k
    · rw [hq, hk]
    · rw [harr q hq]
      exact h.price q
  · intro q
    have hmem := h.mem q
    rw [List.mem_append, List.mem_cons] at hmem
    rw [List.mem_append, Function.update_apply]
    by_cases hq : q = k
    · subst hq
      rw [List.mem_append] at hnot
      simp [hnot]
    · simpa [hq] using hmem
  · intro q e he
    by_cases hq : q = k
    · rw [hq, Function.update_self] at he
      cases he
    · rw [Function.update_of_ne hq] at he
      rw [harr q hq]
      exact h.ends q e he
  · intro q hq
    by_cases hqk : q = k
    · rw [hqk, hk]
    · rw [Function.update_of_ne hqk] at hq
      have hqc := h.not_mem hq
      have hl₁ : l₁.getLast? ≠ some q := fun e =>
        hqc (List.mem_append_left _ (List.mem_of_getLast? e))
      have hl₂ : l₂.head? ≠ some q := fun e => hqc (List.mem_append_right _
        (List.mem_cons_of_mem _ (List.mem_of_mem_head? e)))
      rw [harr q hqk, if_neg hl₁, if_neg hl₂, h.closed q hq]
  · have hsub : (l₁ ++ l₂).Sublist (l₁ ++ k :: l₂) :=
      (List.Sublist.refl l₁).append (List.sublist_cons_self k l₂)
    exact h.sorted.sublist hsub
  · refine h.linked.unlink hnodup ?_ ?_
    · intro q hq
      rw [harr q (hne q hq)]
    · intro q hq
      rw [harr q (hne q hq)]
  · exact hbest
  · intro q hq
    refine h.bound q ?_
    rw [List.mem_append] at hq ⊢
    exact hq.imp_right (List.mem_cons_of_mem _)

/-- The first level of a side. -/
theorem open_first
    (h : Chain s arr best E []) {k : Price} (hk : E k = none)
    (hbound : k < maxPriceLevels) :
    Chain s arr (some k) (Function.update E k (some (none, none))) [k] := by
  have hclosed := h.closed k hk
  have h' : Chain s arr best E ([] ++ []) := h
  refine h'.open_ hk hbound (by simp) (by simp) ?_ rfl
  intro q
  by_cases hq : q = k
  · simp [hq, hclosed]
  · simp [hq]

/-- A level before the best one. -/
theorem open_front
    {b : Price} (h : Chain s arr best E (b :: c)) {k : Price}
    (hk : E k = none) (hbound : k < maxPriceLevels)
    (hprec : s.precedes k b) :
    Chain s
      (modifyAt (modifyAt arr k fun l => { l with next := some b }) b
        fun l => { l with prev := some k })
      (some k) (Function.update E k (some (none, none))) (k :: b :: c) := by
  have hclosed := h.closed k hk
  have hkb : k ≠ b := fun e => h.not_mem hk (e ▸ List.mem_cons_self)
  have h' : Chain s arr best E ([] ++ b :: c) := h
  refine h'.open_ hk hbound (by simp) ?_ ?_ rfl
  · intro x hx
    rcases List.mem_cons.mp hx with rfl | hx
    · exact hprec
    · exact trans_of s.precedes hprec
        ((List.pairwise_cons.mp h.sorted).1 x hx)
  · intro q
    rw [modifyAt_apply, modifyAt_apply, modifyAt_apply]
    by_cases hqk : q = k
    · subst hqk
      simp [hkb, hclosed]
    · by_cases hqb : q = b
      · subst hqb
        simp [hqk]
      · have hbq : b ≠ q := fun e => hqb e.symm
        simp [hqk, hqb, hbq]

/-- A level behind `m`, the last one that precedes it. -/
theorem open_after
    {l₁ l₂ : List Price} {m : Price}
    (h : Chain s arr best E (l₁ ++ m :: l₂)) {k : Price}
    (hk : E k = none) (hbound : k < maxPriceLevels)
    (h₁ : ∀ x ∈ l₁ ++ [m], s.precedes x k)
    (h₂ : ∀ x ∈ l₂, ¬ s.precedes x k) :
    Chain s (chainAfter arr k m) best
      (Function.update E k (some (none, none))) ((l₁ ++ [m]) ++ k :: l₂) := by
  have hlinks := h.links
  have hnot := h.not_mem hk
  have hkm : k ≠ m := fun e => hnot (by simp [e])
  have hnk : (arr m).next ≠ some k := by
    rw [hlinks.2]
    exact fun e => hnot (by simp [List.mem_of_mem_head? e])
  have hnm : (arr m).next ≠ some m := by
    rw [hlinks.2]
    intro e
    have hm := (List.nodup_cons.mp (List.nodup_middle.mp h.nodup)).1
    exact hm (List.mem_append_right _ (List.mem_of_mem_head? e))
  have hassoc : l₁ ++ m :: l₂ = (l₁ ++ [m]) ++ l₂ := by simp
  rw [hassoc] at h hnot
  refine h.open_ hk hbound h₁ ?_ ?_ ?_
  · intro x hx
    have hxk : x ≠ k := fun e => hnot (List.mem_append_right _ (e ▸ hx))
    exact s.precedes_of_not hxk (h₂ x hx)
  · intro q
    rw [chainAfter_apply hkm hnk hnm, List.getLast?_concat, hlinks.2]
    by_cases hqk : q = k
    · simp [hqk]
    · by_cases hqm : q = m
      · subst hqm
        rw [hlinks.2] at hnm
        simp [hqk, hnm]
      · have hmq : m ≠ q := fun e => hqm e.symm
        by_cases hhead : l₂.head? = some q
        · simp [hqk, hqm, hmq, hhead]
        · simp [hqk, hqm, hmq, hhead]
  · rw [h.best]
    cases l₁ <;> simp

end Chain

/-- The walk stops at the last level that precedes the new price. -/
theorem findSlot_ok
    {arr : Price → PriceLevel} {s : Side} {k curr : Price} {pv : Option Price}
    {l : List Price} {fuel : Nat}
    (hprice : ∀ q, (arr q).price = q)
    (hseg : Seg (fun q => (arr q).next) (fun q => (arr q).prev) pv
      (curr :: l) none)
    (hsorted : (curr :: l).Pairwise s.precedes) (hcurr : s.precedes curr k)
    (hfuel : l.length < fuel) :
    ∃ l₁ c l₂, curr :: l = l₁ ++ c :: l₂ ∧
      findSlot arr s k fuel curr = .ok c ∧
      (∀ x ∈ l₁ ++ [c], s.precedes x k) ∧ ∀ x ∈ l₂, ¬ s.precedes x k := by
  induction l generalizing curr pv fuel with
  | nil =>
      obtain ⟨fuel, rfl⟩ := Nat.exists_eq_succ_of_ne_zero hfuel.ne'
      have hnext : (arr curr).next = none := hseg.2.1
      refine ⟨[], curr, [], rfl, ?_, ?_, by simp⟩
      · simp [findSlot, hnext]
      · simpa using hcurr
  | cons n l ih =>
      obtain ⟨fuel, rfl⟩ :=
        Nat.exists_eq_succ_of_ne_zero (Nat.zero_lt_of_lt hfuel).ne'
      have hnext : (arr curr).next = some n := hseg.2.1
      have htail := (List.pairwise_cons.mp hsorted).2
      by_cases hn : s.precedes n k
      · obtain ⟨l₁, c, l₂, heq, hfind, h₁, h₂⟩ :=
          ih hseg.2.2 htail hn (Nat.succ_lt_succ_iff.mp hfuel)
        refine ⟨curr :: l₁, c, l₂, by rw [heq]; rfl, ?_, ?_, h₂⟩
        · simp [findSlot, hnext, hprice, hn, hfind]
        · intro x hx
          rcases List.mem_cons.mp hx with rfl | hx
          · exact hcurr
          · exact h₁ x hx
      · refine ⟨[], curr, n :: l, rfl, ?_, ?_, ?_⟩
        · simp [findSlot, hnext, hprice, hn]
        · simpa using hcurr
        · intro x hx hxk
          rcases List.mem_cons.mp hx with rfl | hx
          · exact hn hxk
          · exact hn (trans_of s.precedes
              ((List.pairwise_cons.mp htail).1 x hx) hxk)

/-- The arrays hold exactly the levels of `E`. -/
def Holds (lv : VectorLevels) (E : Contents) : Prop :=
  ∀ s, ∃ c, Chain s (lv.array s) (lv.bestPtr s) (E s) c

section Sides

variable (lv : VectorLevels) {s s' : Side} (arr : Price → PriceLevel)
variable (p : Option Price)

@[simp] theorem setArray_array : (lv.setArray s arr).array s = arr := by
  cases s <;> rfl

@[simp] theorem setArray_bestPtr :
    (lv.setArray s arr).bestPtr s' = lv.bestPtr s' := by
  cases s <;> cases s' <;> rfl

@[simp] theorem setBest_array : (lv.setBest s p).array s' = lv.array s' := by
  cases s <;> cases s' <;> rfl

@[simp] theorem setBest_bestPtr : (lv.setBest s p).bestPtr s = p := by
  cases s <;> rfl

theorem setArray_array_of_ne (h : s' ≠ s) :
    (lv.setArray s arr).array s' = lv.array s' := by
  cases s <;> cases s' <;> first | rfl | exact absurd rfl h

theorem setBest_bestPtr_of_ne (h : s' ≠ s) :
    (lv.setBest s p).bestPtr s' = lv.bestPtr s' := by
  cases s <;> cases s' <;> first | rfl | exact absurd rfl h

end Sides

variable {lv lv' : VectorLevels} {E : Contents}

/-- A change to one side. -/
theorem Holds.change
    (h : lv.Holds E) {s : Side} {k : Price}
    {v : Option (Option Ptr × Option Ptr)} {c : List Price}
    (hother : ∀ s', s' ≠ s →
      lv'.array s' = lv.array s' ∧ lv'.bestPtr s' = lv.bestPtr s')
    (hs : Chain s (lv'.array s) (lv'.bestPtr s)
      (Function.update (E s) k v) c) :
    lv'.Holds (E.set s k v) := by
  intro s'
  by_cases hss : s' = s
  · subst hss
    rw [E.set_side]
    exact ⟨c, hs⟩
  · obtain ⟨c', hc'⟩ := h s'
    rw [E.set_side_of_ne hss, (hother s' hss).1, (hother s' hss).2]
    exact ⟨c', hc'⟩

/-- **`insertPricelevel` chains a closed level in at its place.** -/
theorem Holds.insertPricelevel
    (h : lv.Holds E) {s : Side} {k : Price} (hk : E s k = none)
    (hbound : k < maxPriceLevels) :
    ∃ lv', lv.insertPricelevel s k = .ok lv' ∧
      lv'.Holds (E.set s k (some (none, none))) := by
  obtain ⟨c, hc⟩ := h s
  cases c with
  | nil =>
      have hbest : lv.bestPtr s = none := hc.best
      refine ⟨lv.setBest s (some k), ?_, ?_⟩
      · simp [VectorLevels.insertPricelevel, hbest]
      refine h.change (c := [k]) (fun s' hs' =>
        ⟨lv.setBest_array _, lv.setBest_bestPtr_of_ne _ hs'⟩) ?_
      rw [setBest_array, setBest_bestPtr]
      exact hc.open_first hk hbound
  | cons b c =>
      have hbest : lv.bestPtr s = some b := hc.best
      by_cases hprec : s.precedes k b
      · refine ⟨(lv.setArray s
          (modifyAt (modifyAt (lv.array s) k fun l => { l with next := some b })
            b fun l => { l with prev := some k })).setBest s (some k), ?_, ?_⟩
        · simp only [VectorLevels.insertPricelevel, hbest, hc.price, hprec,
            if_true]
        refine h.change (c := k :: b :: c) (fun s' hs' => ⟨?_, ?_⟩) ?_
        · rw [setBest_array, setArray_array_of_ne _ _ hs']
        · rw [setBest_bestPtr_of_ne _ _ hs', setArray_bestPtr]
        rw [setBest_array, setArray_array, setBest_bestPtr]
        exact hc.open_front hk hbound hprec
      · have hkb : k ≠ b := fun e => hc.not_mem hk (e ▸ List.mem_cons_self)
        obtain ⟨l₁, m, l₂, heq, hfind, h₁, h₂⟩ :=
          findSlot_ok hc.price hc.linked hc.sorted
            (s.precedes_of_not hkb hprec) hc.length_le
        refine ⟨lv.setArray s (chainAfter (lv.array s) k m), ?_, ?_⟩
        · simp only [VectorLevels.insertPricelevel, hbest, hc.price, hprec,
            if_false, hfind]
          rfl
        refine h.change (c := (l₁ ++ [m]) ++ k :: l₂) (fun s' hs' =>
          ⟨setArray_array_of_ne _ _ hs', setArray_bestPtr _ _⟩) ?_
        rw [setArray_array, setArray_bestPtr]
        rw [heq] at hc
        exact hc.open_after hk hbound h₁ h₂

/-- **`removePriceLevel` takes an empty level out of the chain.** -/
theorem Holds.removePriceLevel
    (h : lv.Holds E) {s : Side} {k : Price} (hk : (E s k).isSome) :
    (lv.removePriceLevel s k).Holds (E.set s k none) := by
  obtain ⟨c, hc⟩ := h s
  obtain ⟨l₁, l₂, rfl⟩ := List.append_of_mem ((hc.mem k).mpr hk)
  obtain ⟨hprev, hnext⟩ := hc.links
  have hnodup := List.nodup_middle.mp hc.nodup
  have hnot := (List.nodup_cons.mp hnodup).1
  have hdisj := (List.nodup_append.mp (List.nodup_cons.mp hnodup).2).2.2
  have hn : (lv.array s k).next ≠ some k := by
    rw [hnext]
    exact fun e => hnot (List.mem_append_right _ (List.mem_of_mem_head? e))
  have hp : (lv.array s k).prev ≠ some k := by
    rw [hprev]
    exact fun e => hnot (List.mem_append_left _ (List.mem_of_getLast? e))
  have hnp : ∀ q, (lv.array s k).next = some q →
      (lv.array s k).prev ≠ some q := by
    intro q hq
    rw [hnext] at hq
    rw [hprev]
    exact fun e => hdisj q (List.mem_of_getLast? e) q
      (List.mem_of_mem_head? hq) rfl
  have harray := removePriceLevel_array hn hp hnp
  refine h.change (c := l₁ ++ l₂) (fun s' hs' => ⟨?_, ?_⟩) ?_
  · rw [VectorLevels.removePriceLevel, setBest_array,
      setArray_array_of_ne _ _ hs']
  · rw [VectorLevels.removePriceLevel, setBest_bestPtr_of_ne _ _ hs',
      setArray_bestPtr]
  refine hc.close ?_ ?_ ?_
  · rw [harray, if_pos rfl, hc.price]
  · intro q hq
    rw [harray, if_neg hq, hnext, hprev]
    by_cases hh : l₂.head? = some q
    · have hl : l₁.getLast? ≠ some q := by
        rw [← hprev]
        exact hnp q (hnext.trans hh)
      simp [hh, hl]
    · by_cases hl : l₁.getLast? = some q <;> simp [hh, hl]
  · rw [VectorLevels.removePriceLevel, setBest_bestPtr, hc.best, hnext]
    cases l₁ with
    | nil => simp
    | cons x l₁ =>
        have hx : x ≠ k := fun e => hnot (by simp [e])
        simp [hx]

instance : LawfulLevels VectorLevels where
  Valid k := k < maxPriceLevels
  Abs := Holds
  abs_empty s := by
    refine ⟨[], ?_⟩
    have harr : (LevelTable.empty : VectorLevels).array s =
        fun p => { price := p } := by
      cases s <;> rfl
    have hbest : (LevelTable.empty : VectorLevels).bestPtr s = none := by
      cases s <;> rfl
    rw [harr, hbest]
    constructor <;> simp [Linked, Seg]
  best_none {lv E s} h hbest k := by
    obtain ⟨c, hc⟩ := h s
    obtain rfl : c = [] :=
      List.head?_eq_none_iff.mp (hc.best.symm.trans hbest)
    exact Option.not_isSome_iff_eq_none.mp fun hk => by
      simpa using (hc.mem k).mpr hk
  best_some {lv E s k} h hbest := by
    obtain ⟨c, hc⟩ := h s
    obtain ⟨c, rfl⟩ : ∃ l, c = k :: l :=
      List.head?_eq_some_iff.mp (hc.best.symm.trans hbest)
    refine ⟨(hc.mem k).mp List.mem_cons_self, fun k' hk' hprec => ?_⟩
    rcases List.mem_cons.mp ((hc.mem k').mpr hk') with rfl | hmem
    · exact irrefl_of s.precedes _ hprec
    · exact asymm_of s.precedes hprec
        ((List.pairwise_cons.mp hc.sorted).1 k' hmem)
  levelPrice_eq {lv E s k} h _ := by
    obtain ⟨c, hc⟩ := h s
    exact hc.price k
  loopHead_eq {lv E} s {k} h _ := by
    obtain ⟨c, hc⟩ := h s
    show Except.ok _ = Except.ok _
    cases hE : E s k with
    | none => rw [hc.closed k hE, Option.bind_none]
    | some e => rw [Option.bind_some, ← hc.ends k e hE]
  openLevel_ok {lv E s k} h hk hhead := by
    obtain ⟨c, hc⟩ := h s
    cases hE : E s k with
    | none =>
        have hnull : (lv.array s k).head = none := by
          rw [hc.closed k hE]
        obtain ⟨lv', hlv', hholds⟩ := h.insertPricelevel hE hk
        refine ⟨lv', ?_, hholds⟩
        show (if k < maxPriceLevels then _ else _) = _
        rw [if_pos hk, if_pos hnull, hlv']
    | some e =>
        have hends := hc.ends k e hE
        have hnn : (lv.array s k).head ≠ none := by
          have hne := hhead e hE
          rwa [← hends] at hne
        refine ⟨lv, ?_, ?_⟩
        · show (if k < maxPriceLevels then _ else _) = _
          rw [if_pos hk, if_neg hnn]
        · rw [E.set_getD hE]
          exact h
  fetch_ok {lv E s k e} h hk he := by
    obtain ⟨c, hc⟩ := h s
    have hends := hc.ends k e he
    refine ⟨lv.array s k, if_pos hk, congrArg Prod.fst hends,
      congrArg Prod.snd hends, fun head tail => ?_⟩
    refine h.change (c := c) (fun s' hs' =>
      ⟨setArray_array_of_ne _ _ hs', setArray_bestPtr _ _⟩) ?_
    show Chain s ((lv.setArray s _).array s) ((lv.setArray s _).bestPtr s) _ c
    rw [setArray_array, setArray_bestPtr]
    exact hc.store (by rw [he]; rfl) head tail
  valid_of_fetch {lv s k level} hfetch := by
    by_contra hk
    have hnone : LevelTable.fetch lv s k = .error .outOfRange := if_neg hk
    rw [hnone] at hfetch
    cases hfetch
  fetch_closed {lv E s k} h hk hE := by
    obtain ⟨c, hc⟩ := h s
    refine ⟨lv.array s k, if_pos hk, ?_, ?_⟩
    · rw [hc.closed k hE]
    · rw [hc.closed k hE]
  closeLevel_abs {lv E s k} h _ he :=
    h.removePriceLevel (by rw [he]; rfl)

end VectorLevels
end NanoExchange
