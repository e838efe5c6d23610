import NanoExchange.Engine.Representation
import NanoExchange.Variants.BitmapLevels

/-!
# The bitmap levels are a lawful level table

`Tracks` ties one side of the table to its contents: an open level has its bit
set, and the cached best price is the best of the open levels.  Opening a level
can only improve the best price; closing the best level leaves the nearest
occupied price behind it, which the search of `BitmapLevels.lean` finds.
-/

namespace NanoExchange

open Lib

namespace BitmapLevels

/-- The best price of a set, on one side. -/
def bestOf : Side → Set Price → Price → Prop
  | .buy => IsGreatest
  | .sell => IsLeast

/-- `nextOccupiedDesc` or `nextOccupiedAsc` -/
def nextOccupied : Side → Bitmap 64 → Price → Price
  | .buy => nextOccupiedDesc
  | .sell => nextOccupiedAsc

theorem bestOf_iff {s : Side} {S : Set Price} {k : Price} :
    bestOf s S k ↔ k ∈ S ∧ ∀ k' ∈ S, ¬ s.precedes k' k := by
  cases s with
  | buy => simp [bestOf, IsGreatest, upperBounds, Side.precedes]
  | sell => simp [bestOf, IsLeast, lowerBounds, Side.precedes]

/-- The search that replaces a best price goes away from it. -/
theorem nextOccupied_picks (s : Side) (bitmap : Bitmap 64) (start : Price) :
    Picks (bestOf s) {p | ¬ s.precedes p start ∧ p ∈ Occupied bitmap}
      (nextOccupied s bitmap start) := by
  cases s with
  | buy =>
      simpa [Side.precedes, bestOf, nextOccupied] using
        nextOccupiedDesc_picks bitmap start
  | sell =>
      simpa [Side.precedes, bestOf, nextOccupied] using
        nextOccupiedAsc_picks bitmap start

/-- `Price_INVALID` is not a price of the table. -/
theorem ne_priceInvalid {k : Price} (hk : k < maxPriceLevels) :
    k ≠ priceInvalid := by
  rintro rfl
  exact absurd hk (by decide)

/-- An answer that is a price is the best of the set. -/
theorem Picks.of_ne
    {best : Set Price → Price → Prop} {S : Set Price} {k : Price}
    (h : Picks best S k) (hk : k ≠ priceInvalid) : best S k := by
  rcases h with ⟨-, rfl⟩ | h
  · exact absurd rfl hk
  · exact h

/-- The answer `Price_INVALID` means that the set is empty. -/
theorem Picks.eq_empty
    {s : Side} {S : Set Price} (h : Picks (bestOf s) S priceInvalid)
    (hS : ∀ k ∈ S, k < maxPriceLevels) : S = ∅ := by
  rcases h with ⟨hS, -⟩ | h
  · exact hS
  · exact absurd rfl (ne_priceInvalid (hS _ (bestOf_iff.mp h).1))

/-- The array, the bitmap and the best price of a side hold exactly the levels
of `E`. -/
structure Tracks (s : Side) (arr : Price → PriceLevel) (bitmap : Bitmap 64)
    (best : Price) (E : Price → Option (Option Ptr × Option Ptr)) : Prop where
  ends : ∀ k e, E k = some e → ((arr k).head, (arr k).tail) = e
  closed : ∀ k, E k = none → (arr k).head = none ∧ (arr k).tail = none
  bound : ∀ k, (E k).isSome → k < maxPriceLevels
  bit : ∀ k, bitmap.Has k ↔ (E k).isSome
  best : Picks (bestOf s) {k | (E k).isSome} best

namespace Tracks

variable {s : Side} {arr : Price → PriceLevel} {bitmap : Bitmap 64}
variable {best : Price} {E : Price → Option (Option Ptr × Option Ptr)}

/-- A new level is the best one if the side was empty, or if it precedes the
best so far. -/
theorem best_open
    (h : Tracks s arr bitmap best E) (k : Price)
    (v : Option Ptr × Option Ptr) :
    Picks (bestOf s) {q | (Function.update E k (some v) q).isSome}
      (if best = priceInvalid ∨ s.precedes k best then k else best) := by
  have hset : {q | (Function.update E k (some v) q).isSome} =
      {q | q = k ∨ (E q).isSome} := by
    ext q
    by_cases hq : q = k <;> simp [Function.update_apply, hq]
  rw [hset]
  refine .inr (bestOf_iff.mpr ?_)
  by_cases hempty : best = priceInvalid
  · have hbest := h.best
    rw [hempty] at hbest
    have hnone := hbest.eq_empty h.bound
    rw [if_pos (Or.inl hempty)]
    refine ⟨Or.inl rfl, ?_⟩
    rintro q (rfl | hq)
    · exact irrefl_of s.precedes q
    · exact absurd (show q ∈ {k | (E k).isSome} from hq) (by simp [hnone])
  · obtain ⟨hmem, hmin⟩ := bestOf_iff.mp (h.best.of_ne hempty)
    by_cases hprec : s.precedes k best
    · rw [if_pos (Or.inr hprec)]
      refine ⟨Or.inl rfl, ?_⟩
      rintro q (rfl | hq) hqk
      · exact irrefl_of s.precedes q hqk
      · exact hmin q hq (trans_of s.precedes hqk hprec)
    · rw [if_neg (not_or.mpr ⟨hempty, hprec⟩)]
      refine ⟨Or.inr hmem, ?_⟩
      rintro q (rfl | hq)
      · exact hprec
      · exact hmin q hq

theorem openLevel
    (h : Tracks s arr bitmap best E) {k : Price} (hk : E k = none)
    (hbound : k < maxPriceLevels) :
    Tracks s arr (bitmap.set k)
      (if best = priceInvalid ∨ s.precedes k best then k else best)
      (Function.update E k (some (none, none))) where
  ends q e he := by
    by_cases hq : q = k
    · subst hq
      rw [Function.update_self] at he
      obtain rfl := Option.some.inj he
      exact Prod.ext (h.closed q hk).1 (h.closed q hk).2
    · rw [Function.update_of_ne hq] at he
      exact h.ends q e he
  closed q hnone := by
    by_cases hq : q = k
    · subst hq
      exact h.closed q hk
    · rw [Function.update_of_ne hq] at hnone
      exact h.closed q hnone
  bound q hsome := by
    by_cases hq : q = k
    · exact hq ▸ hbound
    · rw [Function.update_of_ne hq] at hsome
      exact h.bound q hsome
  bit q := by
    rw [Bitmap.has_set (by decide), h.bit q]
    by_cases hq : q = k <;> simp [hq]
  best := h.best_open k _

/-- Writing the ends of an open level. -/
theorem store
    (h : Tracks s arr bitmap best E) {k : Price} (hk : (E k).isSome)
    (head tail : Option Ptr) :
    Tracks s
      (Function.update arr k { arr k with head := head, tail := tail })
      bitmap best (Function.update E k (some (head, tail))) := by
  have hsome : ∀ q, (Function.update E k (some (head, tail)) q).isSome ↔
      (E q).isSome := by
    intro q
    by_cases hq : q = k
    · simp [hq, hk]
    · simp [Function.update_of_ne hq]
  constructor
  · intro q e he
    by_cases hq : q = k
    · subst hq
      rw [Function.update_self] at he ⊢
      exact Option.some.inj he
    · rw [Function.update_of_ne hq] at he ⊢
      exact h.ends q e he
  · intro q hnone
    by_cases hq : q = k
    · subst hq
      simp at hnone
    · rw [Function.update_of_ne hq] at hnone ⊢
      exact h.closed q hnone
  · intro q hq
    exact h.bound q ((hsome q).mp hq)
  · intro q
    rw [h.bit q, hsome q]
  · simp only [hsome]
    exact h.best

/-- The best price after a level has been closed. -/
theorem best_close
    (h : Tracks s arr bitmap best E) {k : Price} (hk : (E k).isSome) :
    Picks (bestOf s) {q | (Function.update E k none q).isSome}
      (if best = k then nextOccupied s (bitmap.clear k) k else best) := by
  have hset : {q | (Function.update E k none q).isSome} =
      {q | q ≠ k ∧ (E q).isSome} := by
    ext q
    by_cases hq : q = k <;> simp [Function.update_apply, hq]
  have hvalid : best ≠ priceInvalid := by
    rintro rfl
    have hempty := h.best.eq_empty h.bound
    exact absurd (show k ∈ {q | (E q).isSome} from hk) (by simp [hempty])
  obtain ⟨hmem, hmin⟩ := bestOf_iff.mp (h.best.of_ne hvalid)
  rw [hset]
  by_cases hbest : best = k
  · subst hbest
    rw [if_pos rfl]
    -- nothing precedes the level that was the best
    have hrest : {p | ¬ s.precedes p best ∧ p ∈ Occupied (bitmap.clear best)} =
        {q | q ≠ best ∧ (E q).isSome} := by
      ext q
      constructor
      · rintro ⟨-, -, hhas⟩
        rw [Bitmap.has_clear (by decide), h.bit q] at hhas
        exact hhas
      · rintro ⟨hne, hq⟩
        refine ⟨hmin q hq, h.bound q hq, ?_⟩
        rw [Bitmap.has_clear (by decide), h.bit q]
        exact ⟨hne, hq⟩
    rw [← hrest]
    exact nextOccupied_picks s (bitmap.clear best) best
  · rw [if_neg hbest]
    refine .inr (bestOf_iff.mpr ⟨⟨hbest, hmem⟩, ?_⟩)
    rintro q ⟨-, hq⟩
    exact hmin q hq

theorem closeLevel
    (h : Tracks s arr bitmap best E) {k : Price} (hk : E k = some (none, none)) :
    Tracks s arr (bitmap.clear k)
      (if best = k then nextOccupied s (bitmap.clear k) k else best)
      (Function.update E k none) where
  ends q e he := by
    by_cases hq : q = k
    · subst hq
      simp at he
    · rw [Function.update_of_ne hq] at he
      exact h.ends q e he
  closed q hnone := by
    by_cases hq : q = k
    · subst hq
      exact Prod.ext_iff.mp (h.ends q _ hk)
    · rw [Function.update_of_ne hq] at hnone
      exact h.closed q hnone
  bound q hsome := by
    by_cases hq : q = k
    · subst hq
      simp at hsome
    · rw [Function.update_of_ne hq] at hsome
      exact h.bound q hsome
  bit q := by
    rw [Bitmap.has_clear (by decide), h.bit q]
    by_cases hq : q = k <;> simp [hq]
  best := h.best_close (by rw [hk]; rfl)

end Tracks

/-- The table holds exactly the levels of `E`. -/
def Holds (lv : BitmapLevels) (E : Contents) : Prop :=
  ∀ s, Tracks s (lv.array s) (lv.occupied s) (lv.bestPrice s) (E s)

section Sides

variable (lv : BitmapLevels) {s s' : Side} (k : Price)
variable (arr : Price → PriceLevel)

@[simp] theorem setArray_array : (lv.setArray s arr).array s = arr := by
  cases s <;> rfl

theorem setArray_array_of_ne (h : s' ≠ s) :
    (lv.setArray s arr).array s' = lv.array s' := by
  cases s <;> cases s' <;> first | rfl | exact absurd rfl h

@[simp] theorem setArray_occupied :
    (lv.setArray s arr).occupied s' = lv.occupied s' := by
  cases s <;> cases s' <;> rfl

@[simp] theorem setArray_bestPrice :
    (lv.setArray s arr).bestPrice s' = lv.bestPrice s' := by
  cases s <;> cases s' <;> rfl

@[simp] theorem insertPriceLevel_array :
    (lv.insertPriceLevel s k).array s' = lv.array s' := by
  cases s <;> cases s' <;> rfl

theorem insertPriceLevel_occupied :
    (lv.insertPriceLevel s k).occupied s = (lv.occupied s).set k := by
  rw [← setBit_eq]
  cases s <;> rfl

theorem insertPriceLevel_bestPrice :
    (lv.insertPriceLevel s k).bestPrice s =
      if lv.bestPrice s = priceInvalid ∨ s.precedes k (lv.bestPrice s) then k
      else lv.bestPrice s := by
  cases s <;> rfl

@[simp] theorem removePriceLevel_array :
    (lv.removePriceLevel s k).array s' = lv.array s' := by
  cases s <;> cases s' <;> rfl

theorem removePriceLevel_occupied :
    (lv.removePriceLevel s k).occupied s = (lv.occupied s).clear k := by
  rw [← clearBit_eq]
  cases s <;> rfl

theorem removePriceLevel_bestPrice :
    (lv.removePriceLevel s k).bestPrice s =
      if lv.bestPrice s = k then
        nextOccupied s ((lv.occupied s).clear k) k
      else lv.bestPrice s := by
  rw [← clearBit_eq]
  cases s <;> rfl

end Sides

/-- Side `s` is the same in both tables. -/
def SameSide (lv lv' : BitmapLevels) (s : Side) : Prop :=
  lv'.array s = lv.array s ∧ lv'.occupied s = lv.occupied s ∧
    lv'.bestPrice s = lv.bestPrice s

theorem sameSide_insertPriceLevel
    (lv : BitmapLevels) {s s' : Side} (k : Price) (h : s' ≠ s) :
    SameSide lv (lv.insertPriceLevel s k) s' := by
  cases s <;> cases s' <;> first | exact ⟨rfl, rfl, rfl⟩ | exact absurd rfl h

theorem sameSide_removePriceLevel
    (lv : BitmapLevels) {s s' : Side} (k : Price) (h : s' ≠ s) :
    SameSide lv (lv.removePriceLevel s k) s' := by
  cases s <;> cases s' <;> first | exact ⟨rfl, rfl, rfl⟩ | exact absurd rfl h

variable {lv lv' : BitmapLevels} {E : Contents}

/-- A change to one side. -/
theorem Holds.change
    (h : lv.Holds E) {s : Side} {k : Price}
    {v : Option (Option Ptr × Option Ptr)}
    (hother : ∀ s', s' ≠ s → SameSide lv lv' s')
    (hs : Tracks s (lv'.array s) (lv'.occupied s) (lv'.bestPrice s)
      (Function.update (E s) k v)) :
    lv'.Holds (E.set s k v) := by
  intro s'
  by_cases hss : s' = s
  · subst hss
    rw [E.set_side]
    exact hs
  · obtain ⟨harr, hocc, hbest⟩ := hother s' hss
    rw [E.set_side_of_ne hss, harr, hocc, hbest]
    exact h s'

theorem Holds.setArray
    (h : lv.Holds E) {s : Side} {k : Price}
    {v : Option (Option Ptr × Option Ptr)} {arr : Price → PriceLevel}
    (hs : Tracks s arr (lv.occupied s) (lv.bestPrice s)
      (Function.update (E s) k v)) :
    (lv.setArray s arr).Holds (E.set s k v) := by
  refine h.change (fun s' hs' => ?_) ?_
  · exact ⟨lv.setArray_array_of_ne arr hs', lv.setArray_occupied arr,
      lv.setArray_bestPrice arr⟩
  · rw [setArray_array, setArray_occupied, setArray_bestPrice]
    exact hs

theorem Holds.insertPriceLevel
    (h : lv.Holds E) {s : Side} {k : Price} (hk : E s k = none)
    (hbound : k < maxPriceLevels) :
    (lv.insertPriceLevel s k).Holds (E.set s k (some (none, none))) := by
  refine h.change (fun s' hs' => lv.sameSide_insertPriceLevel k hs') ?_
  rw [insertPriceLevel_array, insertPriceLevel_occupied,
    insertPriceLevel_bestPrice]
  exact (h s).openLevel hk hbound

theorem Holds.removePriceLevel
    (h : lv.Holds E) {s : Side} {k : Price} (hk : E s k = some (none, none)) :
    (lv.removePriceLevel s k).Holds (E.set s k none) := by
  refine h.change (fun s' hs' => lv.sameSide_removePriceLevel k hs') ?_
  rw [removePriceLevel_array, removePriceLevel_occupied,
    removePriceLevel_bestPrice]
  exact (h s).closeLevel hk

instance : LawfulLevels BitmapLevels where
  Valid k := k < maxPriceLevels
  Abs := Holds
  abs_empty s := by
    have harr : (LevelTable.empty : BitmapLevels).array s =
        fun p => { price := p } := by
      cases s <;> rfl
    have hocc : (LevelTable.empty : BitmapLevels).occupied s =
        fun _ => 0#64 := by
      cases s <;> rfl
    have hbest : (LevelTable.empty : BitmapLevels).bestPrice s =
        priceInvalid := by
      cases s <;> rfl
    rw [harr, hocc, hbest]
    constructor
    · simp
    · simp
    · simp
    · simp [Bitmap.not_has_zero]
    · exact .inl ⟨by simp, rfl⟩
  best_none {lv E s} h hbest k := by
    have hinvalid : lv.bestPrice s = priceInvalid := by
      by_contra hne
      exact absurd hbest (by simp [LevelTable.best, hne])
    have hpicks := (h s).best
    rw [hinvalid] at hpicks
    have hempty := hpicks.eq_empty (h s).bound
    refine Option.not_isSome_iff_eq_none.mp fun hk => ?_
    exact absurd (show k ∈ {q | (E s q).isSome} from hk) (by simp [hempty])
  best_some {lv E s k} h hbest := by
    have hne : lv.bestPrice s ≠ priceInvalid := by
      intro hinvalid
      exact absurd hbest (by simp [LevelTable.best, hinvalid])
    obtain rfl : lv.bestPrice s = k := by
      simpa [LevelTable.best, hne] using hbest
    exact bestOf_iff.mp ((h s).best.of_ne hne)
  levelPrice_eq _ _ := rfl
  loopHead_eq {lv E} s {k} h hk := by
    show (if k < maxPriceLevels then _ else _) = _
    rw [if_pos hk]
    cases hE : E s k with
    | none => rw [((h s).closed k hE).1, Option.bind_none]
    | some e => rw [Option.bind_some, ← (h s).ends k e hE]
  openLevel_ok {lv E s k} h hk hhead := by
    cases hE : E s k with
    | none =>
        refine ⟨lv.insertPriceLevel s k, ?_, h.insertPriceLevel hE hk⟩
        show (if k < maxPriceLevels then _ else _) = _
        rw [if_pos hk, if_pos ((h s).closed k hE).1]
    | some e =>
        have hnn : (lv.array s k).head ≠ none := by
          have hne := hhead e hE
          rwa [← (h s).ends k e hE] at hne
        refine ⟨lv, ?_, ?_⟩
        · show (if k < maxPriceLevels then _ else _) = _
          rw [if_pos hk, if_neg hnn]
        · rw [E.set_getD hE]
          exact h
  fetch_ok {lv E s k e} h hk he := by
    have hends := (h s).ends k e he
    refine ⟨lv.array s k, if_pos hk, congrArg Prod.fst hends,
      congrArg Prod.snd hends, fun head tail => ?_⟩
    exact h.setArray ((h s).store (by rw [he]; rfl) head tail)
  valid_of_fetch {lv s k level} hfetch := by
    by_contra hk
    have hnone : LevelTable.fetch lv s k = .error .outOfRange := if_neg hk
    rw [hnone] at hfetch
    cases hfetch
  fetch_closed {lv E s k} h hk hE :=
    ⟨lv.array s k, if_pos hk, (h s).closed k hE⟩
  closeLevel_abs {lv E s k} h _ he := h.removePriceLevel he

end BitmapLevels
end NanoExchange
