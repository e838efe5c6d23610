import NanoExchange.Engine.Equivalence

/-!
# The level list of the vector book

The open levels of a side of the vector book are chained through their own
`next_` and `prev_` fields.  `insertPricelevel` writes no link when the list is
empty and only some of them otherwise: it relies on a closed level having been
left without links by `removePriceLevel`.

`VectorLevels.LevelList` says what the chain has to be, over the arrays and the
cached best level alone.  It holds of either side after every run.
-/

namespace NanoExchange

open Lib

namespace VectorLevels

/-- One step along `next_`, from level to level. -/
def stepNext (lv : VectorLevels) (s : Side) (k : Price) :
    Option (Option Price) :=
  some (lv.array s k).next

/-- `c` lists the levels of a side that hold orders. -/
structure LevelList (lv : VectorLevels) (s : Side) (c : List Price) :
    Prop where
  /-- Following `next_` from the cached best level visits `c`, and ends. -/
  walk : Walk (lv.stepNext s) (lv.bestPtr s) c
  /-- The levels visited are those with a head. -/
  members : ∀ k, k < maxPriceLevels →
    (k ∈ c ↔ (lv.array s k).head ≠ none)
  bounded : ∀ k ∈ c, k < maxPriceLevels
  /-- Each is visited once. -/
  nodup : c.Nodup
  /-- Best price first: descending for bids, ascending for asks. -/
  sorted : c.Pairwise fun k k' =>
    s.precedes (lv.array s k).price (lv.array s k').price
  /-- `prev_` inverts `next_` along the list. -/
  inverse : ∀ k ∈ c, ∀ k' ∈ c,
    (lv.array s k).next = some k' ↔ (lv.array s k').prev = some k
  /-- Nothing comes before the best level. -/
  first : ∀ k, lv.bestPtr s = some k → (lv.array s k).prev = none
  /-- A level that is not on the list has no orders and no links. -/
  closed : ∀ k, k < maxPriceLevels → k ∉ c →
    (lv.array s k).head = none ∧ (lv.array s k).tail = none ∧
      (lv.array s k).next = none ∧ (lv.array s k).prev = none
  /-- The price of a level is its index. -/
  price : ∀ k, k < maxPriceLevels → (lv.array s k).price = k

/-- A chain whose open levels have heads is a level list. -/
theorem Chain.levelList
    {lv : VectorLevels} {s : Side}
    {E : Price → Option (Option Ptr × Option Ptr)} {c : List Price}
    (h : Chain s (lv.array s) (lv.bestPtr s) E c)
    (hheads : ∀ k e, E k = some e → e.1 ≠ none) :
    lv.LevelList s c where
  walk := by
    rw [h.best]
    exact Walk.forward h.linked fun _ _ => rfl
  members k _ := by
    rw [h.mem k]
    cases hk : E k with
    | none =>
        rw [h.closed k hk]
        simp
    | some e =>
        have hhead : (lv.array s k).head = e.1 :=
          congrArg Prod.fst (h.ends k e hk)
        rw [hhead]
        simpa using hheads k e hk
  bounded := h.bound
  nodup := h.nodup
  sorted := by
    refine h.sorted.imp fun {k k'} hkk' => ?_
    rwa [h.price, h.price]
  inverse k hk k' hk' := h.linked.next_eq_some_iff hk hk'
  first k hk := by
    rw [h.best] at hk
    exact h.linked.prev_of_head? hk
  closed k _ hk := by
    have hnone : E k = none := by
      rw [h.mem k] at hk
      exact Option.not_isSome_iff_eq_none.mp hk
    rw [h.closed k hnone]
    exact ⟨rfl, rfl, rfl, rfl⟩
  price k _ := h.price k

end VectorLevels

/-- A vector book that holds located orders has its levels listed. -/
theorem LRep.levelList
    {P : Type} [ObjectPool P] {b : VectorBook P} {L : Located}
    (h : LRep b L) (s : Side) :
    ∃ c, b.levels.LevelList s c := by
  have hholds : VectorLevels.Holds b.levels L.contents := h.levels
  obtain ⟨c, hc⟩ := hholds s
  exact ⟨c, hc.levelList fun k e he => Located.head_ne_none_of_ends he⟩

/-- **The level list of the vector book** is right on both sides after every
run within the price range that brings new client order ids, unless the pool
runs out of objects. -/
theorem vector_level_list_sound
    (P : Type) [ObjectPool P] (size : Nat) (n : OrderId)
    {rs : List MEClientRequest} (hfresh : FreshKeys rs)
    (hprice : PricesInRange rs) :
    SucceedsWith (OrderBook.run VectorLevels P size n rs)
      fun s => ∀ side, ∃ c, s.1.levels.LevelList side c := by
  refine (VectorBook.run_refines P size n hfresh hprice).imp ?_
  rintro ⟨b, ch⟩ ⟨⟨L, hL, -⟩, -⟩ side
  exact hL.levelList side

/-- Three asks at three prices; the middle level is closed by a cancel and
opened again, and a bid sweeps the best one. -/
theorem vector_level_list_sound_example :
    (OrderBook.run VectorLevels ScanPool 4 1
        [.make .new 1 0 1 .goodTillCancel .sell 100 5,
          .make .new 1 0 2 .goodTillCancel .sell 101 5,
          .make .new 1 0 3 .goodTillCancel .sell 102 5,
          .make .cancel 1 0 2 .goodTillCancel .sell 101 0,
          .make .new 1 0 4 .goodTillCancel .sell 101 5,
          .make .new 2 0 1 .goodTillCancel .buy 100 5]).isOk = true ∧
      SucceedsWith (OrderBook.run VectorLevels ScanPool 4 1
        [.make .new 1 0 1 .goodTillCancel .sell 100 5,
          .make .new 1 0 2 .goodTillCancel .sell 101 5,
          .make .new 1 0 3 .goodTillCancel .sell 102 5,
          .make .cancel 1 0 2 .goodTillCancel .sell 101 0,
          .make .new 1 0 4 .goodTillCancel .sell 101 5,
          .make .new 2 0 1 .goodTillCancel .buy 100 5])
        fun s => ∀ side, ∃ c, s.1.levels.LevelList side c :=
  ⟨by decide, vector_level_list_sound ScanPool 4 1 (by decide) (by decide)⟩

end NanoExchange
