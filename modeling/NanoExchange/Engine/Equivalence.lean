import NanoExchange.Engine.Reports
import NanoExchange.Engine.Runs

/-!
# The two order books side by side

Both books refine the same ladder, so in every run they hold the same orders in
the same queues and perform the same fills, and neither is ever crossed.
-/

namespace NanoExchange

open Lib

namespace OrderBook

/-- Every resting bid is below every resting ask. -/
def Uncrossed {Lv P : Type} [LevelTable Lv] (b : OrderBook Lv P) : Prop :=
  ∀ k o k' o', b.Rests .buy k o → b.Rests .sell k' o' → o.price < o'.price

end OrderBook

/-- The prices that requests bring are below `MAX_PRICE_LEVELS`. -/
def PricesInRange (rs : List MEClientRequest) : Prop :=
  ∀ r ∈ rs, r.action ≠ .cancel → r.price < maxPriceLevels

instance (rs : List MEClientRequest) : Decidable (PricesInRange rs) :=
  inferInstanceAs (Decidable (∀ r ∈ rs, _ → _))

theorem Rep.uncrossed
    {Lv P : Type} [LevelTable Lv] [LawfulLevels Lv] [ObjectPool P]
    {b : OrderBook Lv P} {A : Ladder} (h : Rep b A) (hA : A.WF) :
    b.Uncrossed := by
  intro k o k' o' ho ho'
  exact hA.uncrossed o (h.mem_of_rests ho).1 o' (h.mem_of_rests ho').1

section Runs

variable (P : Type) [ObjectPool P]

theorem MapBook.run_refines
    (size : Nat) (n : OrderId) {rs : List MEClientRequest}
    (hfresh : FreshKeys rs) :
    SucceedsWith (OrderBook.run MapLevels P size n rs) fun s =>
      Rep s.1 (Ladder.run n rs).ladder ∧
        s.2 = Channel.sent Dialect.map (Ladder.run n rs) :=
  OrderBook.run_refines P size n hfresh fun _ _ _ => trivial

theorem VectorBook.run_refines
    (size : Nat) (n : OrderId) {rs : List MEClientRequest}
    (hfresh : FreshKeys rs) (hprice : PricesInRange rs) :
    SucceedsWith (OrderBook.run VectorLevels P size n rs) fun s =>
      Rep s.1 (Ladder.run n rs).ladder ∧
        s.2 = Channel.sent Dialect.vector (Ladder.run n rs) :=
  OrderBook.run_refines P size n hfresh hprice

end Runs

/-- **No book is ever crossed or locked**, in any run, unless its pool runs
out of objects. -/
theorem books_never_crossed
    (P : Type) [ObjectPool P] (size : Nat) (n : OrderId)
    {rs : List MEClientRequest} (hfresh : FreshKeys rs) :
    SucceedsWith (OrderBook.run MapLevels P size n rs)
        (fun s => s.1.Uncrossed) ∧
      (PricesInRange rs →
        SucceedsWith (OrderBook.run VectorLevels P size n rs)
          fun s => s.1.Uncrossed) := by
  have hwf := Ladder.run_wf n hfresh
  constructor
  · exact (MapBook.run_refines P size n hfresh).imp
      fun s hs => hs.1.uncrossed hwf
  · intro hprice
    exact (VectorBook.run_refines P size n hfresh hprice).imp
      fun s hs => hs.1.uncrossed hwf

/-- A bid that takes an ask and comes to rest above it leaves both books
uncrossed. -/
theorem books_never_crossed_example :
    (OrderBook.run MapLevels ScanPool 4 1
        [.make .new 1 0 1 .goodTillCancel .sell 100 5,
          .make .new 2 0 1 .goodTillCancel .buy 101 7]).isOk = true ∧
      SucceedsWith (OrderBook.run MapLevels ScanPool 4 1
        [.make .new 1 0 1 .goodTillCancel .sell 100 5,
          .make .new 2 0 1 .goodTillCancel .buy 101 7])
        (fun s => s.1.Uncrossed) ∧
      SucceedsWith (OrderBook.run VectorLevels ScanPool 4 1
        [.make .new 1 0 1 .goodTillCancel .sell 100 5,
          .make .new 2 0 1 .goodTillCancel .buy 101 7])
        fun s => s.1.Uncrossed := by
  have hfresh : FreshKeys [.make .new 1 0 1 .goodTillCancel .sell 100 5,
      .make .new 2 0 1 .goodTillCancel .buy 101 7] := by decide
  obtain ⟨hmap, hvector⟩ := books_never_crossed ScanPool 4 1 hfresh
  exact ⟨by decide, hmap, hvector (by decide)⟩

namespace Channel

/-- The EXECUTED responses, in order. -/
def executions (ch : Channel) : List MEClientResponse :=
  ch.responses.filter fun r => r.status = .executed

/-- The EXECUTED responses of a history do not depend on the dialect. -/
theorem executions_sent (d d' : Dialect) (t : StepResult) :
    (Channel.sent d t).executions = (Channel.sent d' t).executions := by
  simp only [executions, responses, sent, List.filterMap_flatMap,
    List.filter_flatMap]
  refine List.flatMap_congr fun e _ => ?_
  exact e.executions_eq d d'

end Channel

/-- **The vector book refines the map book in book state and fills**: in every
run within its price range it holds the same queues, the same id counter and
the same best prices, and has sent the same executions. -/
theorem vector_book_refines_map_book
    (P P' : Type) [ObjectPool P] [ObjectPool P'] (size size' : Nat)
    (n : OrderId) {rs : List MEClientRequest} (hfresh : FreshKeys rs)
    (hprice : PricesInRange rs)
    (hmap : OrderBook.run MapLevels P size n rs ≠ .error .poolExhausted)
    (hvector :
      OrderBook.run VectorLevels P' size' n rs ≠ .error .poolExhausted) :
    ∃ b ch b' ch',
      OrderBook.run MapLevels P size n rs = .ok (b, ch) ∧
      OrderBook.run VectorLevels P' size' n rs = .ok (b', ch') ∧
      (∀ s k, k < maxPriceLevels → ∃ os, b.Fifo s k os ∧ b'.Fifo s k os) ∧
      (∀ s k o, b.Rests s k o → k < maxPriceLevels) ∧
      b.nextMarketOrderId = b'.nextMarketOrderId ∧
      (∀ s, LevelTable.best b.levels s = LevelTable.best b'.levels s) ∧
      ch.executions = ch'.executions := by
  obtain ⟨⟨b, ch⟩, hb, hrep, rfl⟩ :=
    (MapBook.run_refines P size n hfresh).of_ne hmap
  obtain ⟨⟨b', ch'⟩, hb', hrep', rfl⟩ :=
    (VectorBook.run_refines P' size' n hfresh hprice).of_ne hvector
  refine ⟨b, _, b', _, hb, hb', ?_, ?_, ?_, ?_, ?_⟩
  · intro s k hk
    exact ⟨_, hrep.fifo s trivial, hrep'.fifo s hk⟩
  · intro s k o ho
    obtain ⟨hmem, rfl⟩ := hrep.mem_of_rests ho
    exact hrep'.valid hmem
  · rw [hrep.next, hrep'.next]
  · intro s
    rw [hrep.best s, hrep'.best s]
  · exact Channel.executions_sent _ _ _

/-- A bid that takes part of the second of two asks, in both books. -/
theorem vector_book_refines_map_book_example :
    ∃ b ch b' ch',
      OrderBook.run MapLevels ScanPool 4 1
        [.make .new 1 0 1 .goodTillCancel .sell 100 5,
          .make .new 1 0 2 .goodTillCancel .sell 100 5,
          .make .new 2 0 1 .goodTillCancel .buy 101 7] = .ok (b, ch) ∧
      OrderBook.run VectorLevels ScanPool 4 1
        [.make .new 1 0 1 .goodTillCancel .sell 100 5,
          .make .new 1 0 2 .goodTillCancel .sell 100 5,
          .make .new 2 0 1 .goodTillCancel .buy 101 7] = .ok (b', ch') ∧
      (∀ s k, k < maxPriceLevels → ∃ os, b.Fifo s k os ∧ b'.Fifo s k os) ∧
      (∀ s k o, b.Rests s k o → k < maxPriceLevels) ∧
      b.nextMarketOrderId = b'.nextMarketOrderId ∧
      (∀ s, LevelTable.best b.levels s = LevelTable.best b'.levels s) ∧
      ch.executions = ch'.executions :=
  vector_book_refines_map_book ScanPool ScanPool 4 4 1 (by decide) (by decide)
    (ne_error_of_isOk (by decide)) (ne_error_of_isOk (by decide))

end NanoExchange
