import NanoExchange.Engine.Equivalence
import NanoExchange.Variants.BitmapLevelsLaws
import NanoExchange.Variants.VariantBook

/-!
# The bitmap book agrees with the map book

The benchmark times the variants and never compares them.  Both perform the
steps of one ladder, so after the same calls they hold the same queues.  That
the bits and the cached best prices of the bitmap book are right is read off
the representation of the ladder.
-/

namespace NanoExchange

open Lib

namespace BitmapLevels

/-- The prices of a side at which orders rest. -/
def openPrices (lv : BitmapLevels) (s : Side) : Set Price :=
  {k | (lv.array s k).head ≠ none}

variable {lv : BitmapLevels} {L : Located}

/-- The open levels of located orders are those with a head. -/
theorem Holds.isSome_iff
    (h : lv.Holds L.contents) (s : Side) (k : Price) :
    (L.contents s k).isSome ↔ k ∈ lv.openPrices s := by
  cases hE : L.contents s k with
  | none => simp [openPrices, (h s).closed k hE]
  | some e =>
      have hhead := Located.head_ne_none_of_ends hE
      rw [← (h s).ends k e hE] at hhead
      simpa [openPrices] using hhead

end BitmapLevels

namespace Rep

variable {P : Type} [ObjectPool P] {b : BitmapVectorBook P} {A : Ladder}

/-- A price has its bit set exactly when its level is not empty. -/
theorem has_iff
    (h : Rep b A) (s : Side) (k : Price) :
    (b.levels.occupied s).Has k ↔ k ∈ b.levels.openPrices s := by
  obtain ⟨L, hL, -, -⟩ := h
  have hlevels : b.levels.Holds L.contents := hL.levels
  rw [(hlevels s).bit k, hlevels.isSome_iff s k]

/-- The cached best price is the best price at which orders rest. -/
theorem bestPrice_picks
    (h : Rep b A) (s : Side) :
    BitmapLevels.Picks (BitmapLevels.bestOf s) (b.levels.openPrices s)
      (b.levels.bestPrice s) := by
  obtain ⟨L, hL, -, -⟩ := h
  have hlevels : b.levels.Holds L.contents := hL.levels
  have hopen : b.levels.openPrices s = {k | (L.contents s k).isSome} := by
    ext k
    exact (hlevels.isSome_iff s k).symm
  rw [hopen]
  exact (hlevels s).best

end Rep

/-- **The bitmap book agrees with the map book** after every sequence of calls
within its price range, and so after each call of one: the same queue at each
price and side, a bit for each level that is not empty, and the best prices,
with `Price_INVALID` for an empty side.  The searches find the nearest set bit
in every bitmap, from every start. -/
theorem bitmap_book_agrees_with_map_book
    (P P' : Type) [ObjectPool P] [ObjectPool P'] (size size' : Nat)
    {calls : List VariantCall}
    (hfresh : FreshKeys (calls.map VariantCall.request))
    (hprice : PricesInRange (calls.map VariantCall.request))
    (hmap : VariantBook.run MapLevels P size calls ≠ .error .poolExhausted)
    (hbitmap :
      VariantBook.run BitmapLevels P' size' calls ≠ .error .poolExhausted) :
    (∃ (b : StdMapBook P) (b' : BitmapVectorBook P'),
      VariantBook.run MapLevels P size calls = .ok b ∧
      VariantBook.run BitmapLevels P' size' calls = .ok b' ∧
      (∀ s k, k < maxPriceLevels → ∃ os, b.Fifo s k os ∧ b'.Fifo s k os) ∧
      (∀ s k o, b.Rests s k o → k < maxPriceLevels) ∧
      (∀ s k, (b'.levels.occupied s).Has k ↔ (b'.levels.array s k).head ≠ none) ∧
      BitmapLevels.Picks IsGreatest {k | (b'.levels.bids k).head ≠ none}
        b'.levels.bestBid ∧
      BitmapLevels.Picks IsLeast {k | (b'.levels.asks k).head ≠ none}
        b'.levels.bestAsk) ∧
    ∀ (bitmap : Bitmap 64) (start : Price),
      BitmapLevels.Picks IsGreatest
        {p | p ≤ start ∧ p < maxPriceLevels ∧ bitmap.Has p}
        (BitmapLevels.nextOccupiedDesc bitmap start) ∧
      BitmapLevels.Picks IsLeast
        {p | start ≤ p ∧ p < maxPriceLevels ∧ bitmap.Has p}
        (BitmapLevels.nextOccupiedAsc bitmap start) := by
  refine ⟨?_, fun bitmap start =>
    ⟨BitmapLevels.nextOccupiedDesc_picks bitmap start,
      BitmapLevels.nextOccupiedAsc_picks bitmap start⟩⟩
  obtain ⟨b, hb, hrep⟩ :=
    (VariantBook.run_refines (P := P) MapBook.trades size 1 hfresh
      fun _ _ _ => trivial).of_ne hmap
  have htrades : TradesIn BitmapLevels Dialect.map := MapBook.trades
  obtain ⟨b', hb', hrep'⟩ :=
    (VariantBook.run_refines (P := P') htrades size' 1 hfresh hprice).of_ne
      hbitmap
  refine ⟨b, b', hb, hb', ?_, ?_, hrep'.has_iff, hrep'.bestPrice_picks .buy,
    hrep'.bestPrice_picks .sell⟩
  · intro s k hk
    exact ⟨_, hrep.fifo s trivial, hrep'.fifo s hk⟩
  · intro s k o ho
    obtain ⟨hmem, rfl⟩ := hrep.mem_of_rests ho
    exact hrep'.valid hmem

/-- A sell order takes the best of two bids, which lie on either side of a word
boundary, and comes to rest where it was; the other bid is canceled. -/
theorem bitmap_book_agrees_with_map_book_example :
    ∃ (b : StdMapBook ScanPool) (b' : BitmapVectorBook ScanPool),
      VariantBook.run MapLevels ScanPool 4
        [.addOrder 0 1 1 .goodTillCancel 63 5 .buy,
          .addOrder 0 1 2 .goodTillCancel 64 7 .buy,
          .addOrder 0 2 1 .goodTillCancel 64 9 .sell,
          .cancelOrder 0 1 1] = .ok b ∧
      VariantBook.run BitmapLevels ScanPool 4
        [.addOrder 0 1 1 .goodTillCancel 63 5 .buy,
          .addOrder 0 1 2 .goodTillCancel 64 7 .buy,
          .addOrder 0 2 1 .goodTillCancel 64 9 .sell,
          .cancelOrder 0 1 1] = .ok b' ∧
      (∀ s k, k < maxPriceLevels → ∃ os, b.Fifo s k os ∧ b'.Fifo s k os) ∧
      BitmapLevels.Picks IsGreatest {k | (b'.levels.bids k).head ≠ none}
        b'.levels.bestBid ∧
      BitmapLevels.Picks IsLeast {k | (b'.levels.asks k).head ≠ none}
        b'.levels.bestAsk := by
  have hfresh : FreshKeys (List.map VariantCall.request
      [.addOrder 0 1 1 .goodTillCancel 63 5 .buy,
        .addOrder 0 1 2 .goodTillCancel 64 7 .buy,
        .addOrder 0 2 1 .goodTillCancel 64 9 .sell,
        .cancelOrder 0 1 1]) := by decide
  obtain ⟨⟨b, b', hb, hb', hfifo, -, -, hbid, hask⟩, -⟩ :=
    bitmap_book_agrees_with_map_book ScanPool ScanPool 4 4 hfresh (by decide)
      (ne_error_of_isOk (by decide)) (ne_error_of_isOk (by decide))
  exact ⟨b, b', hb, hb', hfifo, hbid, hask⟩

end NanoExchange
