import NanoExchange.Engine.VectorBook
import NanoExchange.Engine.MapBook
import NanoExchange.Lib.Bitmap

/-!
# Price levels with occupancy bitmaps

`MEOrderBook_BitmapVector` of `tests/ob_variants.h` keeps one dense array of
levels for each side, as the vector book does, but its levels are not chained.
A bitmap of each side has the bit of every price at which orders rest, and the
best price of the side is cached; when the best level empties, the next one is
searched for in the bitmap, a word of 64 prices at a time.

A bitmap is a function from the index of a word.  The level of a price is only
reached after the bound on the price has been checked, and so are its word and
bit; the searches stop at the last and at the first word.

`nextOccupiedAsc_picks` and `nextOccupiedDesc_picks` say what the two searches
return, for every bitmap and every start.
-/

namespace NanoExchange

open Lib

/-- `BITMAP_WORDS` -/
def bitmapWords : Nat := (maxPriceLevels + 63) / 64

/-- The level arrays, the bitmaps and the cached best prices. -/
structure BitmapLevels where
  bids : Price → PriceLevel
  asks : Price → PriceLevel
  bidOccupied : Bitmap 64
  askOccupied : Bitmap 64
  bestBid : Price
  bestAsk : Price

namespace BitmapLevels

def wordOf (price : Price) : Nat := price >>> 6

def bitOf (price : Price) : BitVec 64 := 1#64 <<< (price &&& 63)

def setBit (bitmap : Bitmap 64) (price : Price) : Bitmap 64 :=
  Function.update bitmap (wordOf price) (bitmap (wordOf price) ||| bitOf price)

def clearBit (bitmap : Bitmap 64) (price : Price) : Bitmap 64 :=
  Function.update bitmap (wordOf price)
    (bitmap (wordOf price) &&& ~~~bitOf price)

/-- The result of `nextOccupiedAsc` at a word with a bit in it. -/
def lowestOf (word : Nat) (bits : BitVec 64) : Price :=
  let price := word * 64 + bits.ctz.toNat
  if price < maxPriceLevels then price else priceInvalid

/-- The loop of `nextOccupiedAsc`.  The first argument is the number of words
behind `word`; at 0, the incremented `word` is `BITMAP_WORDS`. -/
def scanAsc (bitmap : Bitmap 64) : Nat → Nat → BitVec 64 → Price
  | 0, word, bits =>
      if bits ≠ 0#64 then lowestOf word bits else priceInvalid
  | left + 1, word, bits =>
      if bits ≠ 0#64 then lowestOf word bits
      else scanAsc bitmap left (word + 1) (bitmap (word + 1))

def nextOccupiedAsc (bitmap : Bitmap 64) (start : Price) : Price :=
  if start ≥ maxPriceLevels then priceInvalid
  else
    scanAsc bitmap (bitmapWords - 1 - wordOf start) (wordOf start)
      (bitmap (wordOf start) &&& BitVec.allOnes 64 <<< (start &&& 63))

/-- The result of `nextOccupiedDesc` at a word with a bit in it. -/
def highestOf (word : Nat) (bits : BitVec 64) : Price :=
  word * 64 + (63 - bits.clz.toNat)

/-- The loop of `nextOccupiedDesc`.  The signed `word` of the source is below
zero after word 0. -/
def scanDesc (bitmap : Bitmap 64) : Nat → BitVec 64 → Price
  | 0, bits => if bits ≠ 0#64 then highestOf 0 bits else priceInvalid
  | word + 1, bits =>
      if bits ≠ 0#64 then highestOf (word + 1) bits
      else scanDesc bitmap word (bitmap word)

def nextOccupiedDesc (bitmap : Bitmap 64) (start : Price) : Price :=
  let start := if start ≥ maxPriceLevels then maxPriceLevels - 1 else start
  let bitIndex := start &&& 63
  let mask :=
    if bitIndex = 63 then BitVec.allOnes 64
    else (1#64 <<< (bitIndex + 1)) - 1#64
  scanDesc bitmap (wordOf start) (bitmap (wordOf start) &&& mask)

/-- The array of one side. -/
def array (lv : BitmapLevels) : Side → Price → PriceLevel
  | .buy => lv.bids
  | .sell => lv.asks

/-- Replace the array of one side. -/
def setArray (lv : BitmapLevels) (s : Side) (arr : Price → PriceLevel) :
    BitmapLevels :=
  match s with
  | .buy => { lv with bids := arr }
  | .sell => { lv with asks := arr }

/-- `bidOccupied_` or `askOccupied_` -/
def occupied (lv : BitmapLevels) : Side → Bitmap 64
  | .buy => lv.bidOccupied
  | .sell => lv.askOccupied

/-- `bestBid_` or `bestAsk_` -/
def bestPrice (lv : BitmapLevels) : Side → Price
  | .buy => lv.bestBid
  | .sell => lv.bestAsk

def insertPriceLevel (lv : BitmapLevels) (side : Side) (price : Price) :
    BitmapLevels :=
  match side with
  | .buy =>
      { lv with
        bidOccupied := setBit lv.bidOccupied price
        bestBid :=
          if lv.bestBid = priceInvalid ∨ price > lv.bestBid then price
          else lv.bestBid }
  | .sell =>
      { lv with
        askOccupied := setBit lv.askOccupied price
        bestAsk :=
          if lv.bestAsk = priceInvalid ∨ price < lv.bestAsk then price
          else lv.bestAsk }

def removePriceLevel (lv : BitmapLevels) (side : Side) (price : Price) :
    BitmapLevels :=
  match side with
  | .buy =>
      let bitmap := clearBit lv.bidOccupied price
      { lv with
        bidOccupied := bitmap
        bestBid :=
          if lv.bestBid = price then nextOccupiedDesc bitmap price
          else lv.bestBid }
  | .sell =>
      let bitmap := clearBit lv.askOccupied price
      { lv with
        askOccupied := bitmap
        bestAsk :=
          if lv.bestAsk = price then nextOccupiedAsc bitmap price
          else lv.bestAsk }

instance : LevelTable BitmapLevels where
  empty :=
    { bids := fun p => { price := p }
      asks := fun p => { price := p }
      bidOccupied := fun _ => 0#64
      askOccupied := fun _ => 0#64
      bestBid := priceInvalid
      bestAsk := priceInvalid }
  best lv s :=
    if lv.bestPrice s = priceInvalid then none else some (lv.bestPrice s)
  levelPrice _ _ price := price
  loopHead lv s price :=
    if price < maxPriceLevels then .ok (lv.array s price).head
    else .error .outOfRange
  openLevel lv s price :=
    if price < maxPriceLevels then
      if (lv.array s price).head = none then .ok (lv.insertPriceLevel s price)
      else .ok lv
    else .error .outOfRange
  fetch lv s price :=
    if price < maxPriceLevels then .ok (lv.array s price)
    else .error .outOfRange
  store lv s price level :=
    lv.setArray s (Function.update (lv.array s) price level)
  closeLevel := removePriceLevel
  -- the books of the benchmark publish nothing
  tradeUpdate := LevelTable.tradeUpdate MapLevels

section Search

/-- The answer of a search for the best price in a set: `Price_INVALID` stands
for an empty set. -/
def Picks (best : Set Price → Price → Prop) (S : Set Price) (answer : Price) :
    Prop :=
  (S = ∅ ∧ answer = priceInvalid) ∨ best S answer

/-- The occupied prices. -/
def Occupied (bitmap : Bitmap 64) : Set Price :=
  {p | p < maxPriceLevels ∧ bitmap.Has p}

variable (bitmap : Bitmap 64)

theorem wordOf_eq (price : Price) : wordOf price = price / 64 :=
  Nat.shiftRight_eq_div_pow price 6

theorem and_63 (price : Price) : price &&& 63 = price % 64 :=
  Nat.and_two_pow_sub_one_eq_mod price 6

theorem setBit_eq (price : Price) : setBit bitmap price = bitmap.set price := by
  rw [setBit, bitOf, wordOf_eq, and_63]
  rfl

theorem clearBit_eq (price : Price) :
    clearBit bitmap price = bitmap.clear price := by
  rw [clearBit, bitOf, wordOf_eq, and_63]
  rfl

/-- The words of the bitmap are those of the prices. -/
theorem wordOf_lt {price : Nat} :
    price < maxPriceLevels ↔ price / 64 < bitmapWords := by
  unfold bitmapWords maxPriceLevels
  omega

variable {bitmap} {start word : Nat} {bits : BitVec 64}

/-- A bit in one of the words ends the upward search. -/
theorem lowestOf_picks
    (hup : Bitmap.Upward bitmap start word bits) (hbits : bits ≠ 0#64)
    (hbefore : ∀ p, start ≤ p → p < word * 64 → ¬ bitmap.Has p)
    (hword : word < bitmapWords) :
    Picks IsLeast {p | start ≤ p ∧ p ∈ Occupied bitmap}
      (lowestOf word bits) := by
  have hleast := hup.found hbits hbefore
  have hbit : bits.ctz.toNat < 64 :=
    BitVec.lt_of_getLsbD (BitVec.getLsbD_true_ctz_of_ne_zero hbits)
  have hin : word * 64 + bits.ctz.toNat < maxPriceLevels := by
    rw [wordOf_lt]
    omega
  rw [lowestOf, if_pos hin]
  refine .inr ⟨⟨hleast.1.1, hin, hleast.1.2⟩, ?_⟩
  rintro p ⟨hp, -, hhas⟩
  exact hleast.2 ⟨hp, hhas⟩

/-- The upward search, with nothing found in the words before `word`. -/
theorem scanAsc_picks
    {left : Nat} (hup : Bitmap.Upward bitmap start word bits)
    (hbefore : ∀ p, start ≤ p → p < word * 64 → ¬ bitmap.Has p)
    (hstart : start / 64 ≤ word) (hleft : word + left + 1 = bitmapWords) :
    Picks IsLeast {p | start ≤ p ∧ p ∈ Occupied bitmap}
      (scanAsc bitmap left word bits) := by
  induction left generalizing word bits with
  | zero =>
      by_cases hbits : bits ≠ 0#64
      · rw [scanAsc, if_pos hbits]
        exact lowestOf_picks hup hbits hbefore (by omega)
      · rw [scanAsc, if_neg hbits]
        rw [not_not] at hbits
        subst hbits
        refine .inl ⟨Set.eq_empty_of_forall_notMem ?_, rfl⟩
        rintro p ⟨hp, hlt, hhas⟩
        have hend : p < (word + 1) * 64 := by
          rw [wordOf_lt, ← hleft, Nat.add_zero] at hlt
          exact (Nat.div_lt_iff_lt_mul (by omega)).mp hlt
        exact hup.empty hbefore p hp hend hhas
  | succ left ih =>
      by_cases hbits : bits ≠ 0#64
      · rw [scanAsc, if_pos hbits]
        exact lowestOf_picks hup hbits hbefore (by omega)
      · rw [scanAsc, if_neg hbits]
        rw [not_not] at hbits
        subst hbits
        exact ih (.next bitmap (by omega)) (hup.empty hbefore) (by omega)
          (by omega)

/-- **`nextOccupiedAsc` returns the nearest occupied price at or above its
start.** -/
theorem nextOccupiedAsc_picks (bitmap : Bitmap 64) (start : Price) :
    Picks IsLeast {p | start ≤ p ∧ p ∈ Occupied bitmap}
      (nextOccupiedAsc bitmap start) := by
  unfold nextOccupiedAsc
  by_cases hstart : start ≥ maxPriceLevels
  · rw [if_pos hstart]
    refine .inl ⟨Set.eq_empty_of_forall_notMem ?_, rfl⟩
    rintro p ⟨hp, hlt, -⟩
    exact absurd hlt (not_lt.mpr (le_trans hstart hp))
  · have hword := wordOf_lt.mp (not_le.mp hstart)
    rw [if_neg hstart, wordOf_eq, and_63]
    refine scanAsc_picks (.first bitmap start) ?_ le_rfl (by omega)
    intro p hp hlt
    exact absurd (lt_of_le_of_lt hp hlt)
      (not_lt.mpr (Nat.div_mul_le_self start 64))

/-- A bit in one of the words ends the downward search. -/
theorem highestOf_picks
    (hdown : Bitmap.Downward bitmap start word bits) (hbits : bits ≠ 0#64)
    (hafter : ∀ p, p ≤ start → (word + 1) * 64 ≤ p → ¬ bitmap.Has p)
    (hstart : start < maxPriceLevels) :
    Picks IsGreatest {p | p ≤ start ∧ p ∈ Occupied bitmap}
      (highestOf word bits) := by
  have hgreatest := hdown.found (by decide) hbits hafter
  have hin : highestOf word bits < maxPriceLevels :=
    lt_of_le_of_lt hgreatest.1.1 hstart
  refine .inr ⟨⟨hgreatest.1.1, hin, hgreatest.1.2⟩, ?_⟩
  rintro p ⟨hp, -, hhas⟩
  exact hgreatest.2 ⟨hp, hhas⟩

/-- The downward search, with nothing found in the words after `word`. -/
theorem scanDesc_picks
    (hdown : Bitmap.Downward bitmap start word bits)
    (hafter : ∀ p, p ≤ start → (word + 1) * 64 ≤ p → ¬ bitmap.Has p)
    (hword : word ≤ start / 64) (hstart : start < maxPriceLevels) :
    Picks IsGreatest {p | p ≤ start ∧ p ∈ Occupied bitmap}
      (scanDesc bitmap word bits) := by
  induction word generalizing bits with
  | zero =>
      by_cases hbits : bits ≠ 0#64
      · rw [scanDesc, if_pos hbits]
        exact highestOf_picks hdown hbits hafter hstart
      · rw [scanDesc, if_neg hbits]
        rw [not_not] at hbits
        subst hbits
        refine .inl ⟨Set.eq_empty_of_forall_notMem ?_, rfl⟩
        rintro p ⟨hp, -, hhas⟩
        exact hdown.empty hafter p hp (by omega) hhas
  | succ word ih =>
      by_cases hbits : bits ≠ 0#64
      · rw [scanDesc, if_pos hbits]
        exact highestOf_picks hdown hbits hafter hstart
      · rw [scanDesc, if_neg hbits]
        rw [not_not] at hbits
        subst hbits
        exact ih (.next bitmap (by omega)) (hdown.empty hafter) (by omega)

theorem scanDesc_first_picks (bitmap : Bitmap 64)
    (hstart : start < maxPriceLevels) :
    Picks IsGreatest {p | p ≤ start ∧ p ∈ Occupied bitmap}
      (scanDesc bitmap (start / 64)
        (bitmap (start / 64) &&& Bitmap.lowMask 64 (start % 64))) := by
  refine scanDesc_picks (.first (by omega) bitmap start) ?_ le_rfl hstart
  intro p hp hlt
  have hfloor := Nat.div_add_mod start 64
  have hmod := Nat.mod_lt start (show 0 < 64 by omega)
  exact absurd hp (not_le.mpr (lt_of_lt_of_le (by omega) hlt))

/-- **`nextOccupiedDesc` returns the nearest occupied price at or below its
start.** -/
theorem nextOccupiedDesc_picks (bitmap : Bitmap 64) (start : Price) :
    Picks IsGreatest {p | p ≤ start ∧ p ∈ Occupied bitmap}
      (nextOccupiedDesc bitmap start) := by
  have hscan : nextOccupiedDesc bitmap start =
      let start := if start ≥ maxPriceLevels then maxPriceLevels - 1 else start
      scanDesc bitmap (start / 64)
        (bitmap (start / 64) &&& Bitmap.lowMask 64 (start % 64)) := by
    simp only [nextOccupiedDesc, wordOf_eq, and_63]
    rfl
  rw [hscan]
  by_cases hstart : start ≥ maxPriceLevels
  · -- the last price is as good a start as one past the end
    have hsame : {p | p ≤ start ∧ p ∈ Occupied bitmap} =
        {p | p ≤ maxPriceLevels - 1 ∧ p ∈ Occupied bitmap} := by
      ext p
      constructor
      · rintro ⟨-, hlt, hhas⟩
        exact ⟨Nat.le_sub_one_of_lt hlt, hlt, hhas⟩
      · rintro ⟨-, hlt, hhas⟩
        exact ⟨le_trans hlt.le hstart, hlt, hhas⟩
    rw [if_pos hstart, hsame]
    exact scanDesc_first_picks bitmap (by decide)
  · rw [if_neg hstart]
    exact scanDesc_first_picks bitmap (not_le.mp hstart)

/-- The search goes on below a word boundary. -/
example : nextOccupiedDesc (setBit (fun _ => 0#64) 63) 64 = 63 := by
  rfl

end Search

end BitmapLevels

end NanoExchange
