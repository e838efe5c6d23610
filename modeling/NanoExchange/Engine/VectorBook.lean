import NanoExchange.Engine.OrderBook

/-!
# The vector order book

`order_book_vector.cpp`: one dense array of `MAX_PRICE_LEVELS` levels for each
side, indexed by price.  The levels that hold orders are chained, best price
first, through their own `next_` / `prev_` links, and the first of them is
cached in `best_bid_` / `best_ask_`.

The source writes `insertPricelevel` and the sweep of `match` once for each
side, with the comparisons turned round; here the side's `precedes` stands for
the comparison.  The arrays are functions from the index, with the bound
checked where the source indexes by a price.
-/

namespace NanoExchange

open Lib

/-- `MAX_PRICE_LEVELS` -/
def maxPriceLevels : Nat := 256000

/-- The two level arrays and the cached best levels. -/
structure VectorLevels where
  bids : Price → PriceLevel
  asks : Price → PriceLevel
  bestBid : Option Price
  bestAsk : Option Price

namespace VectorLevels

/-- The array of one side. -/
def array (lv : VectorLevels) : Side → Price → PriceLevel
  | .buy => lv.bids
  | .sell => lv.asks

/-- Replace the array of one side. -/
def setArray (lv : VectorLevels) (s : Side) (arr : Price → PriceLevel) :
    VectorLevels :=
  match s with
  | .buy => { lv with bids := arr }
  | .sell => { lv with asks := arr }

/-- `best_bid_` or `best_ask_` -/
def bestPtr (lv : VectorLevels) : Side → Option Price
  | .buy => lv.bestBid
  | .sell => lv.bestAsk

/-- Replace the cached best level of one side. -/
def setBest (lv : VectorLevels) (s : Side) (p : Option Price) :
    VectorLevels :=
  match s with
  | .buy => { lv with bestBid := p }
  | .sell => { lv with bestAsk := p }

/-- Assign to fields of one level. -/
def modifyAt (arr : Price → PriceLevel) (k : Price)
    (f : PriceLevel → PriceLevel) : Price → PriceLevel :=
  Function.update arr k (f (arr k))

/-- Assign to fields of the level behind a pointer that may be null. -/
def modifyAt? (arr : Price → PriceLevel) (k : Option Price)
    (f : PriceLevel → PriceLevel) : Price → PriceLevel :=
  match k with
  | none => arr
  | some k => modifyAt arr k f

/-- The walk of `insertPricelevel` to the last level that precedes `price`. -/
def findSlot (arr : Price → PriceLevel) (s : Side) (price : Price) :
    Nat → Price → Except Fault Price
  | 0, _ => .error .outOfFuel
  | fuel + 1, curr =>
      match (arr curr).next with
      | none => .ok curr
      | some n =>
          if s.precedes (arr n).price price then findSlot arr s price fuel n
          else .ok curr

/-- Chain a level in behind `curr`. -/
def chainAfter (arr : Price → PriceLevel) (k curr : Price) :
    Price → PriceLevel :=
  let arr := modifyAt arr k fun l => { l with next := (arr curr).next }
  let arr := modifyAt? arr (arr curr).next fun l => { l with prev := some k }
  let arr := modifyAt arr curr fun l => { l with next := some k }
  modifyAt arr k fun l => { l with prev := some curr }

def insertPricelevel (lv : VectorLevels) (s : Side) (k : Price) :
    Except Fault VectorLevels :=
  let arr := lv.array s
  match lv.bestPtr s with
  | none => .ok (lv.setBest s (some k))
  | some best =>
      if s.precedes (arr k).price (arr best).price then
        let arr := modifyAt arr k fun l => { l with next := some best }
        let arr := modifyAt arr best fun l => { l with prev := some k }
        .ok ((lv.setArray s arr).setBest s (some k))
      else do
        let curr ← findSlot arr s (arr k).price maxPriceLevels best
        .ok (lv.setArray s (chainAfter arr k curr))

def removePriceLevel (lv : VectorLevels) (s : Side) (k : Price) :
    VectorLevels :=
  let arr := lv.array s
  let level := arr k
  let arr := modifyAt? arr level.next fun l => { l with prev := level.prev }
  let arr := modifyAt? arr level.prev fun l => { l with next := level.next }
  let best := if lv.bestPtr s = some k then level.next else lv.bestPtr s
  let arr := modifyAt arr k fun l =>
    { l with next := none, prev := none, head := none, tail := none }
  (lv.setArray s arr).setBest s best

instance : LevelTable VectorLevels where
  empty :=
    { bids := fun p => { price := p }
      asks := fun p => { price := p }
      bestBid := none
      bestAsk := none }
  best := bestPtr
  levelPrice lv s k := (lv.array s k).price
  loopHead lv s k := .ok (lv.array s k).head
  openLevel lv s price :=
    if price < maxPriceLevels then
      if (lv.array s price).head = none then lv.insertPricelevel s price
      else .ok lv
    else .error .outOfRange
  fetch lv s price :=
    if price < maxPriceLevels then .ok (lv.array s price)
    else .error .outOfRange
  store lv s price level :=
    lv.setArray s (modifyAt (lv.array s) price fun _ => level)
  closeLevel := removePriceLevel
  tradeUpdate tickerId o fill _ :=
    { tickerId, marketOrderId := o.marketOrderId, type := .trade,
      side := o.side, price := o.price, qty := fill }

end VectorLevels

/-- `MEOrderBook` of `order_book_vector.h`, attached to an engine. -/
abbrev VectorBook (P : Type) := OrderBook VectorLevels P

namespace VectorBook

variable {P : Type} [ObjectPool P]

def cancelOrder (b : VectorBook P) (ch : Channel)
    (tickerId : TickerId) (clientId : ClientId) (clientOrderId : OrderId)
    (qty : Quantity) (orderToken : OrderToken) :
    Except Fault (VectorBook P × Channel) :=
  match b.orders.lookup clientId with
  | none =>
      .ok (b, ch.sendClientResponse
        (rejectedResponse tickerId clientId clientOrderId orderToken))
  | some client =>
      match client.lookup clientOrderId with
      | none =>
          .ok (b, ch.sendClientResponse
            (rejectedResponse tickerId clientId clientOrderId orderToken))
      | some p => do
          let order ← b.heap.read p
          let o := order.info
          let canceledQty := if qty = 0 then o.remainingQuantity else qty
          if canceledQty > o.remainingQuantity then
            .ok (b, ch.sendClientResponse
              (excessiveResponse tickerId clientId clientOrderId o))
          else do
            let left ← subQuantity o.remainingQuantity canceledQty
            let o := o.withRemaining left
            let b := { b with heap := b.heap.write p { order with info := o } }
            let ch := ch.sendMarketUpdate
              (cancelUpdate tickerId o.marketOrderId o.side o.price canceledQty)
            -- the source passes the quantity that is left here, where the map
            -- book passes the canceled quantity
            let ch := ch.sendClientResponse
              (canceledResponse tickerId clientId clientOrderId o left)
            let b ← if left = 0 then b.remove p else .ok b
            .ok (b, ch)

def replaceOrder (b : VectorBook P) (ch : Channel)
    (tickerId : TickerId) (clientId : ClientId) (clientOrderId : OrderId)
    (newClientOrderId : OrderId) (orderType : OrderType) (price : Price)
    (qty : Quantity) (orderToken : OrderToken) :
    Except Fault (VectorBook P × Channel) :=
  match b.orders.lookup clientId with
  | none =>
      .ok (b, ch.sendClientResponse
        (rejectedResponse tickerId clientId clientOrderId orderToken))
  | some client =>
      match client.lookup clientOrderId with
      | none =>
          .ok (b, ch.sendClientResponse
            (rejectedResponse tickerId clientId clientOrderId orderToken))
      | some p =>
          if newClientOrderId = 0 ∨ qty = 0 then
            .ok (b, ch.sendClientResponse
              (rejectedResponse tickerId clientId clientOrderId orderToken))
          else do
            let old ← b.heap.read p
            let a : OrderArgs :=
              { tickerId, clientId, clientOrderId := newClientOrderId,
                marketOrderId := b.nextMarketOrderId, orderType, price,
                initialQuantity := qty, side := old.info.side, orderToken }
            let b := b.bumpMarketOrderId
            let b ← b.remove p
            let ch := ch.sendClientResponse (modifiedResponse a)
            let ch := ch.sendMarketUpdate
              (modifyUpdate a old.info.marketOrderId)
            let (b, ch, remaining) ← b.matchOrder ch a
            -- a FillAndKill remainder is dropped without a report
            if remaining > 0 ∧ orderType = .goodTillCancel then do
              let b ← b.insert { a with initialQuantity := remaining }
              .ok (b, ch)
            else .ok (b, ch)

end VectorBook

end NanoExchange
