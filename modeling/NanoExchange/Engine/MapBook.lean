import NanoExchange.Engine.OrderBook
import NanoExchange.Lib.OrdMap

/-!
# The map order book

`order_book_map.cpp`: one `std::map<Price, PriceLevel>` for each side, sorted
best price first.  `bids_[price]` and `asks_[price]` create a missing level;
`remove` erases a level with its last order.

`remove` may erase the very level that the inner loop of `match` refers to.
The loop then evaluates `priceLevel.head` once more, on the erased node;
`remove` had stored null there just before erasing it, and `loopHead` returns
that value.
-/

namespace NanoExchange

open Lib

/-- The two ordered maps of levels. -/
structure MapLevels where
  bids : OrdMap Price PriceLevel Side.buy.precedes
  asks : OrdMap Price PriceLevel Side.sell.precedes

namespace MapLevels

/-- The map of one side. -/
def side (lv : MapLevels) : (s : Side) → OrdMap Price PriceLevel s.precedes
  | .buy => lv.bids
  | .sell => lv.asks

/-- Replace the map of one side. -/
def setSide (lv : MapLevels) :
    (s : Side) → OrdMap Price PriceLevel s.precedes → MapLevels
  | .buy, m => { lv with bids := m }
  | .sell, m => { lv with asks := m }

/-- The value of `m[price]` before anything is written to it. -/
def level (lv : MapLevels) (s : Side) (price : Price) : PriceLevel :=
  ((lv.side s).find? price).getD {}

instance : LevelTable MapLevels where
  empty := ⟨OrdMap.empty, OrdMap.empty⟩
  best lv s := (lv.side s).first?.map Prod.fst
  levelPrice _ _ price := price
  loopHead lv s price := .ok (((lv.side s).find? price).bind PriceLevel.head)
  openLevel lv s price :=
    .ok (lv.setSide s ((lv.side s).insert price (lv.level s price)))
  fetch lv s price := .ok (lv.level s price)
  store lv s price level :=
    lv.setSide s ((lv.side s).insert price level)
  closeLevel lv s price :=
    lv.setSide s ((lv.side s).erase price)
  tradeUpdate tickerId o fill matchId :=
    { tickerId, marketOrderId := o.marketOrderId, type := .trade,
      side := o.side, price := o.price, qty := fill,
      newOrderId := orderIdInvalid, matchId }

end MapLevels

/-- `MEOrderBook` of `order_book_map.h`. -/
abbrev MapBook (P : Type) := OrderBook MapLevels P

namespace MapBook

variable {P : Type} [ObjectPool P]

def cancelOrder (b : MapBook P) (ch : Channel)
    (tickerId : TickerId) (clientId : ClientId) (clientOrderId : OrderId)
    (qty : Quantity) (orderToken : OrderToken) :
    Except Fault (MapBook P × Channel) :=
  match b.orders.lookup clientId with
  | none =>
      .ok (b, ch.sendClientResponse
        (rejectedResponse tickerId clientId clientOrderId orderToken))
  | some client =>
      match client.lookup clientOrderId with
      | none =>
          .ok (b, ch.sendClientResponse
            (rejectedResponse tickerId clientId clientOrderId orderToken))
      | some p => do
          let order ← b.heap.read p
          let o := order.info
          let canceledQty := if qty = 0 then o.remainingQuantity else qty
          if canceledQty > o.remainingQuantity then
            .ok (b, ch.sendClientResponse
              (excessiveResponse tickerId clientId clientOrderId o))
          else do
            let ch := ch.sendMarketUpdate
              (cancelUpdate tickerId o.marketOrderId o.side o.price canceledQty)
            let left ← subQuantity o.remainingQuantity canceledQty
            let o := o.withRemaining left
            let b := { b with heap := b.heap.write p { order with info := o } }
            let ch := ch.sendClientResponse
              (canceledResponse tickerId clientId clientOrderId o canceledQty)
            let b ← if left = 0 then b.remove p else .ok b
            .ok (b, ch)

def replaceOrder (b : MapBook P) (ch : Channel)
    (tickerId : TickerId) (clientId : ClientId) (clientOrderId : OrderId)
    (newClientOrderId : OrderId) (orderType : OrderType) (price : Price)
    (qty : Quantity) (orderToken : OrderToken) :
    Except Fault (MapBook P × Channel) :=
  match b.orders.lookup clientId with
  | none =>
      .ok (b, ch.sendClientResponse
        (rejectedResponse tickerId clientId clientOrderId orderToken))
  | some client =>
      match client.lookup clientOrderId with
      | none =>
          .ok (b, ch.sendClientResponse
            (rejectedResponse tickerId clientId clientOrderId orderToken))
      | some p =>
          if newClientOrderId = 0 ∨ qty = 0 then
            .ok (b, ch.sendClientResponse
              (rejectedResponse tickerId clientId clientOrderId orderToken))
          else do
            let old ← b.heap.read p
            let a : OrderArgs :=
              { tickerId, clientId, clientOrderId := newClientOrderId,
                marketOrderId := b.nextMarketOrderId, orderType, price,
                initialQuantity := qty, side := old.info.side, orderToken }
            let b := b.bumpMarketOrderId
            let b ← b.remove p
            let ch := ch.sendClientResponse (modifiedResponse a)
            let ch := ch.sendMarketUpdate
              (modifyUpdate a old.info.marketOrderId)
            let (b, ch, remaining) ← b.matchOrder ch a
            if remaining = 0 then .ok (b, ch)
            else
              match orderType with
              | .goodTillCancel => do
                  let b ← b.insert { a with initialQuantity := remaining }
                  .ok (b, ch)
              | .fillAndKill =>
                  let ch := ch.sendClientResponse (killedResponse a remaining)
                  let ch := ch.sendMarketUpdate
                    (cancelUpdate tickerId a.marketOrderId a.side price remaining)
                  .ok (b, ch)

end MapBook

end NanoExchange
