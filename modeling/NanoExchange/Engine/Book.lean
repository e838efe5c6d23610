import NanoExchange.Engine.MapBook
import NanoExchange.Engine.VectorBook

/-!
# The book an engine is built with

`order_book.h` selects one of the two order books at compile time.  `BookImpl`
stands for that selection: the operations that are not common text.  A request
is dispatched to its operation as in `MatchingEngine::processClientRequest`.

The two books write `cancelOrder` and `replaceOrder` out separately, but for a
point each as the same text; `cancelWith` and `replaceWith` are that text, with
the point as a parameter.

A run processes a list of requests, one after the other, from a fresh book.
-/

namespace NanoExchange

namespace OrderBook

variable {Lv P : Type} [LevelTable Lv] [ObjectPool P]

/-- `cancelOrder` of both books, which fill `leaves_qty_` of the CANCELED
response differently. -/
def cancelWith (leaves : Quantity → Quantity → Quantity)
    (b : OrderBook Lv P) (ch : Channel)
    (tickerId : TickerId) (clientId : ClientId) (clientOrderId : OrderId)
    (qty : Quantity) (orderToken : OrderToken) :
    Except Fault (OrderBook Lv P × Channel) :=
  match b.orders.lookup clientId with
  | none =>
      .ok (b, ch.sendClientResponse
        (rejectedResponse tickerId clientId clientOrderId orderToken))
  | some client =>
      match client.lookup clientOrderId with
      | none =>
          .ok (b, ch.sendClientResponse
            (rejectedResponse tickerId clientId clientOrderId orderToken))
      | some p => do
          let order ← b.heap.read p
          let o := order.info
          let canceledQty := if qty = 0 then o.remainingQuantity else qty
          if canceledQty > o.remainingQuantity then
            .ok (b, ch.sendClientResponse
              (excessiveResponse tickerId clientId clientOrderId o))
          else do
            let ch := ch.sendMarketUpdate
              (cancelUpdate tickerId o.marketOrderId o.side o.price canceledQty)
            let left ← subQuantity o.remainingQuantity canceledQty
            let o := o.withRemaining left
            let b := { b with heap := b.heap.write p { order with info := o } }
            let ch := ch.sendClientResponse
              (canceledResponse tickerId clientId clientOrderId o
                (leaves canceledQty left))
            let b ← if left = 0 then b.remove p else .ok b
            .ok (b, ch)

/-- `replaceOrder` of both books, which treat the outcome of the sweep
differently. -/
def replaceWith
    (k : OrderArgs → OrderBook Lv P × Channel × Quantity →
      Except Fault (OrderBook Lv P × Channel))
    (b : OrderBook Lv P) (ch : Channel) (tickerId : TickerId)
    (clientId : ClientId) (clientOrderId : OrderId)
    (newClientOrderId : OrderId) (orderType : OrderType) (price : Price)
    (qty : Quantity) (orderToken : OrderToken) :
    Except Fault (OrderBook Lv P × Channel) :=
  match b.orders.lookup clientId with
  | none =>
      .ok (b, ch.sendClientResponse
        (rejectedResponse tickerId clientId clientOrderId orderToken))
  | some client =>
      match client.lookup clientOrderId with
      | none =>
          .ok (b, ch.sendClientResponse
            (rejectedResponse tickerId clientId clientOrderId orderToken))
      | some p =>
          if newClientOrderId = 0 ∨ qty = 0 then
            .ok (b, ch.sendClientResponse
              (rejectedResponse tickerId clientId clientOrderId orderToken))
          else do
            let old ← b.heap.read p
            let a : OrderArgs :=
              { tickerId, clientId, clientOrderId := newClientOrderId,
                marketOrderId := b.nextMarketOrderId, orderType, price,
                initialQuantity := qty, side := old.info.side, orderToken }
            let b := b.bumpMarketOrderId
            let b ← b.remove p
            let ch := ch.sendClientResponse (modifiedResponse a)
            let ch := ch.sendMarketUpdate
              (modifyUpdate a old.info.marketOrderId)
            let outcome ← b.matchOrder ch a
            k a outcome

end OrderBook

/-- What `order_book_map.cpp` does with the remainder of a replacement. -/
def MapBook.rest {P : Type} [ObjectPool P] (a : OrderArgs)
    (outcome : MapBook P × Channel × Quantity) :
    Except Fault (MapBook P × Channel) :=
  let (b, ch, remaining) := outcome
  if remaining = 0 then .ok (b, ch)
  else
    match a.orderType with
    | .goodTillCancel => do
        let b ← b.insert { a with initialQuantity := remaining }
        .ok (b, ch)
    | .fillAndKill =>
        let ch := ch.sendClientResponse (killedResponse a remaining)
        let ch := ch.sendMarketUpdate
          (cancelUpdate a.tickerId a.marketOrderId a.side a.price remaining)
        .ok (b, ch)

/-- What `order_book_vector.cpp` does with the remainder of a replacement. -/
def VectorBook.rest {P : Type} [ObjectPool P] (a : OrderArgs)
    (outcome : VectorBook P × Channel × Quantity) :
    Except Fault (VectorBook P × Channel) :=
  let (b, ch, remaining) := outcome
  if remaining > 0 ∧ a.orderType = .goodTillCancel then do
    let b ← b.insert { a with initialQuantity := remaining }
    .ok (b, ch)
  else .ok (b, ch)

section Shapes

variable {P : Type} [ObjectPool P] (ch : Channel) (t : TickerId)
variable (c : ClientId) (i j : OrderId) (type : OrderType) (price : Price)
variable (qty : Quantity) (token : OrderToken)

theorem MapBook.cancelOrder_eq (b : MapBook P) :
    b.cancelOrder ch t c i qty token =
      b.cancelWith (fun canceled _ => canceled) ch t c i qty token := by
  rfl

theorem VectorBook.cancelOrder_eq (b : VectorBook P) :
    b.cancelOrder ch t c i qty token =
      b.cancelWith (fun _ left => left) ch t c i qty token := by
  rfl

theorem MapBook.replaceOrder_eq (b : MapBook P) :
    b.replaceOrder ch t c i j type price qty token =
      b.replaceWith rest ch t c i j type price qty token := by
  rfl

theorem VectorBook.replaceOrder_eq (b : VectorBook P) :
    b.replaceOrder ch t c i j type price qty token =
      b.replaceWith rest ch t c i j type price qty token := by
  rfl

end Shapes

/-- The operations that the two order books write out separately. -/
class BookImpl (Lv : Type) [LevelTable Lv] where
  cancelOrder : ∀ {P : Type} [ObjectPool P], OrderBook Lv P → Channel →
    TickerId → ClientId → OrderId → Quantity → OrderToken →
      Except Fault (OrderBook Lv P × Channel)
  replaceOrder : ∀ {P : Type} [ObjectPool P], OrderBook Lv P → Channel →
    TickerId → ClientId → OrderId → OrderId → OrderType → Price → Quantity →
      OrderToken → Except Fault (OrderBook Lv P × Channel)

instance : BookImpl MapLevels where
  cancelOrder := MapBook.cancelOrder
  replaceOrder := MapBook.replaceOrder

instance : BookImpl VectorLevels where
  cancelOrder := VectorBook.cancelOrder
  replaceOrder := VectorBook.replaceOrder

namespace OrderBook

variable {Lv P : Type} [LevelTable Lv] [BookImpl Lv] [ObjectPool P]

/-- The switch of `processClientRequest` on the kind of request. -/
def processRequest (b : OrderBook Lv P) (ch : Channel)
    (request : MEClientRequest) : Except Fault (OrderBook Lv P × Channel) :=
  match request.action with
  | .new =>
      b.addOrder ch request.tickerId request.clientId request.clientOrderId
        request.type request.price request.qty request.side request.orderToken
  | .cancel =>
      BookImpl.cancelOrder b ch request.tickerId request.clientId
        request.clientOrderId request.qty request.orderToken
  | .modify =>
      BookImpl.replaceOrder b ch request.tickerId request.clientId
        request.clientOrderId request.newClientOrderId request.type
        request.price request.qty request.orderToken

/-- Process requests one after the other. -/
def processAll (s : OrderBook Lv P × Channel)
    (requests : List MEClientRequest) :
    Except Fault (OrderBook Lv P × Channel) :=
  requests.foldlM (fun s r => s.1.processRequest s.2 r) s

/-- A run of a fresh book, attached to an engine whose next match id is
`n`. -/
def run (Lv P : Type) [LevelTable Lv] [BookImpl Lv] [ObjectPool P]
    (size : Nat) (n : OrderId) (requests : List MEClientRequest) :
    Except Fault (OrderBook Lv P × Channel) :=
  processAll (OrderBook.init size, { matchIds := n }) requests

end OrderBook

end NanoExchange
