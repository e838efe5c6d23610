import NanoExchange.Engine.Messages
import NanoExchange.Engine.ObjectPool
import NanoExchange.Lib.NestedIndex

/-!
# The order book, over a table of price levels

`order_book_map.cpp` and `order_book_vector.cpp` are two classes of one name,
selected at compile time.  They differ in how the price levels are kept and in
three points of what they report; `insert`, `remove`, `match` and `addOrder`
are otherwise the same text.

The common text is written once here, over a `LevelTable`: the two ordered
maps, or the two dense arrays with their linked level lists.  `cancelOrder`
and `replaceOrder`, which are not the same in the two files, are in
`MapBook.lean` and `VectorBook.lean`.

Orders are objects of a pool, addressed by `Ptr`.  Reading an address that
holds no order is `Fault.badPointer`.  The two nested loops of `match` take a
bound on their iterations; every fill moves at least one share, so the
quantity being matched is a sufficient bound.
-/

namespace NanoExchange

open Lib

/-- The orders in the pool's storage, by address. -/
abbrev Heap := Ptr → Option MEOrder

namespace Heap

/-- `*p` -/
def read (h : Heap) (p : Ptr) : Except Fault MEOrder :=
  match h p with
  | some o => .ok o
  | none => .error .badPointer

/-- `*p = o` -/
def write (h : Heap) (p : Ptr) (o : MEOrder) : Heap :=
  Function.update h p (some o)

/-- The object at `p` is destroyed. -/
def free (h : Heap) (p : Ptr) : Heap :=
  Function.update h p none

end Heap

/-- The operations of the two level containers, under one interface.  A level
is named by its price (the map key) or by its array index. -/
class LevelTable (Lv : Type) where
  empty : Lv
  /-- The level that a sweep of this side starts from: `begin()`, or the
  cached best pointer. -/
  best : Lv → Side → Option Price
  /-- The price of a level that a sweep has reached. -/
  levelPrice : Lv → Side → Price → Price
  /-- `level.head`, as the inner loop of `match` reads it. -/
  loopHead : Lv → Side → Price → Except Fault (Option Ptr)
  /-- Make the level of a price ready to take an order. -/
  openLevel : Lv → Side → Price → Except Fault Lv
  /-- The level of a price. -/
  fetch : Lv → Side → Price → Except Fault PriceLevel
  /-- Write through the reference that `fetch` returned. -/
  store : Lv → Side → Price → PriceLevel → Lv
  /-- Take a level that has become empty out of the table. -/
  closeLevel : Lv → Side → Price → Lv
  /-- The TRADE update for a fill of the resting order. -/
  tradeUpdate : TickerId → OrderInfo → Quantity → OrderId → MEMarketUpdate

/-- An order book. -/
structure OrderBook (Lv P : Type) where
  pool : P
  heap : Heap
  levels : Lv
  orders : NestedIndex ClientId OrderId Ptr
  nextMarketOrderId : OrderId

namespace OrderBook

/-- Append an order at the tail of a level. -/
def linkBack (h : Heap) (level : PriceLevel) (p : Ptr) :
    Except Fault (Heap × PriceLevel) :=
  match level.head with
  | none => .ok (h, { level with head := some p, tail := some p })
  | some _ =>
      match level.tail with
      | none => .error .badPointer
      | some t => do
          let order ← h.read p
          let h := h.write p { order with prev := level.tail }
          let last ← h.read t
          let h := h.write t { last with next := some p }
          .ok (h, { level with tail := some p })

/-- `order->prev_->next_ = order->next_`, or the level's head for a first
order. -/
def unlinkPrev (h : Heap) (level : PriceLevel) (order : MEOrder) :
    Except Fault (Heap × PriceLevel) :=
  match order.prev with
  | some q => do
      let o ← h.read q
      .ok (h.write q { o with next := order.next }, level)
  | none => .ok (h, { level with head := order.next })

/-- `order->next_->prev_ = order->prev_`, or the level's tail for a last
order. -/
def unlinkNext (h : Heap) (level : PriceLevel) (order : MEOrder) :
    Except Fault (Heap × PriceLevel) :=
  match order.next with
  | some q => do
      let o ← h.read q
      .ok (h.write q { o with prev := order.prev }, level)
  | none => .ok (h, { level with tail := order.prev })

section Operations

variable {Lv P : Type} [LevelTable Lv] [ObjectPool P]

/-- The constructor `MEOrderBook(size, ...)`. -/
def init (size : Nat) : OrderBook Lv P where
  pool := ObjectPool.create size
  heap := fun _ => none
  levels := LevelTable.empty
  orders := ∅
  nextMarketOrderId := 1

def insert (b : OrderBook Lv P) (a : OrderArgs) :
    Except Fault (OrderBook Lv P) :=
  match ObjectPool.allocate b.pool with
  | none => .error .poolExhausted
  | some (p, pool) => do
      let h := b.heap.write p { info := a.toInfo }
      let levels ← LevelTable.openLevel b.levels a.side a.price
      let level ← LevelTable.fetch levels a.side a.price
      let (h, level) ← linkBack h level p
      .ok { b with
        pool := pool
        heap := h
        levels := LevelTable.store levels a.side a.price level
        orders := b.orders.set a.clientId a.clientOrderId p }

def remove (b : OrderBook Lv P) (p : Ptr) :
    Except Fault (OrderBook Lv P) := do
  let order ← b.heap.read p
  let side := order.info.side
  let price := order.info.price
  let level ← LevelTable.fetch b.levels side price
  let (h, level) ← unlinkPrev b.heap level order
  let (h, level) ← unlinkNext h level order
  let levels := LevelTable.store b.levels side price level
  let levels :=
    if level.head = none then LevelTable.closeLevel levels side price
    else levels
  .ok { b with
    pool := ObjectPool.deallocate b.pool p
    heap := h.free p
    levels := levels
    orders := b.orders.unset order.info.clientId order.info.clientOrderId }

/-- The inner loop of `match`: fill the orders of one level from its head. -/
def matchLevel (a : OrderArgs) (level : Price) :
    Nat → OrderBook Lv P → Channel → Quantity →
      Except Fault (OrderBook Lv P × Channel × Quantity)
  | 0, _, _, _ => .error .outOfFuel
  | fuel + 1, b, ch, remaining => do
      match ← LevelTable.loopHead b.levels a.side.opposite level with
      | none => .ok (b, ch, remaining)
      | some p =>
          if remaining = 0 then .ok (b, ch, remaining)
          else do
            let resting ← b.heap.read p
            let fill := min remaining resting.info.remainingQuantity
            let matchId := ch.peekMatchId
            let ch := ch.nextMatchId
            let remaining ← subQuantity remaining fill
            let left ← subQuantity resting.info.remainingQuantity fill
            let info := resting.info.withRemaining left
            let b := { b with heap := b.heap.write p { resting with info := info } }
            let levelPrice :=
              LevelTable.levelPrice b.levels a.side.opposite level
            let ch := ch.sendClientResponse
              (restingResponse a.tickerId info fill levelPrice matchId)
            let ch := ch.sendClientResponse
              (aggressiveResponse a fill levelPrice remaining matchId)
            let ch := ch.sendMarketUpdate
              (LevelTable.tradeUpdate Lv a.tickerId info fill matchId)
            let b ← if left = 0 then b.remove p else .ok b
            matchLevel a level fuel b ch remaining

/-- The outer loop of `match`: the best opposite level is fetched again after
each level. -/
def matchAgainst (a : OrderArgs) :
    Nat → OrderBook Lv P → Channel → Quantity →
      Except Fault (OrderBook Lv P × Channel × Quantity)
  | 0, _, _, _ => .error .outOfFuel
  | fuel + 1, b, ch, remaining =>
      match LevelTable.best b.levels a.side.opposite with
      | none => .ok (b, ch, remaining)
      | some level =>
          if remaining = 0 then .ok (b, ch, remaining)
          else if a.side.crosses a.price
              (LevelTable.levelPrice b.levels a.side.opposite level) then do
            let (b, ch, remaining) ←
              matchLevel a level (remaining + 1) b ch remaining
            matchAgainst a fuel b ch remaining
          else .ok (b, ch, remaining)

/-- `match`: returns the unfilled quantity. -/
def matchOrder (b : OrderBook Lv P) (ch : Channel) (a : OrderArgs) :
    Except Fault (OrderBook Lv P × Channel × Quantity) :=
  matchAgainst a (a.initialQuantity + 1) b ch a.initialQuantity

/-- `nextMarketOrderId++` -/
def bumpMarketOrderId (b : OrderBook Lv P) : OrderBook Lv P :=
  { b with nextMarketOrderId := (b.nextMarketOrderId + 1) % wordSize }

def addOrder (b : OrderBook Lv P) (ch : Channel)
    (tickerId : TickerId) (clientId : ClientId) (clientOrderId : OrderId)
    (orderType : OrderType) (price : Price) (initialQuantity : Quantity)
    (side : Side) (orderToken : OrderToken) :
    Except Fault (OrderBook Lv P × Channel) := do
  let a : OrderArgs :=
    { tickerId, clientId, clientOrderId, orderType, price, initialQuantity,
      side, orderToken, marketOrderId := b.nextMarketOrderId }
  let b := b.bumpMarketOrderId
  let ch := ch.sendClientResponse (acceptedResponse a)
  let (b, ch, remaining) ← b.matchOrder ch a
  if remaining > 0 then
    match orderType with
    | .goodTillCancel => do
        let b ← b.insert { a with initialQuantity := remaining }
        .ok (b, ch.sendMarketUpdate (addUpdate a remaining))
    | .fillAndKill =>
        .ok (b, ch.sendClientResponse (killedResponse a remaining))
  else .ok (b, ch)

end Operations

end OrderBook

end NanoExchange
