import NanoExchange.Engine.Messages
import NanoExchange.Lib.Priority

/-!
# The ladder: price-time priority without pointers

What an order book is for, said without levels, links or indices.  A `Ladder`
holds, for each side, the list of resting orders in priority order: best price
first, and among equal prices the older order first.  An incoming order eats
into the opposite list from its front (`sweep`); what is left of it is placed
into its own list or dropped.

A step also says what happened, as a list of `Event`s.  How an event is
reported is a separate matter: `Event.outputs` turns it into the messages of a
book, and the three points in which the two order books of the source report
differently are the fields of a `Dialect`.
-/

namespace NanoExchange

open Lib

/-- The resting orders of a book, each side in priority order. -/
structure Ladder where
  side : Side → List OrderInfo
  nextMarketOrderId : OrderId

/-- What a request made happen. -/
inductive Event where
  /-- A new order has been given its market order id. -/
  | accepted (a : OrderArgs)
  /-- A resting order has been taken out for a replacement. -/
  | modified (a : OrderArgs) (old : OrderInfo)
  /-- A fill; `o` is the resting order after it, `remaining` what the incoming
  order still wants. -/
  | filled (a : OrderArgs) (o : OrderInfo) (fill remaining : Quantity)
      (matchId : OrderId)
  /-- The remainder of a new order or of a replacement has come to rest. -/
  | rested (replacing : Bool) (a : OrderArgs) (remaining : Quantity)
  /-- The remainder of a FillAndKill order has been dropped. -/
  | killed (replacing : Bool) (a : OrderArgs) (remaining : Quantity)
  /-- The client has withdrawn `qty` shares of `o`. -/
  | canceled (tickerId : TickerId) (o : OrderInfo) (qty : Quantity)
  /-- The client asked to withdraw more of `o` than there is. -/
  | excessive (tickerId : TickerId) (o : OrderInfo)
  /-- The request names no order that it can act on. -/
  | unknown (tickerId : TickerId) (clientId : ClientId)
      (clientOrderId : OrderId) (orderToken : OrderToken)
deriving DecidableEq

/-- The points in which the reports of the two order books differ. -/
structure Dialect where
  /-- `leaves_qty_` of a CANCELED response, from the canceled quantity and the
  quantity left. -/
  cancelLeaves : Quantity → Quantity → Quantity
  /-- `match_id_` of a TRADE update. -/
  tradeMatchId : OrderId → OrderId
  /-- Whether the dropped remainder of a replacement is reported. -/
  reportsKilledReplacement : Bool

namespace Dialect

/-- The reports of `order_book_map.cpp`. -/
def map : Dialect where
  cancelLeaves canceled _ := canceled
  tradeMatchId matchId := matchId
  reportsKilledReplacement := true

/-- The reports of `order_book_vector.cpp`. -/
def vector : Dialect where
  cancelLeaves _ left := left
  tradeMatchId _ := orderIdInvalid
  reportsKilledReplacement := false

end Dialect

/-- The TRADE update of a fill. -/
def tradeUpdate (tickerId : TickerId) (o : OrderInfo) (fill : Quantity)
    (matchId : OrderId) : MEMarketUpdate where
  tickerId := tickerId
  marketOrderId := o.marketOrderId
  type := .trade
  side := o.side
  price := o.price
  qty := fill
  matchId := matchId

/-- The messages that report an event. -/
def Event.outputs (d : Dialect) : Event → List Output
  | .accepted a => [.response (acceptedResponse a)]
  | .modified a old =>
      [.response (modifiedResponse a),
        .update (modifyUpdate a old.marketOrderId)]
  | .filled a o fill remaining matchId =>
      [.response (restingResponse a.tickerId o fill o.price matchId),
        .response (aggressiveResponse a fill o.price remaining matchId),
        .update (tradeUpdate a.tickerId o fill (d.tradeMatchId matchId))]
  | .rested replacing a remaining =>
      if replacing then [] else [.update (addUpdate a remaining)]
  | .killed replacing a remaining =>
      if replacing then
        if d.reportsKilledReplacement then
          [.response (killedResponse a remaining),
            .update (cancelUpdate a.tickerId a.marketOrderId a.side a.price
              remaining)]
        else []
      else [.response (killedResponse a remaining)]
  | .canceled tickerId o qty =>
      [.update (cancelUpdate tickerId o.marketOrderId o.side o.price qty),
        .response (canceledResponse tickerId o.clientId o.clientOrderId o
          (d.cancelLeaves qty (o.remainingQuantity - qty)))]
  | .excessive tickerId o =>
      [.response (excessiveResponse tickerId o.clientId o.clientOrderId o)]
  | .unknown tickerId clientId clientOrderId orderToken =>
      [.response (rejectedResponse tickerId clientId clientOrderId orderToken)]

/-- The outcome of matching a quantity against one side. -/
structure Sweep where
  fills : List Event
  resting : List OrderInfo
  remaining : Quantity
  matchIds : OrderId

/-- Match `q` shares against a list in priority order, as far as the prices
are within reach. -/
def sweep (reach : Price → Prop) [DecidablePred reach] (a : OrderArgs) :
    OrderId → Quantity → List OrderInfo → Sweep
  | n, q, [] => ⟨[], [], q, n⟩
  | n, q, o :: l =>
      if q = 0 ∨ ¬ reach o.price then ⟨[], o :: l, q, n⟩
      else if o.remainingQuantity ≤ q then
        let r := sweep reach a ((n + 1) % wordSize) (q - o.remainingQuantity) l
        { r with
          fills := .filled a (o.withRemaining 0) o.remainingQuantity
            (q - o.remainingQuantity) n :: r.fills }
      else
        let o' := o.withRemaining (o.remainingQuantity - q)
        ⟨[.filled a o' q 0 n], o' :: l, 0, (n + 1) % wordSize⟩

/-- The outcome of a request: the new ladder, the next match id, and what
happened. -/
structure StepResult where
  ladder : Ladder
  matchIds : OrderId
  events : List Event

namespace Ladder

/-- The empty ladder. -/
def empty : Ladder where
  side := fun _ => []
  nextMarketOrderId := 1

/-- All resting orders. -/
def orders (A : Ladder) : List OrderInfo :=
  A.side .buy ++ A.side .sell

/-- Replace one side. -/
def setSide (A : Ladder) (s : Side) (l : List OrderInfo) : Ladder :=
  { A with side := Function.update A.side s l }

/-- The resting order with the given client and client order id. -/
def find? (A : Ladder) (k : ClientId × OrderId) : Option OrderInfo :=
  A.orders.find? fun o => o.key = k

/-- Take an order out. -/
def erase (A : Ladder) (k : ClientId × OrderId) : Ladder :=
  { A with side := fun s => (A.side s).filter fun o => o.key ≠ k }

/-- Give an order another remaining quantity. -/
def setRemaining (A : Ladder) (k : ClientId × OrderId) (q : Quantity) :
    Ladder :=
  { A with side := fun s => (A.side s).map fun o =>
      if o.key = k then o.withRemaining q else o }

/-- Let an order come to rest behind the orders of its price. -/
def insert (A : Ladder) (o : OrderInfo) : Ladder :=
  A.setSide o.side (place o.side.precedes OrderInfo.price o (A.side o.side))

/-- `nextMarketOrderId++` -/
def bump (A : Ladder) : Ladder :=
  { A with nextMarketOrderId := (A.nextMarketOrderId + 1) % wordSize }

/-- Match an incoming order, then let its remainder rest or drop it. -/
def enter (A : Ladder) (n : OrderId) (replacing : Bool) (a : OrderArgs) :
    StepResult :=
  let r := sweep (a.side.crosses a.price) a n a.initialQuantity
    (A.side a.side.opposite)
  let A := A.setSide a.side.opposite r.resting
  if r.remaining = 0 then ⟨A, r.matchIds, r.fills⟩
  else
    match a.orderType with
    | .goodTillCancel =>
        ⟨A.insert { a with initialQuantity := r.remaining }.toInfo, r.matchIds,
          r.fills ++ [.rested replacing a r.remaining]⟩
    | .fillAndKill =>
        ⟨A, r.matchIds, r.fills ++ [.killed replacing a r.remaining]⟩

/-- The arguments of a new order. -/
def newArgs (A : Ladder) (r : MEClientRequest) : OrderArgs where
  tickerId := r.tickerId
  clientId := r.clientId
  clientOrderId := r.clientOrderId
  marketOrderId := A.nextMarketOrderId
  orderType := r.type
  price := r.price
  initialQuantity := r.qty
  side := r.side
  orderToken := r.orderToken

/-- The arguments of the replacement of an order of side `s`. -/
def replacementArgs (A : Ladder) (r : MEClientRequest) (s : Side) :
    OrderArgs where
  tickerId := r.tickerId
  clientId := r.clientId
  clientOrderId := r.newClientOrderId
  marketOrderId := A.nextMarketOrderId
  orderType := r.type
  price := r.price
  initialQuantity := r.qty
  side := s
  orderToken := r.orderToken

/-- The event of a request that is turned down. -/
def rejection (r : MEClientRequest) : Event :=
  .unknown r.tickerId r.clientId r.clientOrderId r.orderToken

/-- Withdraw shares of a resting order. -/
def withdraw (A : Ladder) (o : OrderInfo) (qty : Quantity) : Ladder :=
  if o.remainingQuantity - qty = 0 then A.erase o.key
  else A.setRemaining o.key (o.remainingQuantity - qty)

/-- The quantity that a cancel names; 0 stands for all that is left. -/
def canceledQty (r : MEClientRequest) (o : OrderInfo) : Quantity :=
  if r.qty = 0 then o.remainingQuantity else r.qty

/-- One request. -/
def step (A : Ladder) (n : OrderId) (r : MEClientRequest) : StepResult :=
  match r.action with
  | .new =>
      let a := A.newArgs r
      let res := A.bump.enter n false a
      { res with events := .accepted a :: res.events }
  | .cancel =>
      match A.find? (r.clientId, r.clientOrderId) with
      | none => ⟨A, n, [rejection r]⟩
      | some o =>
          if canceledQty r o > o.remainingQuantity then
            ⟨A, n, [.excessive r.tickerId o]⟩
          else
            ⟨A.withdraw o (canceledQty r o), n,
              [.canceled r.tickerId o (canceledQty r o)]⟩
  | .modify =>
      match A.find? (r.clientId, r.clientOrderId) with
      | none => ⟨A, n, [rejection r]⟩
      | some old =>
          if r.newClientOrderId = 0 ∨ r.qty = 0 then ⟨A, n, [rejection r]⟩
          else
            let a := A.replacementArgs r old.side
            let res := (A.erase old.key).bump.enter n true a
            { res with events := .modified a old :: res.events }

end Ladder

end NanoExchange
