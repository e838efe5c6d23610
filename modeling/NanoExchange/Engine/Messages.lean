import NanoExchange.Types

/-!
# What the order books send

The responses and market updates that the books build, one definition for each
kind, and the `Channel` they are sent through.  The source builds them with
the same constructor arguments in both books, except where a definition takes
the differing field as an argument.
-/

namespace NanoExchange

/-- One message that the engine sends, to the response queue or to the market
update queue. -/
inductive Output where
  | response (r : MEClientResponse)
  | update (u : MEMarketUpdate)
deriving DecidableEq

namespace Output

/-- The response that goes to the gateway. -/
def response? : Output → Option MEClientResponse
  | .response r => some r
  | .update _ => none

/-- The update that goes to the publisher. -/
def update? : Output → Option MEMarketUpdate
  | .response _ => none
  | .update u => some u

@[simp] theorem response?_response (r : MEClientResponse) :
    (response r).response? = some r := by
  rfl

@[simp] theorem response?_update (u : MEMarketUpdate) :
    (update u).response? = none := by
  rfl

@[simp] theorem update?_response (r : MEClientResponse) :
    (response r).update? = none := by
  rfl

@[simp] theorem update?_update (u : MEMarketUpdate) :
    (update u).update? = some u := by
  rfl

end Output

/-- The engine state that all order books share: the match counter, and what
has been pushed to the two outbound queues, in program order. -/
structure Channel where
  matchIds : OrderId := 1
  outputs : List Output := []

namespace Channel

/-- The value `nextMatchId()` returns, before the counter is advanced. -/
def peekMatchId (ch : Channel) : OrderId :=
  ch.matchIds

/-- `next_match_id_++` -/
def nextMatchId (ch : Channel) : Channel :=
  { ch with matchIds := (ch.matchIds + 1) % wordSize }

def sendClientResponse (ch : Channel) (r : MEClientResponse) : Channel :=
  { ch with outputs := ch.outputs ++ [.response r] }

def sendMarketUpdate (ch : Channel) (u : MEMarketUpdate) : Channel :=
  { ch with outputs := ch.outputs ++ [.update u] }

/-- The stream that the gateway reads from the response queue. -/
def responses (ch : Channel) : List MEClientResponse :=
  ch.outputs.filterMap Output.response?

/-- The stream that the publisher reads from the market update queue. -/
def updates (ch : Channel) : List MEMarketUpdate :=
  ch.outputs.filterMap Output.update?

end Channel

/-- The arguments that `match` and `insert` receive for an incoming order. -/
structure OrderArgs where
  tickerId : TickerId
  clientId : ClientId
  clientOrderId : OrderId
  marketOrderId : OrderId
  orderType : OrderType
  price : Price
  initialQuantity : Quantity
  side : Side
  orderToken : OrderToken
deriving DecidableEq

namespace OrderArgs

/-- The order that `pool_.allocate(...)` constructs. -/
def toInfo (a : OrderArgs) : OrderInfo where
  clientId := a.clientId
  clientOrderId := a.clientOrderId
  marketOrderId := a.marketOrderId
  price := a.price
  tickerId := a.tickerId
  initialQuantity := a.initialQuantity
  remainingQuantity := a.initialQuantity
  orderType := a.orderType
  side := a.side
  orderToken := a.orderToken

end OrderArgs

/-- The response to the owner of the resting order, after the fill. -/
def restingResponse
    (tickerId : TickerId) (o : OrderInfo) (fill : Quantity)
    (levelPrice : Price) (matchId : OrderId) : MEClientResponse where
  clientId := o.clientId
  tickerId := tickerId
  clientOrderId := o.clientOrderId
  marketOrderId := o.marketOrderId
  side := o.side
  price := o.price
  qty := o.initialQuantity
  type := o.orderType
  status := .executed
  executedQty := fill
  executionPrice := levelPrice
  leavesQty := o.remainingQuantity
  matchId := matchId
  orderToken := o.orderToken

/-- The response to the owner of the incoming order. -/
def aggressiveResponse
    (a : OrderArgs) (fill : Quantity) (levelPrice : Price)
    (remaining : Quantity) (matchId : OrderId) : MEClientResponse where
  clientId := a.clientId
  tickerId := a.tickerId
  clientOrderId := a.clientOrderId
  marketOrderId := a.marketOrderId
  side := a.side
  price := a.price
  qty := a.initialQuantity
  type := a.orderType
  status := .executed
  executedQty := fill
  executionPrice := levelPrice
  leavesQty := remaining
  matchId := matchId
  orderToken := a.orderToken

/-- The acknowledgement of a new order. -/
def acceptedResponse (a : OrderArgs) : MEClientResponse where
  clientId := a.clientId
  tickerId := a.tickerId
  clientOrderId := a.clientOrderId
  marketOrderId := a.marketOrderId
  side := a.side
  price := a.price
  qty := a.initialQuantity
  type := a.orderType
  status := .accepted
  executedQty := 0
  executionPrice := a.price
  leavesQty := a.initialQuantity
  orderToken := a.orderToken

/-- The report that the rest of a FillAndKill order is dropped. -/
def killedResponse (a : OrderArgs) (remaining : Quantity) :
    MEClientResponse where
  clientId := a.clientId
  tickerId := a.tickerId
  clientOrderId := a.clientOrderId
  marketOrderId := a.marketOrderId
  side := a.side
  price := a.price
  qty := a.initialQuantity
  type := a.orderType
  status := .canceled
  executedQty := 0
  executionPrice := a.price
  leavesQty := remaining
  orderToken := a.orderToken

/-- The ADD update for a remainder that rests. -/
def addUpdate (a : OrderArgs) (remaining : Quantity) : MEMarketUpdate where
  tickerId := a.tickerId
  marketOrderId := a.marketOrderId
  type := .add
  side := a.side
  price := a.price
  qty := remaining

/-- The rejection of a request that names no resting order of the client. -/
def rejectedResponse
    (tickerId : TickerId) (clientId : ClientId) (clientOrderId : OrderId)
    (orderToken : OrderToken) : MEClientResponse where
  clientId := clientId
  tickerId := tickerId
  clientOrderId := clientOrderId
  marketOrderId := orderIdInvalid
  side := .buy
  price := priceInvalid
  qty := 0
  type := .goodTillCancel
  status := .cancelRejected
  executedQty := 0
  executionPrice := priceInvalid
  leavesQty := 0
  orderToken := orderToken

/-- The rejection of a cancel of more than the remaining quantity. -/
def excessiveResponse
    (tickerId : TickerId) (clientId : ClientId) (clientOrderId : OrderId)
    (o : OrderInfo) : MEClientResponse where
  clientId := clientId
  tickerId := tickerId
  clientOrderId := clientOrderId
  marketOrderId := o.marketOrderId
  side := o.side
  price := o.price
  qty := o.initialQuantity
  type := o.orderType
  status := .cancelRejected
  executedQty := 0
  executionPrice := priceInvalid
  leavesQty := o.remainingQuantity
  orderToken := o.orderToken

/-- The CANCELED response; the two books fill `leaves_qty_` differently. -/
def canceledResponse
    (tickerId : TickerId) (clientId : ClientId) (clientOrderId : OrderId)
    (o : OrderInfo) (leavesQty : Quantity) : MEClientResponse where
  clientId := clientId
  tickerId := tickerId
  clientOrderId := clientOrderId
  marketOrderId := o.marketOrderId
  side := o.side
  price := o.price
  qty := o.initialQuantity
  type := o.orderType
  status := .canceled
  executedQty := 0
  executionPrice := o.price
  leavesQty := leavesQty
  orderToken := o.orderToken

/-- The CANCEL update for a quantity taken out of the book. -/
def cancelUpdate
    (tickerId : TickerId) (marketOrderId : OrderId) (side : Side)
    (price : Price) (qty : Quantity) : MEMarketUpdate where
  tickerId := tickerId
  marketOrderId := marketOrderId
  type := .cancel
  side := side
  price := price
  qty := qty

/-- The acknowledgement of a replacement. -/
def modifiedResponse (a : OrderArgs) : MEClientResponse where
  clientId := a.clientId
  tickerId := a.tickerId
  clientOrderId := a.clientOrderId
  marketOrderId := a.marketOrderId
  side := a.side
  price := a.price
  qty := a.initialQuantity
  type := a.orderType
  status := .modified
  executedQty := 0
  executionPrice := a.price
  leavesQty := a.initialQuantity
  orderToken := a.orderToken

/-- The MODIFY update: the old id, and the new id in `new_order_id_`. -/
def modifyUpdate (a : OrderArgs) (oldMarketOrderId : OrderId) :
    MEMarketUpdate where
  tickerId := a.tickerId
  marketOrderId := oldMarketOrderId
  type := .modify
  side := a.side
  price := a.price
  qty := a.initialQuantity
  newOrderId := a.marketOrderId

end NanoExchange
