import NanoExchange.Types
import Mathlib.Data.Finmap

/-!
# The shadow book of the snapshot streamer

`snapshot_stream.h` keeps its own image of the resting orders, one hash map
from market order id to the last update for each ticker, and changes it by the
published market updates alone.

`shadow_book_[ticker]` is not checked; an index past the end is
`Fault.outOfRange`.  The log entry of a TRADE for an order that the map does
not hold is kept in `unknownTrades`.
-/

namespace NanoExchange

/-- `std::unordered_map<OrderId, MEMarketUpdate>` -/
abbrev ShadowMap := Finmap fun _ : OrderId => MEMarketUpdate

/-- The members of `SnapshotStreamer` that `applyToBook` works on. -/
structure ShadowBook where
  shadowBook : List ShadowMap
  dirty : Bool := false
  unknownTrades : List OrderId := []

namespace ShadowBook

/-- `shadow_book_.resize(maxTickers_)` -/
def init (maxTickers : Nat) : ShadowBook where
  shadowBook := List.replicate maxTickers ∅

/-- Change `shadow_book_[ticker]`. -/
def modifyAt (b : ShadowBook) (ticker : TickerId)
    (f : ShadowMap → ShadowMap) : Except Fault ShadowBook :=
  match b.shadowBook[ticker]? with
  | none => .error .outOfRange
  | some orders =>
      .ok { b with
        shadowBook := b.shadowBook.set ticker (f orders)
        dirty := true }

/-- The entry that a MODIFY leaves under the new id. -/
def replacement (update : MEMarketUpdate) : MEMarketUpdate :=
  { update with
    marketOrderId := update.newOrderId
    newOrderId := orderIdInvalid }

/-- A TRADE takes its quantity off an order, or takes the order out. -/
def fill (orders : ShadowMap) (order update : MEMarketUpdate) : ShadowMap :=
  if order.qty ≤ update.qty then orders.erase update.marketOrderId
  else orders.insert update.marketOrderId
    { order with qty := order.qty - update.qty }

def applyToBook (b : ShadowBook) (update : MEMarketUpdate) :
    Except Fault ShadowBook :=
  match update.type with
  | .add =>
      b.modifyAt update.tickerId fun orders =>
        orders.insert update.marketOrderId update
  | .cancel =>
      b.modifyAt update.tickerId fun orders =>
        orders.erase update.marketOrderId
  | .modify =>
      b.modifyAt update.tickerId fun orders =>
        (orders.erase update.marketOrderId).insert update.newOrderId
          (replacement update)
  | .trade =>
      match b.shadowBook[update.tickerId]? with
      | none => .error .outOfRange
      | some orders =>
          match orders.lookup update.marketOrderId with
          | some order =>
              b.modifyAt update.tickerId fun orders =>
                fill orders order update
          | none =>
              .ok { b with
                dirty := true
                unknownTrades := b.unknownTrades ++ [update.marketOrderId] }
  | .snapshotStart | .clear | .snapshotEnd => .ok b

end ShadowBook

end NanoExchange
