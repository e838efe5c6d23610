import Mathlib.Algebra.Order.Ring.Nat
import Mathlib.Data.List.Basic
import Mathlib.Order.RelClasses

/-!
# Domain types of the exchange

The messages and records of `src/types.h`.

Unsigned machine integers are natural numbers.  Where the source can wrap
(`nextMarketOrderId++`, `nextMatchId`, the narrowing of a ticker) the model
takes the remainder explicitly, and a 32-bit quantity subtraction is the
checked `subQuantity`, which reports `Fault.underflow` instead of wrapping.

The links of an `MEOrder` are pool addresses; a null pointer is `none`.  All
other fields of an order are kept in `OrderInfo`, so that the record without
its links can be spoken about.
-/

namespace NanoExchange

abbrev OrderId := Nat
abbrev Price := Nat
abbrev Quantity := Nat
abbrev ClientId := Nat
abbrev TickerId := Nat

/-- `OUCH_TOKEN_LEN` -/
def ouchTokenLen : Nat := 14

/-- The raw 14-byte OUCH token. -/
abbrev OrderToken := Vector UInt8 ouchTokenLen

/-- The zero-initialised token `OrderToken{}`. -/
def OrderToken.zero : OrderToken := Vector.replicate ouchTokenLen 0

/-- Number of values of the 64-bit identifier and price types. -/
def wordSize : Nat := 2 ^ 64

/-- `Price_INVALID` -/
def priceInvalid : Price := wordSize - 1

/-- `OrderId_INVALID` -/
def orderIdInvalid : OrderId := wordSize - 1

inductive Side where
  | buy
  | sell
deriving DecidableEq, Repr

inductive OrderType where
  | goodTillCancel
  | fillAndKill
deriving DecidableEq, Repr

inductive ClientRequestType where
  | new
  | cancel
  | modify
deriving DecidableEq, Repr

inductive ResponseType where
  | accepted
  | executed
  | canceled
  | cancelRejected
  | modified
deriving DecidableEq, Repr

inductive UpdateType where
  | add
  | cancel
  | modify
  | trade
  | snapshotStart
  | clear
  | snapshotEnd
deriving DecidableEq, Repr

/-- The types of update that the engine sends. -/
def UpdateType.Incremental : UpdateType → Prop
  | .add | .cancel | .modify | .trade => True
  | .snapshotStart | .clear | .snapshotEnd => False

/-- What stops an operation: each is undefined behaviour or a missing resource
of the source program. -/
inductive Fault where
  /-- `pool_.allocate` has no free object left. -/
  | poolExhausted
  /-- A null or dangling `MEOrder*` is dereferenced. -/
  | badPointer
  /-- A 32-bit quantity subtraction wraps. -/
  | underflow
  /-- A `std::vector` is indexed past its end. -/
  | outOfRange
  /-- A loop runs longer than the bound given to it. -/
  | outOfFuel
  /-- An `ASSERT` of the source fails. -/
  | assertFailed
deriving DecidableEq, Repr

namespace Side

/-- The side an incoming order is matched against. -/
def opposite : Side → Side
  | buy => sell
  | sell => buy

/-- Strict priority of prices on one side of the book: `std::greater` for
bids, `std::less` for asks. -/
def precedes : Side → Price → Price → Prop
  | buy, p, q => q < p
  | sell, p, q => p < q

instance (s : Side) : DecidableRel s.precedes :=
  fun p q =>
    match s with
    | buy => inferInstanceAs (Decidable (q < p))
    | sell => inferInstanceAs (Decidable (p < q))

instance (s : Side) : IsStrictTotalOrder Price s.precedes where
  trichotomous p q h1 h2 := by
    cases s <;> simp only [precedes] at h1 h2 <;> lia
  irrefl p := by
    cases s <;> simp [precedes]
  trans p q r h1 h2 := by
    cases s <;> simp only [precedes] at * <;> lia

theorem precedes_of_not
    (s : Side) {p q : Price} (hne : p ≠ q) (h : ¬ s.precedes p q) :
    s.precedes q p := by
  rcases trichotomous_of s.precedes p q with hpq | hpq | hqp
  · exact absurd hpq h
  · exact absurd hpq hne
  · exact hqp

/-- A limit `price` of an order on side `s` reaches the opposite level
`levelPrice`: the negation of the test that ends a sweep. -/
def crosses (s : Side) (price levelPrice : Price) : Prop :=
  match s with
  | buy => ¬ price < levelPrice
  | sell => ¬ price > levelPrice

instance (s : Side) (p q : Price) : Decidable (s.crosses p q) :=
  match s with
  | buy => inferInstanceAs (Decidable (¬ p < q))
  | sell => inferInstanceAs (Decidable (¬ p > q))

@[simp] theorem opposite_opposite (s : Side) :
    s.opposite.opposite = s := by
  cases s <;> rfl

@[simp] theorem opposite_ne (s : Side) :
    s.opposite ≠ s := by
  cases s <;> decide

@[simp] theorem ne_opposite (s : Side) :
    s ≠ s.opposite := by
  cases s <;> decide

/-- A level at least as good as a crossing level is crossing. -/
theorem crosses_of_not_precedes
    {s : Side} {price p q : Price}
    (hq : s.crosses price q)
    (hpq : ¬ s.opposite.precedes q p) :
    s.crosses price p := by
  cases s <;> simp only [crosses, precedes, opposite] at * <;> lia

end Side

/-- Decrement of a 32-bit quantity; a wrapping decrement is a fault. -/
def subQuantity (a b : Quantity) : Except Fault Quantity :=
  if b ≤ a then .ok (a - b) else .error .underflow

theorem subQuantity_of_le {a b : Quantity} (h : b ≤ a) :
    subQuantity a b = .ok (a - b) := by
  simp [subQuantity, h]

structure MEClientRequest where
  clientId : ClientId
  clientOrderId : OrderId
  newClientOrderId : OrderId := 0
  price : Price
  tickerId : TickerId
  qty : Quantity
  action : ClientRequestType
  type : OrderType
  side : Side
  orderToken : OrderToken := OrderToken.zero
deriving DecidableEq

/-- The parameterised constructor of `MEClientRequest`. -/
def MEClientRequest.make (action : ClientRequestType) (clientId : ClientId)
    (tickerId : TickerId) (clientOrderId : OrderId) (type : OrderType)
    (side : Side) (price : Price) (qty : Quantity) : MEClientRequest :=
  { clientId, clientOrderId, price, tickerId, qty, action, type, side }

structure MEClientResponse where
  clientId : ClientId
  tickerId : TickerId
  clientOrderId : OrderId
  marketOrderId : OrderId
  side : Side
  price : Price
  qty : Quantity
  type : OrderType
  status : ResponseType
  executedQty : Quantity
  executionPrice : Price
  leavesQty : Quantity
  matchId : OrderId := orderIdInvalid
  orderToken : OrderToken := OrderToken.zero
deriving DecidableEq

structure MEMarketUpdate where
  tickerId : TickerId
  marketOrderId : OrderId
  type : UpdateType
  side : Side
  price : Price
  qty : Quantity
  newOrderId : OrderId := orderIdInvalid
  matchId : OrderId := orderIdInvalid
deriving DecidableEq

/-- Address of an `MEOrder` in its object pool. -/
abbrev Ptr := Nat

/-- The fields of an `MEOrder` other than its links. -/
structure OrderInfo where
  clientId : ClientId
  clientOrderId : OrderId
  marketOrderId : OrderId
  price : Price
  tickerId : TickerId
  initialQuantity : Quantity
  remainingQuantity : Quantity
  orderType : OrderType
  side : Side
  orderToken : OrderToken
deriving DecidableEq

namespace OrderInfo

/-- The pair of ids under which an order is indexed. -/
def key (o : OrderInfo) : ClientId × OrderId :=
  (o.clientId, o.clientOrderId)

/-- The order with another remaining quantity. -/
def withRemaining (o : OrderInfo) (q : Quantity) : OrderInfo :=
  { o with remainingQuantity := q }

@[simp] theorem withRemaining_key (o : OrderInfo) (q : Quantity) :
    (o.withRemaining q).key = o.key := by
  rfl

@[simp] theorem withRemaining_price (o : OrderInfo) (q : Quantity) :
    (o.withRemaining q).price = o.price := by
  rfl

@[simp] theorem withRemaining_side (o : OrderInfo) (q : Quantity) :
    (o.withRemaining q).side = o.side := by
  rfl

@[simp] theorem withRemaining_remaining (o : OrderInfo) (q : Quantity) :
    (o.withRemaining q).remainingQuantity = q := by
  rfl

end OrderInfo

/-- A resting order in the pool, with its queue links. -/
structure MEOrder where
  info : OrderInfo
  next : Option Ptr := none
  prev : Option Ptr := none
deriving DecidableEq

/-- A price level.  In the vector book a `PriceLevel*` is the index of the
level in the array of its side. -/
structure PriceLevel where
  price : Price := 0
  head : Option Ptr := none
  tail : Option Ptr := none
  next : Option Price := none
  prev : Option Price := none
deriving DecidableEq

end NanoExchange
