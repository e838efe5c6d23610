import NanoExchange.Types
import NanoExchange.Lib.PackedStruct

/-!
# Encoding responses

`encodeOuch` clears one of the outbound OUCH structs of the QuantLink library
with spaces and assigns its fields.  An `OuchReplies` stands for what the code
uses of these structs: their type bytes and where their fields lie.
-/

namespace NanoExchange

open Lib

/-- The fields of the outbound structs that the gateway assigns.  `token` is
the `replacement_order_token` of an `OrderReplaced` and the `order_token` of the
other structs. -/
inductive ReplyField where
  | type
  | timestamp
  | token
  | buySellIndicator
  | shares
  | stock
  | price
  | timeInForce
  | orderReferenceNumber
  | executedShares
  | executionPrice
  | matchNumber
  | decrementShares
  | reason
deriving DecidableEq

def ReplyField.width : ReplyField → Nat
  | .type | .buySellIndicator | .reason => 1
  | .shares | .price | .timeInForce | .executedShares | .executionPrice
  | .decrementShares => 4
  | .timestamp | .stock | .orderReferenceNumber | .matchNumber => 8
  | .token => ouchTokenLen

namespace ResponseType

open ReplyField in
/-- The fields of the struct for a response. -/
def fields : ResponseType → List ReplyField
  | accepted | modified =>
      [type, timestamp, token, buySellIndicator, shares, stock, price,
        timeInForce, orderReferenceNumber]
  | executed =>
      [type, timestamp, token, executedShares, executionPrice, matchNumber]
  | canceled => [type, timestamp, token, decrementShares, reason]
  | cancelRejected => [type, timestamp, token]

end ResponseType

/-- The outbound message structs: `OrderAccepted`, `OrderExecuted`,
`OrderCanceled`, `CancelRejected` and `OrderReplaced`, whose type byte is that of
REPLACE_ORDER. -/
structure OuchReplies where
  typeByte : ResponseType → UInt8
  layout : (s : ResponseType) → StructLayout ReplyField.width s.fields

/-- The values that `encodeOuch` assigns, in the order of its statements. -/
def OuchReplies.values (R : OuchReplies) (resp : MEClientResponse)
    (currentTs : Nat) : List (ReplyField × List UInt8) :=
  [(.type, [R.typeByte resp.status]), (.timestamp, toBigEndian 8 currentTs),
    (.token, resp.orderToken.toList)] ++
  match resp.status with
  | .accepted | .modified =>
      [(.buySellIndicator, [match resp.side with
          | .buy => 66
          | .sell => 83]),
        (.shares, toBigEndian 4 resp.qty),
        (.stock, toBigEndian 8 resp.tickerId),
        (.price, toBigEndian 4 resp.price),
        (.timeInForce, toBigEndian 4
          (if resp.type = .fillAndKill then 0 else 99998)),
        (.orderReferenceNumber, toBigEndian 8 resp.marketOrderId)]
  | .executed =>
      [(.executedShares, toBigEndian 4 resp.executedQty),
        (.executionPrice, toBigEndian 4 resp.executionPrice),
        (.matchNumber, toBigEndian 8 resp.matchId)]
  | .canceled =>
      [(.decrementShares, toBigEndian 4 resp.leavesQty), (.reason, [85])]
  | .cancelRejected => []

/-- `encodeOuch`: the bytes that it writes; it returns their number. -/
def OuchReplies.encodeOuch (R : OuchReplies) (resp : MEClientResponse)
    (currentTs : Nat) : List UInt8 :=
  (R.layout resp.status).fill 32 (R.values resp currentTs)

/-- The token field of an encoded response. -/
def OuchReplies.tokenField (R : OuchReplies) (status : ResponseType)
    (message : List UInt8) : List UInt8 :=
  field message ((R.layout status).offset .token) ouchTokenLen

namespace OuchReplies

theorem assigns_values (R : OuchReplies) (x : MEClientResponse) (now : Nat) :
    StructLayout.Assigns x.status.fields ReplyField.width
      (R.values x now) := by
  have htoken : x.orderToken.toList.length = ReplyField.width .token :=
    Vector.length_toList
  unfold values
  constructor
  · cases x.status <;> rfl
  · cases x.status <;> simp [htoken] <;> simp [ReplyField.width]

/-- **An encoded response carries the token of the response.** -/
theorem tokenField_encodeOuch
    (R : OuchReplies) (x : MEClientResponse) (now : Nat) :
    R.tokenField x.status (R.encodeOuch x now) = x.orderToken.toList := by
  have hmem : (ReplyField.token, x.orderToken.toList) ∈ R.values x now := by
    simp [values]
  exact StructLayout.field_fill (R.assigns_values x now) _ 32 hmem

/-- The type byte alone makes a message nonempty. -/
theorem length_encodeOuch
    (R : OuchReplies) (x : MEClientResponse) (now : Nat) :
    (R.encodeOuch x now).length = (R.layout x.status).size ∧
      0 < (R.encodeOuch x now).length := by
  have hlen := StructLayout.length_fill (R.assigns_values x now)
    (R.layout x.status) 32
  have htype := (R.layout x.status).inside .type
    (by cases x.status <;> simp [ResponseType.fields])
  have hwidth : ReplyField.width .type = 1 := rfl
  refine ⟨hlen, ?_⟩
  rw [encodeOuch, hlen]
  omega

/-- The packed OUCH structs. -/
def packed : OuchReplies where
  typeByte
    | .accepted => 65
    | .executed => 69
    | .canceled => 67
    | .cancelRejected => 73
    | .modified => 85
  layout status :=
    { size := match status with
        | .accepted => 66
        | .executed => 40
        | .canceled => 28
        | .cancelRejected => 23
        | .modified => 80
      offset := fun f => match f with
        | .type => 0
        | .timestamp => 1
        | .token => 9
        | .buySellIndicator | .executedShares | .decrementShares => 23
        | .shares => 24
        | .executionPrice | .reason => 27
        | .stock => 28
        | .matchNumber => 32
        | .price => 36
        | .timeInForce => 40
        | .orderReferenceNumber => 49
      inside := by cases status <;> decide
      disjoint := by cases status <;> decide }

end OuchReplies

end NanoExchange
