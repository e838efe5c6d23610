import NanoExchange.Types
import NanoExchange.Lib.Bytes

/-!
# Encoding market updates

`itch_encoder.h` fills one of the packed ITCH structs of the QuantLink library,
which is not part of this repository, and copies its bytes into a buffer.  An
`ItchMessage` is such a struct with the values that `encode` assigns to its
fields, before the byte swaps; an `ItchLayout` stands for the structs' layout,
of which the code relies on that the bytes of a struct fit into the buffer.

The timestamp is the clock at the time of the call.
-/

namespace NanoExchange

open Lib

/-- `ITCH_MAX_MSG_SIZE` -/
def itchMaxMsgSize : Nat := 40

/-- The fields that all messages have. -/
structure ItchHeader where
  stockLocate : Nat
  trackingNumber : Nat
  timestamp : Nat
deriving DecidableEq

/-- The ITCH structs that the publisher sends. -/
inductive ItchMessage where
  | addOrder (header : ItchHeader) (orderRefNum : Nat) (buySell : UInt8)
      (shares stock price : Nat)
  | orderDelete (header : ItchHeader) (orderRefNum : Nat)
  | orderExecuted (header : ItchHeader)
      (orderRefNum executedShares matchNumber : Nat)
  | orderReplace (header : ItchHeader)
      (originalOrderRef newOrderRef shares price : Nat)
deriving DecidableEq

/-- The layout of the structs. -/
structure ItchLayout where
  bytes : ItchMessage → List UInt8
  nonempty : ∀ m, bytes m ≠ []
  fits : ∀ m, (bytes m).length ≤ itchMaxMsgSize

/-- `getStockLocate`, the tracking number and `writeTimestamp`. -/
def itchHeader (now : Nat) (u : MEMarketUpdate) : ItchHeader where
  stockLocate := u.tickerId % 2 ^ 16
  trackingNumber := 0
  timestamp := now % 2 ^ 48

/-- The struct that `encode` fills; `none` where it returns 0. -/
def itchMessage (now : Nat) (u : MEMarketUpdate) : Option ItchMessage :=
  match u.type with
  | .add =>
      some (.addOrder (itchHeader now u) u.marketOrderId
        (match u.side with
          | .buy => 66
          | .sell => 83)
        (u.qty % 2 ^ 32) u.tickerId (u.price % 2 ^ 32))
  | .cancel => some (.orderDelete (itchHeader now u) u.marketOrderId)
  | .trade =>
      some (.orderExecuted (itchHeader now u) u.marketOrderId
        (u.qty % 2 ^ 32) u.matchId)
  | .modify =>
      some (.orderReplace (itchHeader now u) u.marketOrderId u.newOrderId
        (u.qty % 2 ^ 32) (u.price % 2 ^ 32))
  | .snapshotStart | .snapshotEnd | .clear => none

/-- `encode`: the bytes written to the buffer. -/
def ItchLayout.encode (L : ItchLayout) (now : Nat) (u : MEMarketUpdate) :
    List UInt8 :=
  match itchMessage now u with
  | some m => L.bytes m
  | none => []

theorem ItchLayout.encode_ne_nil
    (L : ItchLayout) (now : Nat) {u : MEMarketUpdate}
    (h : u.type.Incremental) :
    L.encode now u ≠ [] := by
  unfold encode itchMessage
  cases htype : u.type with
  | add | cancel | modify | trade => exact L.nonempty _
  | snapshotStart | clear | snapshotEnd =>
      rw [htype] at h
      exact h.elim

theorem ItchLayout.length_encode_le
    (L : ItchLayout) (now : Nat) (u : MEMarketUpdate) :
    (L.encode now u).length ≤ itchMaxMsgSize := by
  unfold encode
  split
  · exact L.fits _
  · exact Nat.zero_le _

def ItchHeader.packed (h : ItchHeader) : List UInt8 :=
  toBigEndian 2 h.stockLocate ++ toBigEndian 2 h.trackingNumber ++
    toBigEndian 6 h.timestamp

/-- The packed ITCH structs. -/
def ItchLayout.packed : ItchLayout where
  bytes
    | .addOrder h ref side shares stock price =>
        65 :: h.packed ++ toBigEndian 8 ref ++ [side] ++
          toBigEndian 4 shares ++ toBigEndian 8 stock ++ toBigEndian 4 price
    | .orderDelete h ref => 68 :: h.packed ++ toBigEndian 8 ref
    | .orderExecuted h ref shares matchNumber =>
        69 :: h.packed ++ toBigEndian 8 ref ++ toBigEndian 4 shares ++
          toBigEndian 8 matchNumber
    | .orderReplace h old new shares price =>
        85 :: h.packed ++ toBigEndian 8 old ++ toBigEndian 8 new ++
          toBigEndian 4 shares ++ toBigEndian 4 price
  nonempty m := by cases m <;> simp
  fits m := by cases m <;> simp [ItchHeader.packed, itchMaxMsgSize]

end NanoExchange
