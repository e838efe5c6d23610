import NanoExchange.Gateway.TokenManager
import NanoExchange.Lib.Bytes

/-!
# Decoding OUCH messages

`ouch_processor.h` reads a message by casting its bytes to one of the packed
structs of the QuantLink library, which is not part of this repository.  An
`OuchLayout` stands for what the code uses of it: the type bytes, the sizes of
the three inbound structs and where their fields lie.

A multi-byte field is read as a native integer and byte-swapped, which is its
big-endian value.
-/

namespace NanoExchange

open Lib

/-- The inbound message structs. -/
structure OuchLayout where
  enterOrder : UInt8
  cancelOrder : UInt8
  replaceOrder : UInt8
  types_distinct : enterOrder ≠ cancelOrder ∧ enterOrder ≠ replaceOrder ∧
    cancelOrder ≠ replaceOrder
  enterOrderSize : Nat
  cancelOrderSize : Nat
  replaceOrderSize : Nat
  sizes_pos : 0 < enterOrderSize ∧ 0 < cancelOrderSize ∧
    0 < replaceOrderSize
  /-- Offsets of the fields of `EnterOrder`. -/
  enterToken : Nat
  enterBuySell : Nat
  enterStock : Nat
  enterPrice : Nat
  enterTimeInForce : Nat
  /-- Offset of the token of `CancelOrder`. -/
  cancelToken : Nat
  /-- Offsets of the fields of `ReplaceOrder`. -/
  replaceExistingToken : Nat
  replaceReplacementToken : Nat
  replacePrice : Nat
  replaceTimeInForce : Nat
  /-- `get_shares()` of each struct. -/
  enterShares : List UInt8 → Quantity
  cancelShares : List UInt8 → Quantity
  replaceShares : List UInt8 → Quantity

/-- `OrderServer::ouchMsgSize`: the size of a message by its type byte, 0 for
an unknown type. -/
def OuchLayout.ouchMsgSize (L : OuchLayout) (t : UInt8) : Nat :=
  if t = L.enterOrder then L.enterOrderSize
  else if t = L.cancelOrder then L.cancelOrderSize
  else if t = L.replaceOrder then L.replaceOrderSize
  else 0

/-- The 14 bytes of a token field. -/
def tokenAt (message : List UInt8) (offset : Nat) : OrderToken :=
  Vector.ofFn fun i => (message.drop offset).getD i 0

/-- The 64-bit value of the 8-byte stock field of an `EnterOrder`. -/
def OuchLayout.stock (L : OuchLayout) (message : List UInt8) : Nat :=
  ofBigEndian (field message L.enterStock 8)

/-- The value-initialised request of `decodeOuch`. -/
def MEClientRequest.blank (clientId : ClientId) : MEClientRequest where
  clientId := clientId
  clientOrderId := 0
  price := 0
  tickerId := 0
  qty := 0
  action := .new
  type := .goodTillCancel
  side := .buy

/-- A `time_in_force` of 0 is an order to fill and kill. -/
def orderTypeOf (timeInForce : Nat) : OrderType :=
  if timeInForce = 0 then .fillAndKill else .goodTillCancel

/-- A `buy_sell_indicator` of `B` is a buy order; all others sell. -/
def sideOf (buySell : List UInt8) : Side :=
  if buySell = [66] then .buy else .sell

namespace OuchLayout

/-- The case ENTER_ORDER of `decodeOuch`.  The ticker id is the stock value
narrowed to 32 bits. -/
def decodeEnter (L : OuchLayout) (data : List UInt8) (clientId : ClientId)
    (tokens : OrderTokenManager) :
    Option MEClientRequest × OrderTokenManager :=
  let tickerId := L.stock data % 2 ^ 32
  let token := tokenAt data L.enterToken
  let (clientOrderId, tokens) :=
    tokens.registerNewToken clientId token tickerId
  if clientOrderId = 0 then (none, tokens)
  else
    (some { MEClientRequest.blank clientId with
      action := .new
      type := orderTypeOf (ofBigEndian (field data L.enterTimeInForce 4))
      tickerId := tickerId
      clientOrderId := clientOrderId
      orderToken := token
      side := sideOf (field data L.enterBuySell 1)
      price := ofBigEndian (field data L.enterPrice 4)
      qty := L.enterShares data }, tokens)

/-- The case CANCEL_ORDER. -/
def decodeCancel (L : OuchLayout) (data : List UInt8) (clientId : ClientId)
    (tokens : OrderTokenManager) : Option MEClientRequest :=
  let token := tokenAt data L.cancelToken
  let clientOrderId := tokens.getID clientId token
  if clientOrderId = 0 then none
  else
    some { MEClientRequest.blank clientId with
      action := .cancel
      clientOrderId := clientOrderId
      orderToken := token
      qty := L.cancelShares data
      tickerId := (tokens.slot clientOrderId).tickerId }

/-- The case REPLACE_ORDER. -/
def decodeReplace (L : OuchLayout) (data : List UInt8) (clientId : ClientId)
    (tokens : OrderTokenManager) :
    Option MEClientRequest × OrderTokenManager :=
  let clientOrderId :=
    tokens.getID clientId (tokenAt data L.replaceExistingToken)
  if clientOrderId = 0 then (none, tokens)
  else
    let tickerId := (tokens.slot clientOrderId).tickerId
    let token := tokenAt data L.replaceReplacementToken
    let (newClientOrderId, tokens) :=
      tokens.registerNewToken clientId token tickerId
    if newClientOrderId = 0 then (none, tokens)
    else
      (some { MEClientRequest.blank clientId with
        action := .modify
        qty := L.replaceShares data
        price := ofBigEndian (field data L.replacePrice 4)
        type := orderTypeOf (ofBigEndian (field data L.replaceTimeInForce 4))
        clientOrderId := clientOrderId
        tickerId := tickerId
        newClientOrderId := newClientOrderId
        orderToken := token }, tokens)

/-- `decodeOuch`: the request, if the message is accepted, and the registry
after it. -/
def decodeOuch (L : OuchLayout) (data : List UInt8) (clientId : ClientId)
    (tokens : OrderTokenManager) :
    Option MEClientRequest × OrderTokenManager :=
  match data with
  | [] => (none, tokens)
  | t :: _ =>
      if t = L.enterOrder then L.decodeEnter data clientId tokens
      else if t = L.cancelOrder then
        (L.decodeCancel data clientId tokens, tokens)
      else if t = L.replaceOrder then L.decodeReplace data clientId tokens
      else (none, tokens)

/-- The request for an ENTER_ORDER message. -/
structure Enters (L : OuchLayout) (data : List UInt8)
    (r : MEClientRequest) : Prop where
  action : r.action = .new
  head : data.head? = some L.enterOrder
  type : r.type = orderTypeOf (ofBigEndian (field data L.enterTimeInForce 4))
  tickerId : r.tickerId = L.stock data % 2 ^ 32
  orderToken : r.orderToken = tokenAt data L.enterToken
  side : r.side = sideOf (field data L.enterBuySell 1)
  price : r.price = ofBigEndian (field data L.enterPrice 4)
  qty : r.qty = L.enterShares data

/-- The request for a REPLACE_ORDER message. -/
structure Replaces (L : OuchLayout) (data : List UInt8)
    (r : MEClientRequest) : Prop where
  action : r.action = .modify
  head : data.head? = some L.replaceOrder
  type : r.type = orderTypeOf (ofBigEndian (field data L.replaceTimeInForce 4))
  orderToken : r.orderToken = tokenAt data L.replaceReplacementToken
  price : r.price = ofBigEndian (field data L.replacePrice 4)
  qty : r.qty = L.replaceShares data

/-- **What a request takes from its message**; that of a CANCEL_ORDER has no
price. -/
theorem decodeOuch_some
    {L : OuchLayout} {data : List UInt8} {c : ClientId}
    {m : OrderTokenManager} {r : MEClientRequest}
    (h : (L.decodeOuch data c m).1 = some r) :
    L.Enters data r ∨
      (r.action = .cancel ∧ data.head? = some L.cancelOrder ∧ r.price = 0) ∨
      L.Replaces data r := by
  unfold decodeOuch at h
  cases data with
  | nil => cases h
  | cons t rest =>
      dsimp only at h
      split_ifs at h with henter hcancel hreplace
      · unfold decodeEnter at h
        dsimp only at h
        split_ifs at h
        obtain rfl := Option.some.inj h
        exact .inl ⟨rfl, congrArg some henter, rfl, rfl, rfl, rfl, rfl, rfl⟩
      · unfold decodeCancel at h
        dsimp only at h
        split_ifs at h
        obtain rfl := Option.some.inj h
        exact .inr (.inl ⟨rfl, congrArg some hcancel, rfl⟩)
      · unfold decodeReplace at h
        dsimp only at h
        split_ifs at h
        obtain rfl := Option.some.inj h
        exact .inr (.inr ⟨rfl, congrArg some hreplace, rfl, rfl, rfl, rfl⟩)

/-- The ticker of a new order is its narrowed stock value. -/
theorem decodeOuch_new
    {L : OuchLayout} {data : List UInt8} {c : ClientId}
    {m : OrderTokenManager} {r : MEClientRequest}
    (h : (L.decodeOuch data c m).1 = some r) (hnew : r.action = .new) :
    r.tickerId = L.stock data % 2 ^ 32 := by
  rcases decodeOuch_some h with henters | ⟨hcancel, -⟩ | hreplaces
  · exact henters.tickerId
  · cases hnew.symm.trans hcancel
  · cases hnew.symm.trans hreplaces.action

section Slots

variable {G : TickerId → Prop} {m : OrderTokenManager}

/-- A message that is decoded keeps the property `G` of registered tickers and
gives a request for a ticker with that property, if this is so for a new
order. -/
def Keeps (G : TickerId → Prop)
    (res : Option MEClientRequest × OrderTokenManager) : Prop :=
  (∀ r, res.1 = some r → r.action = .new → G r.tickerId) →
    res.2.Slots G ∧ ∀ r, res.1 = some r → G r.tickerId

theorem decodeEnter_keeps
    (h : m.Slots G) (L : OuchLayout) (data : List UInt8) (c : ClientId) :
    Keeps G (L.decodeEnter data c m) := by
  have hregister := h.registerNewToken c (tokenAt data L.enterToken)
    (L.stock data % 2 ^ 32)
  unfold decodeEnter
  dsimp only
  split_ifs with hid
  · exact fun _ => ⟨hregister fun hne => absurd hid hne, by simp⟩
  · intro hG
    have hticker := hG _ rfl rfl
    refine ⟨hregister fun _ => hticker, ?_⟩
    rintro r ⟨⟩
    exact hticker

theorem decodeCancel_keeps
    (h : m.Slots G) (L : OuchLayout) (data : List UInt8) (c : ClientId) :
    Keeps G (L.decodeCancel data c m, m) := by
  unfold decodeCancel
  dsimp only
  split_ifs with hid
  · exact fun _ => ⟨h, by simp⟩
  · refine fun _ => ⟨h, ?_⟩
    rintro r ⟨⟩
    exact h.getID hid

theorem decodeReplace_keeps
    (h : m.Slots G) (L : OuchLayout) (data : List UInt8) (c : ClientId) :
    Keeps G (L.decodeReplace data c m) := by
  unfold decodeReplace
  dsimp only
  split_ifs with hid hnew
  · exact fun _ => ⟨h, by simp⟩
  · refine fun _ => ⟨?_, by simp⟩
    exact h.registerNewToken c _ _ fun _ => h.getID hid
  · refine fun _ => ⟨?_, ?_⟩
    · exact h.registerNewToken c _ _ fun _ => h.getID hid
    · rintro r ⟨⟩
      exact h.getID hid

/-- **Decoding keeps the tickers of the registry.** -/
theorem decodeOuch_keeps
    (h : m.Slots G) (L : OuchLayout) (data : List UInt8) (c : ClientId) :
    Keeps G (L.decodeOuch data c m) := by
  have hnone : Keeps G (none, m) := fun _ => ⟨h, by simp⟩
  unfold decodeOuch
  cases data with
  | nil => exact hnone
  | cons t rest =>
      dsimp only
      split_ifs
      · exact decodeEnter_keeps h L _ c
      · exact decodeCancel_keeps h L _ c
      · exact decodeReplace_keeps h L _ c
      · exact hnone

end Slots

end OuchLayout

end NanoExchange
