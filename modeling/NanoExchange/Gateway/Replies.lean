import NanoExchange.Engine.Prices
import NanoExchange.Gateway.Ouch
import NanoExchange.Gateway.OuchEncode

/-!
# What the client reads back

The fields of an outbound message, compared with those of the message that it
answers.  `OuchLayout.PackedFields` is what is known of the inbound structs: the
fields lie inside them, and `get_shares()` reads the shares field.
-/

namespace NanoExchange

open Lib

/-- Where an ENTER_ORDER or a REPLACE_ORDER has the values that its reply
carries. -/
structure OrderFields where
  token : Nat
  shares : Nat
  price : Nat
  timeInForce : Nat

/-- These fields lie inside the struct. -/
def OrderFields.Inside (F : OrderFields) (size : Nat) : Prop :=
  F.token + ouchTokenLen ≤ size ∧ F.shares + 4 ≤ size ∧ F.price + 4 ≤ size

/-- The packed inbound structs. -/
structure OuchLayout.PackedFields (L : OuchLayout) where
  enterSharesAt : Nat
  replaceSharesAt : Nat
  enterShares : ∀ m, L.enterShares m = ofBigEndian (field m enterSharesAt 4)
  replaceShares :
    ∀ m, L.replaceShares m = ofBigEndian (field m replaceSharesAt 4)
  enter_inside : OrderFields.Inside
    ⟨L.enterToken, enterSharesAt, L.enterPrice, L.enterTimeInForce⟩
    L.enterOrderSize
  stock_inside : L.enterStock + 8 ≤ L.enterOrderSize
  replace_inside : OrderFields.Inside
    ⟨L.replaceReplacementToken, replaceSharesAt, L.replacePrice,
      L.replaceTimeInForce⟩ L.replaceOrderSize

namespace OuchLayout.PackedFields

variable {L : OuchLayout}

/-- The fields of an ENTER_ORDER. -/
def enter (K : L.PackedFields) : OrderFields :=
  ⟨L.enterToken, K.enterSharesAt, L.enterPrice, L.enterTimeInForce⟩

/-- The fields of a REPLACE_ORDER. -/
def replace (K : L.PackedFields) : OrderFields :=
  ⟨L.replaceReplacementToken, K.replaceSharesAt, L.replacePrice,
    L.replaceTimeInForce⟩

end OuchLayout.PackedFields

/-- The bytes of a token field. -/
theorem tokenAt_toList
    {message : List UInt8} {offset : Nat}
    (h : offset + ouchTokenLen ≤ message.length) :
    (tokenAt message offset).toList = field message offset ouchTokenLen := by
  have hlen := length_field h
  refine List.ext_getElem (Vector.length_toList.trans hlen.symm) ?_
  intro i hi hi'
  have hi : i < ouchTokenLen := by rwa [Vector.length_toList] at hi
  have hdrop : i < (message.drop offset).length := by
    rw [List.length_drop]
    omega
  simp only [tokenAt, field, Vector.getElem_toList, Vector.getElem_ofFn,
    List.getElem_take, List.getD_eq_getElem?_getD,
    List.getElem?_eq_getElem hdrop, Option.getD_some]

/-- A field of an outbound message. -/
def OuchReplies.replyField (R : OuchReplies) (status : ResponseType)
    (f : ReplyField) (reply : List UInt8) : List UInt8 :=
  field reply ((R.layout status).offset f) f.width

/-- The price field of an outbound message. -/
def OuchReplies.priceField (R : OuchReplies) (status : ResponseType)
    (reply : List UInt8) : List UInt8 :=
  R.replyField status
    (if status = .executed then .executionPrice else .price) reply

theorem OuchReplies.replyField_encodeOuch
    {R : OuchReplies} {x : MEClientResponse} {now : Nat} {f : ReplyField}
    {v : List UInt8} (h : (f, v) ∈ R.values x now) :
    R.replyField x.status f (R.encodeOuch x now) = v :=
  StructLayout.field_fill (R.assigns_values x now) _ 32 h

/-- **A price of 32 bits is sent as it is.** -/
theorem OuchReplies.priceField_encodeOuch
    (R : OuchReplies) {x : MEClientResponse} (now : Nat) {p : Price}
    (hp : x.shownPrice = some p) (hlt : p < 2 ^ 32) :
    R.priceField x.status (R.encodeOuch x now) = toBigEndian 4 p ∧
      ofBigEndian (R.priceField x.status (R.encodeOuch x now)) = p := by
  have hfield : R.priceField x.status (R.encodeOuch x now) =
      toBigEndian 4 p := by
    unfold MEClientResponse.shownPrice at hp
    unfold priceField
    refine replyField_encodeOuch ?_
    cases hstatus : x.status <;> rw [hstatus] at hp
    case accepted | modified | executed =>
      obtain rfl := Option.some.inj hp
      simp [values, hstatus]
    case canceled | cancelRejected => cases hp
  rw [hfield, ofBigEndian_toBigEndian]
  exact ⟨rfl, Nat.mod_eq_of_lt hlt⟩

/-- The indicator of a side. -/
def Side.indicator : Side → UInt8
  | .buy => 66
  | .sell => 83

theorem sideOf_indicator (buySell : List UInt8) :
    (sideOf buySell).indicator = if buySell = [66] then 66 else 83 := by
  unfold sideOf
  split_ifs <;> rfl

theorem orderTypeOf_eq (timeInForce : Nat) :
    orderTypeOf timeInForce = .fillAndKill ↔ timeInForce = 0 := by
  unfold orderTypeOf
  split_ifs with h <;> simp [h]

/-- The `time_in_force` that is sent is 0 for an order to fill and kill
only. -/
theorem ofBigEndian_timeInForce (type : OrderType) :
    ofBigEndian (toBigEndian 4 (if type = .fillAndKill then 0 else 99998)) = 0 ↔
      type = .fillAndKill := by
  rw [ofBigEndian_toBigEndian]
  cases type <;> decide

/-- **The reply carries the values of the message**: its token, shares and
price, and whether its `time_in_force` is 0; the stock and the side are given
apart. -/
structure OuchReplies.Carries (R : OuchReplies) (status : ResponseType)
    (F : OrderFields) (stock : List UInt8) (buySell : UInt8)
    (message reply : List UInt8) : Prop where
  token : R.replyField status .token reply =
    field message F.token ouchTokenLen
  shares : R.replyField status .shares reply = field message F.shares 4
  price : R.replyField status .price reply = field message F.price 4
  stock : R.replyField status .stock reply = stock
  side : R.replyField status .buySellIndicator reply = [buySell]
  timeInForce : ofBigEndian (R.replyField status .timeInForce reply) = 0 ↔
    ofBigEndian (field message F.timeInForce 4) = 0

/-- The response has the values of the message. -/
structure MEClientResponse.Answers (x : MEClientResponse) (F : OrderFields)
    (message : List UInt8) : Prop where
  token : x.orderToken = tokenAt message F.token
  shares : x.qty = ofBigEndian (field message F.shares 4)
  price : x.price = ofBigEndian (field message F.price 4)
  type : x.type = orderTypeOf (ofBigEndian (field message F.timeInForce 4))

theorem MEClientResponse.Answers.carries
    {x : MEClientResponse} {F : OrderFields} {message : List UInt8}
    (h : x.Answers F message) (hinside : F.Inside message.length)
    (hstatus : x.status = .accepted ∨ x.status = .modified)
    (R : OuchReplies) (now : Nat) :
    R.Carries x.status F (toBigEndian 8 x.tickerId) x.side.indicator message
      (R.encodeOuch x now) := by
  obtain ⟨htoken, hshares, hprice⟩ := hinside
  have hvalues : R.values x now =
      [(.type, [R.typeByte x.status]), (.timestamp, toBigEndian 8 now),
        (.token, x.orderToken.toList), (.buySellIndicator, [x.side.indicator]),
        (.shares, toBigEndian 4 x.qty), (.stock, toBigEndian 8 x.tickerId),
        (.price, toBigEndian 4 x.price),
        (.timeInForce, toBigEndian 4
          (if x.type = .fillAndKill then 0 else 99998)),
        (.orderReferenceNumber, toBigEndian 8 x.marketOrderId)] := by
    unfold OuchReplies.values
    rcases hstatus with hstatus | hstatus <;> rw [hstatus] <;>
      cases x.side <;> rfl
  have hfield : ∀ f v, (f, v) ∈ R.values x now →
      R.replyField x.status f (R.encodeOuch x now) = v :=
    fun f v => OuchReplies.replyField_encodeOuch
  rw [hvalues] at hfield
  refine ⟨?_, ?_, ?_, ?_, ?_, ?_⟩
  · rw [hfield .token x.orderToken.toList (by simp), h.token,
      tokenAt_toList htoken]
  · rw [hfield .shares (toBigEndian 4 x.qty) (by simp), h.shares,
      toBigEndian_field hshares]
  · rw [hfield .price (toBigEndian 4 x.price) (by simp), h.price,
      toBigEndian_field hprice]
  · exact hfield .stock (toBigEndian 8 x.tickerId) (by simp)
  · exact hfield .buySellIndicator [x.side.indicator] (by simp)
  · rw [hfield .timeInForce (toBigEndian 4
        (if x.type = .fillAndKill then 0 else 99998)) (by simp),
      ofBigEndian_timeInForce, h.type, orderTypeOf_eq]

section Requests

variable {L : OuchLayout} (K : L.PackedFields) (R : OuchReplies)
  {message : List UInt8} {r : MEClientRequest}

/-- **The `OrderAccepted` message carries the values of its ENTER_ORDER.** -/
theorem OuchLayout.Enters.carries
    (h : L.Enters message r) (hlen : message.length = L.enterOrderSize)
    (hstock : L.stock message < 2 ^ 32) (A : Ladder) (now : Nat) :
    R.Carries .accepted K.enter (field message L.enterStock 8)
      (if field message L.enterBuySell 1 = [66] then 66 else 83) message
      (R.encodeOuch (acceptedResponse (A.newArgs r)) now) := by
  have hanswers : (acceptedResponse (A.newArgs r)).Answers K.enter message :=
    ⟨h.orderToken, h.qty.trans (K.enterShares message), h.price, h.type⟩
  have hcarries := hanswers.carries (hlen ▸ K.enter_inside) (.inl rfl) R now
  have hstocks : toBigEndian 8 (acceptedResponse (A.newArgs r)).tickerId =
      field message L.enterStock 8 := by
    rw [← toBigEndian_field (hlen ▸ K.stock_inside)]
    exact congrArg _ (h.tickerId.trans (Nat.mod_eq_of_lt hstock))
  have hside : (acceptedResponse (A.newArgs r)).side.indicator =
      if field message L.enterBuySell 1 = [66] then 66 else 83 := by
    rw [← sideOf_indicator, ← h.side]
    rfl
  rwa [hstocks, hside] at hcarries

/-- **The `OrderReplaced` message carries the values of its REPLACE_ORDER**, and
the stock and side of the order that is replaced. -/
theorem OuchLayout.Replaces.carries
    (h : L.Replaces message r) (hlen : message.length = L.replaceOrderSize)
    {old : OrderInfo} (hticker : old.tickerId = r.tickerId) (A : Ladder)
    (now : Nat) :
    R.Carries .modified K.replace (toBigEndian 8 old.tickerId)
      old.side.indicator message
      (R.encodeOuch (modifiedResponse (A.replacementArgs r old.side)) now) := by
  have hanswers : (modifiedResponse (A.replacementArgs r old.side)).Answers
      K.replace message :=
    ⟨h.orderToken, h.qty.trans (K.replaceShares message), h.price, h.type⟩
  rw [hticker]
  exact hanswers.carries (hlen ▸ K.replace_inside) (.inr rfl) R now

end Requests

end NanoExchange
