import NanoExchange.Gateway.Sent
import NanoExchange.Network.Freshness

/-!
# Wire values

What a client has sent comes back to it, and goes out to the public, as it was:
the 32-bit prices and the 64-bit stock of the wire pass through the 64-bit
prices and 32-bit tickers of the engine without loss, as long as the stock of
every ENTER_ORDER is one of the engine's books.
-/

namespace NanoExchange

open Lib

/-- The price field of an `AddOrder` or an `OrderReplace`. -/
def ItchTypes.priceField (T : ItchTypes) (message : List UInt8) :
    List UInt8 :=
  if message.head? = some T.addOrder then field message 32 4
  else field message 31 4

namespace Exchange

variable {P : Type} [ObjectPool P] {n : Nat} {L : OuchLayout}
  {R : OuchReplies} {env : Surroundings} {e e' : Exchange P}

/-- **What a reply shows**: `y` is one of the replies `ys` to the request `x`,
and `reply` is its message. -/
structure Echoes (K : L.PackedFields) (R : OuchReplies) (e : Exchange P)
    (x : RecvClientRequest) (ys : List MEClientResponse)
    (y : MEClientResponse) (reply : List UInt8) : Prop where
  /-- An `OrderAccepted` carries the values of its ENTER_ORDER. -/
  accepted : y.status = .accepted →
    x.message.head? = some L.enterOrder ∧
      R.Carries .accepted K.enter (field x.message L.enterStock 8)
        (if field x.message L.enterBuySell 1 = [66] then 66 else 83)
        x.message reply
  /-- An `OrderReplaced` carries the values of its REPLACE_ORDER, and the stock
  and side of the order that it replaces. -/
  modified : y.status = .modified →
    x.message.head? = some L.replaceOrder ∧
      ∃ old, e.desk.Resting old.tickerId old ∧
        old.key = (x.request.clientId, x.request.clientOrderId) ∧
        R.Carries .modified K.replace (toBigEndian 8 old.tickerId)
          old.side.indicator x.message reply
  /-- The price of an `OrderExecuted` is the one that the resting party, who is
  told under the same match id, has sent. -/
  executed : y.status = .executed →
    ∃ o y' z, e.desk.Resting x.request.tickerId o ∧
      y' ∈ ys ∧ y'.status = .executed ∧ y'.matchId = y.matchId ∧
      y'.identity = o.identity ∧
      z ∈ e.server.decoded ∧ z.request.Brings o ∧
      R.priceField .executed reply = L.sentPrice z.message

omit [ObjectPool P] in
/-- The requests that the engine has taken have prices of 32 bits. -/
theorem Recorded.price_lt
    (h : Recorded L e) {r : MEClientRequest} (hr : r ∈ e.desk.processed) :
    r.price < 2 ^ 32 := by
  obtain ⟨p, hp, rfl⟩ := List.mem_map.mp hr
  obtain ⟨x, hx, hrequest⟩ := h.answered p hp
  rw [← hrequest]
  exact (h.decoded x hx).price_lt

/-- A resting order has been brought by a request of its own. -/
theorem Inv.brought
    (h : Inv n e) (hrec : Recorded L e) {t : TickerId} {o : OrderInfo}
    (ho : o ∈ (e.desk.market.ladder t).orders) :
    o.tickerId = t ∧
      ∃ z ∈ e.server.decoded, z.request.Brings o ∧ o.price < 2 ^ 32 := by
  obtain ⟨r, hr, hbrings, rfl⟩ := Market.run_brings h.freshKeys ho
  refine ⟨hbrings.tickerId, ?_⟩
  have hlt := hrec.price_lt hr
  obtain ⟨p, hp, rfl⟩ := List.mem_map.mp hr
  obtain ⟨z, hz, hrequest⟩ := hrec.answered p hp
  refine ⟨z, hz, ?_, ?_⟩
  · rw [hrequest]
    exact hbrings
  · rw [hbrings.price]
    exact hlt

/-- **The replies to one request.** -/
theorem Inv.echoes
    (h : Inv n e) (hrec : Recorded L e) (K : L.PackedFields)
    {x : RecvClientRequest} (hx : x ∈ e.server.decoded)
    (hticker : x.request.tickerId < n)
    (hstock : x.request.action = .new → L.stock x.message < 2 ^ 32)
    {ys : List MEClientResponse}
    (hys : ys = (e.desk.market.respond x.request).events.flatMap
      (Event.responses Dialect.map))
    {y : MEClientResponse} (hy : y ∈ ys) (now : Nat) :
    e.Echoes K R x ys y (R.encodeOuch y now) := by
  have hsent := hrec.decoded x hx
  have htied : Desk.Tied n e.desk := h.works.tied
  rw [hys] at hy
  obtain ⟨event, hevent, hmem⟩ := List.mem_flatMap.mp hy
  have hfollows := Ladder.step_follows _ x.request hevent
  obtain ⟨haccepted, hmodified, hexecuted⟩ := Event.of_mem_responses hmem
  refine ⟨fun hstatus => ?_, fun hstatus => ?_, fun hstatus => ?_⟩
  · obtain ⟨a, rfl, rfl⟩ := haccepted hstatus
    obtain ⟨hnew, rfl⟩ := hfollows
    obtain ⟨henters, hlen⟩ := hsent.enters hnew
    exact ⟨henters.head, henters.carries K R hlen (hstock hnew) _ now⟩
  · obtain ⟨a, old, rfl, rfl⟩ := hmodified hstatus
    obtain ⟨hmodify, hfind, rfl⟩ := hfollows
    obtain ⟨hreplaces, hlen⟩ := hsent.replaces hmodify
    obtain ⟨hold, hkey⟩ := Ladder.mem_of_find? hfind
    obtain ⟨hat, -⟩ := h.brought hrec hold
    refine ⟨hreplaces.head, old, ?_, hkey,
      hreplaces.carries K R hlen hat _ now⟩
    rw [hat]
    exact htied.resting_iff.mpr ⟨hticker, hold⟩
  · obtain ⟨a, o, fill, remaining, matchId, rfl, hkind⟩ := hexecuted hstatus
    obtain ⟨o', ho', hterms⟩ := hfollows
    obtain ⟨-, z, hz, hbrings, hlt⟩ := h.brought hrec ho'
    have hprice : o.price = o'.price := OrderInfo.price_of_terms hterms
    have hshown : y.shownPrice = some o'.price := by
      rw [← hprice]
      rcases hkind with rfl | rfl <;> rfl
    have hmatch : y.matchId = matchId := by
      rcases hkind with rfl | rfl <;> rfl
    refine ⟨o', restingResponse a.tickerId o fill o.price matchId, z,
      htied.resting_iff.mpr ⟨hticker, ho'⟩, ?_, rfl, hmatch.symm,
      OrderInfo.identity_of_terms hterms, hz, hbrings, ?_⟩
    · rw [hys]
      exact List.mem_flatMap.mpr ⟨_, hevent, List.mem_cons_self⟩
    · rw [← (hrec.decoded z hz).sentPrice K hbrings, ← hstatus]
      exact (R.priceField_encodeOuch now hshown hlt).1

end Exchange

/-- A buy order is met by a sell order and then replaced. -/
def replacedBuyer : List ExchangeInput :=
  [.recv 7 (enterOrderMessage 0) 1, .recv 8 (sellOrderMessage 66) 2, .publish,
    .process, .process, .drain fun _ => 3,
    .recv 7 (replaceOrderMessage 65 67 3) 4, .publish]

end NanoExchange
