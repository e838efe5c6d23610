import NanoExchange.Gateway.Desk
import NanoExchange.Gateway.OuchEncode
import NanoExchange.Gateway.Routing

/-!
# Addressing orders by their tokens

What the invariant of a desk says about the orders in the books of the engine:
which tokens the responses carry, that a token reaches the order that rests
under it, and what a rejected replacement does to the tokens in use.
-/

namespace NanoExchange

open Lib

namespace Desk

section Reading

variable {P : Type}

/-- The order `o` rests in book `k`. -/
def Resting (d : Desk P) (k : TickerId) (o : OrderInfo) : Prop :=
  ∃ b s p, d.engine.tickerOrderBook[k]? = some b ∧ b.Rests s p o

/-- The queue of a price in book `k`. -/
def FifoAt (d : Desk P) (k : TickerId) (s : Side) (p : Price)
    (os : List OrderInfo) : Prop :=
  ∃ b, d.engine.tickerOrderBook[k]? = some b ∧ b.Fifo s p os

/-- The token of an order resolves to it. -/
def Resolves (d : Desk P) (o : OrderInfo) : Prop :=
  d.tokens.getID o.clientId o.orderToken = o.clientOrderId

/-- Every order that rests and can be addressed by its token does so still. -/
def KeepsAddressable (d d' : Desk P) : Prop :=
  ∀ k o, d.Resting k o → d.Resolves o → d'.Resting k o ∧ d'.Resolves o

theorem KeepsAddressable.trans
    {d₁ d₂ d₃ : Desk P} (h : KeepsAddressable d₁ d₂)
    (h' : KeepsAddressable d₂ d₃) : KeepsAddressable d₁ d₃ := by
  intro k o ho hresolves
  obtain ⟨ho, hresolves⟩ := h k o ho hresolves
  exact h' k o ho hresolves

/-- No order that rests and can be addressed has the given client and
token. -/
def TokenFree (d : Desk P) (c : ClientId) (t : OrderToken) : Prop :=
  ∀ k o, d.Resting k o → d.Resolves o → ¬ (o.clientId = c ∧ o.orderToken = t)

end Reading

namespace Tied

variable {P : Type} [ObjectPool P] {n : Nat} {d : Desk P}

theorem wf (h : Tied n d) (t : TickerId) : (d.market.ladder t).WF :=
  Market.run_wf (h.fresh.sublist
    ((List.sublist_append_left _ _).filterMap _)) t

theorem book
    (h : Tied n d) {k : TickerId} (hk : k < n) :
    ∃ b, d.engine.tickerOrderBook[k]? = some b ∧
      Rep b (d.market.ladder k) := by
  have hlt : k < d.engine.tickerOrderBook.length := h.engine.books.symm ▸ hk
  exact ⟨_, List.getElem?_eq_getElem hlt,
    h.engine.book _ _ (List.getElem?_eq_getElem hlt)⟩

/-- What rests in a book is an order of its ladder. -/
theorem resting_iff
    (h : Tied n d) {k : TickerId} {o : OrderInfo} :
    d.Resting k o ↔ k < n ∧ o ∈ (d.market.ladder k).orders := by
  constructor
  · rintro ⟨b, s, p, hb, hrests⟩
    have hrep := h.engine.book k b hb
    refine ⟨?_, Ladder.mem_orders_of_side (hrep.mem_of_rests hrests).1⟩
    rw [← h.engine.books]
    exact (List.getElem?_eq_some_iff.mp hb).1
  · rintro ⟨hk, ho⟩
    obtain ⟨b, hb, hrep⟩ := h.book hk
    obtain ⟨s, hs⟩ := Ladder.mem_orders.mp ho
    exact ⟨b, s, o.price, hb, hrep.rests hs⟩

/-- The queues of a book are those of its ladder. -/
theorem fifoAt_iff
    (h : Tied n d) {k : TickerId} {s : Side} {p : Price}
    {os : List OrderInfo} :
    d.FifoAt k s p os ↔ k < n ∧
      os = queueAt OrderInfo.price ((d.market.ladder k).side s) p := by
  constructor
  · rintro ⟨b, hb, hfifo⟩
    have hlt := (List.getElem?_eq_some_iff.mp hb).1
    refine ⟨h.engine.books ▸ hlt, ?_⟩
    exact OrderBook.Fifo.unique hfifo ((h.engine.book k b hb).fifo s trivial)
  · rintro ⟨hk, rfl⟩
    obtain ⟨b, hb, hrep⟩ := h.book hk
    exact ⟨b, hb, hrep.fifo s trivial⟩

/-- The slot of a resting order. -/
theorem slot
    (h : Tied n d) {k : TickerId} {o : OrderInfo} (ho : d.Resting k o) :
    d.tokens.Holds o.clientOrderId ⟨o.orderToken, k, o.clientId⟩ :=
  h.orders k o (h.resting_iff.mp ho).2

end Tied

end Desk

/-- **The token that a response carries is the one that the reverse lookup
gives**, and it is the token field of the encoded message: for any clients and
messages, and requests taken in any order. -/
theorem responses_carry_registered_tokens
    (L : OuchLayout) (R : OuchReplies) (P : Type) [ObjectPool P]
    (books poolSize tokenPoolSz : Nat) {actions : List DeskAction}
    (hrange : ∀ a ∈ actions, a.InRange L books) :
    SucceedsWith (Desk.run L P books poolSize tokenPoolSz actions) fun d =>
      d.engine.channel.responses = d.answers.flatMap Prod.snd ∧
      ∀ r responses, (r, responses) ∈ d.answers → ∀ x ∈ responses,
        (if x.status = .cancelRejected ∧ r.action = .modify then
          d.tokens.getToken r.newClientOrderId = some x.orderToken
        else d.tokens.getToken x.clientOrderId = some x.orderToken) ∧
        ∀ now, R.tokenField x.status (R.encodeOuch x now) =
            x.orderToken.toList ∧
          0 < (R.encodeOuch x now).length := by
  refine (Desk.run_inv L P books poolSize tokenPoolSz hrange).imp ?_
  intro d hd
  refine ⟨hd.answered, fun r responses hr x hx => ⟨hd.carried _ hr x hx, ?_⟩⟩
  exact fun now =>
    ⟨R.tokenField_encodeOuch x now, (R.length_encodeOuch x now).2⟩

/-- A REPLACE_ORDER at price 100; the tokens repeat one byte. -/
def replaceOrderMessage (existing replacement : UInt8) (shares : Nat) :
    List UInt8 :=
  85 :: List.replicate 14 existing ++ List.replicate 14 replacement ++
    toBigEndian 4 shares ++ toBigEndian 4 100 ++ toBigEndian 4 99998 ++
    List.replicate 6 32

/-- Two clients use the same token; one replaces its order, and then fails to
replace it once more. -/
theorem responses_carry_registered_tokens_example :
    (Desk.run OuchLayout.packed ScanPool 1 4 8
        [.decode 7 (enterOrderMessage 0), .decode 8 (enterOrderMessage 0),
          .process 1, .decode 7 (replaceOrderMessage 65 66 3), .process 0,
          .process 0, .decode 7 (replaceOrderMessage 65 66 3),
          .process 0]).isOk = true ∧
      SucceedsWith (Desk.run OuchLayout.packed ScanPool 1 4 8
        [.decode 7 (enterOrderMessage 0), .decode 8 (enterOrderMessage 0),
          .process 1, .decode 7 (replaceOrderMessage 65 66 3), .process 0,
          .process 0, .decode 7 (replaceOrderMessage 65 66 3),
          .process 0]) fun d =>
        d.engine.channel.responses = d.answers.flatMap Prod.snd ∧
        ∀ r responses, (r, responses) ∈ d.answers → ∀ x ∈ responses,
          (if x.status = .cancelRejected ∧ r.action = .modify then
            d.tokens.getToken r.newClientOrderId = some x.orderToken
          else d.tokens.getToken x.clientOrderId = some x.orderToken) ∧
          ∀ now, OuchReplies.packed.tokenField x.status
              (OuchReplies.packed.encodeOuch x now) = x.orderToken.toList ∧
            0 < (OuchReplies.packed.encodeOuch x now).length :=
  ⟨by decide, responses_carry_registered_tokens OuchLayout.packed
    OuchReplies.packed ScanPool 1 4 8 (by decide)⟩

/-- The token that a message gives to a new order or to a replacement. -/
def DeskAction.usedToken (L : OuchLayout) :
    DeskAction → Option (ClientId × OrderToken)
  | .decode c message =>
      if message.head? = some L.enterOrder then
        some (c, tokenAt message L.enterToken)
      else if message.head? = some L.replaceOrder then
        some (c, tokenAt message L.replaceReplacementToken)
      else none
  | .process _ => none

/-- Every slot is the one that its own client and token resolve to. -/
def OrderTokenManager.EachResolves (m : OrderTokenManager) : Prop :=
  ∀ id info, m.Holds id info → m.getID info.clientId info.token = id

/-- Registering a token that resolves to nothing takes no other token away. -/
theorem OrderTokenManager.EachResolves.registerNewToken
    {m : OrderTokenManager} (h : m.EachResolves) (hm : m.Sound)
    (hroom : m.HasRoom) {c : ClientId} {t : OrderToken}
    (hunused : m.getID c t = 0) (k : TickerId) :
    (m.registerNewToken c t k).2.EachResolves := by
  intro id info hholds
  obtain ⟨hpos, hlt, rfl⟩ := hholds
  rw [(registerNewToken_fst hroom c t k).2.1] at hlt
  rw [getID_registerNewToken hm hroom, slot_registerNewToken hroom]
  by_cases hid : id = m.nextInternalId
  · rw [if_pos hid, if_pos ⟨rfl, rfl⟩, hid]
  · have hold := h id _ ⟨hpos, lt_of_le_of_ne (Nat.lt_succ_iff.mp hlt) hid,
      rfl⟩
    rw [if_neg hid, if_neg, hold]
    rintro ⟨hclient, htoken⟩
    rw [hclient, htoken, hunused] at hold
    exact Nat.ne_of_gt hpos hold.symm

/-- Decoding registers the token of the message, or nothing. -/
theorem OuchLayout.decodeOuch_tokens
    (L : OuchLayout) (data : List UInt8) (c : ClientId)
    {m : OrderTokenManager} (h : m.Sound) :
    (L.decodeOuch data c m).2 = m ∨
    ∃ t k, m.HasRoom ∧
      (DeskAction.decode c data).usedToken L = some (c, t) ∧
      (L.decodeOuch data c m).2 = (m.registerNewToken c t k).2 := by
  rcases L.decodeOuch_cases data c h with
    heq | ⟨r, hhead, heq, hroom, -, -, -, htoken, -⟩ |
      ⟨r, -, heq, -⟩ | ⟨r, hhead, heq, hroom, -, -, -, -, -, htoken, -⟩
  · exact .inl (by rw [heq])
  · refine .inr ⟨r.orderToken, r.tickerId, hroom, ?_, by rw [heq]⟩
    rw [DeskAction.usedToken, if_pos hhead, htoken]
  · exact .inl (by rw [heq])
  · refine .inr ⟨r.orderToken, r.tickerId, hroom, ?_, by rw [heq]⟩
    have hreplace : data.head? ≠ some L.enterOrder := by
      rw [hhead]
      exact fun e => L.types_distinct.2.1 (Option.some.inj e).symm
    rw [DeskAction.usedToken, if_neg hreplace, if_pos hhead, htoken]

namespace Desk

section Names

variable {P : Type} [ObjectPool P] {L : OuchLayout} {n : Nat} {d d' : Desk P}

/-- The invariant of a run in which no client uses a token twice: every token
resolves to the slot that it was registered for, and the tokens of the messages
to come resolve to nothing. -/
structure Named (L : OuchLayout) (n : Nat) (d : Desk P)
    (l : List DeskAction) : Prop where
  inv : Inv n d
  resolves : d.tokens.EachResolves
  range : ∀ a ∈ l, a.InRange L n
  distinct : (l.filterMap (DeskAction.usedToken L)).Nodup
  unused : ∀ u ∈ l.filterMap (DeskAction.usedToken L),
    d.tokens.getID u.1 u.2 = 0

theorem Named.decode
    {c : ClientId} {message : List UInt8} {l : List DeskAction}
    (h : Named L n d (.decode c message :: l)) :
    SucceedsWith (d.step L (.decode c message)) fun d' => Named L n d' l := by
  obtain ⟨d', hd', hinv⟩ := h.inv.decode (h.range _ List.mem_cons_self)
  have htokens : d'.tokens = (L.decodeOuch message c d.tokens).2 := by
    rw [← Except.ok.inj hd']
  have hrange := fun a ha => h.range a (List.mem_cons_of_mem _ ha)
  rcases L.decodeOuch_tokens message c h.inv.tokens with
    heq | ⟨t, k, hroom, hused, heq⟩
  · have hsub := (List.sublist_cons_self (.decode c message) l).filterMap
      (DeskAction.usedToken L)
    rw [heq] at htokens
    exact .inr ⟨d', hd', hinv, htokens ▸ h.resolves, hrange,
      h.distinct.sublist hsub,
      fun u hu => htokens ▸ h.unused u (hsub.subset hu)⟩
  · have hdistinct := h.distinct
    have hunused := h.unused
    rw [List.filterMap_cons_some hused] at hdistinct hunused
    obtain ⟨hnew, hdistinct⟩ := List.nodup_cons.mp hdistinct
    rw [heq] at htokens
    have hresolves := h.resolves.registerNewToken h.inv.tokens hroom
      (hunused _ List.mem_cons_self) k
    refine .inr ⟨d', hd', hinv, htokens ▸ hresolves, hrange, hdistinct,
      fun u hu => ?_⟩
    rw [htokens,
      OrderTokenManager.getID_registerNewToken h.inv.tokens hroom, if_neg]
    · exact hunused u (List.mem_cons_of_mem _ hu)
    · rintro ⟨hc, ht⟩
      exact hnew (by rw [← hc, ← ht]; exact hu)

theorem Named.process
    {k : Nat} {l : List DeskAction} (h : Named L n d (.process k :: l)) :
    SucceedsWith (d.step L (.process k)) fun d' => Named L n d' l := by
  have hrest : ∀ d' : Desk P, Inv n d' → d'.tokens = d.tokens →
      Named L n d' l := by
    intro d' hinv htokens
    exact ⟨hinv, htokens ▸ h.resolves,
      fun a ha => h.range a (List.mem_cons_of_mem _ ha), h.distinct,
      htokens ▸ h.unused⟩
  cases hk : d.inFlight[k]? with
  | none => exact .inr ⟨d, by simp only [Desk.step, hk], hrest d h.inv rfl⟩
  | some r =>
      exact (h.inv.take hk).imp fun d' hd' => hrest d' hd'.1 hd'.2.1

theorem run_named
    (L : OuchLayout) (P : Type) [ObjectPool P]
    (books poolSize tokenPoolSz : Nat) {actions : List DeskAction}
    (hrange : ∀ a ∈ actions, a.InRange L books)
    (hdistinct : (actions.filterMap (DeskAction.usedToken L)).Nodup) :
    SucceedsWith (run L P books poolSize tokenPoolSz actions)
      fun d => Named L books d [] := by
  refine SucceedsWith.foldlM (Named L books) ?_
    ⟨Inv.init books poolSize tokenPoolSz, ?_, hrange, hdistinct,
      fun _ _ => rfl⟩
  · rintro d (⟨c, message⟩ | k) l hd
    · exact hd.decode
    · exact hd.process
  · intro id info hholds
    have hlt : id < 1 := hholds.given
    have hpos := hholds.positive
    lia

/-- The engine takes a cancel without an object of its pool. -/
theorem Inv.take_cancel
    (h : Inv n d) {k : Nat} {r : MEClientRequest}
    (hk : d.inFlight[k]? = some r) (haction : r.action = .cancel) :
    ∃ d', d.step L (.process k) = .ok d' ∧ Inv n d' ∧
      d'.market = d.market.next r ∧
      d'.inFlight = d.inFlight.eraseIdx k := by
  obtain ⟨b, hb, hrep⟩ := h.book (h.inRange (List.mem_of_getElem? hk))
  obtain ⟨b', hb', -⟩ :=
    MapBook.cancelOrder_succeeds d.engine.channel hrep haction
  have hne : d.step L (.process k) ≠ .error .poolExhausted := by
    have hbook : b.processRequest d.engine.channel r =
        MapBook.cancelOrder b d.engine.channel r.tickerId r.clientId
          r.clientOrderId r.qty r.orderToken := by
      simp only [OrderBook.processRequest, haction]
      rfl
    simp only [Desk.step, hk, MatchingEngine.processClientRequest, hb, hbook,
      hb', ok_bind]
    intro hfault
    cases hfault
  obtain ⟨d', hd', hinv, -, hmarket, hflight, -⟩ :=
    (h.take (L := L) hk).of_ne hne
  exact ⟨d', hd', hinv, hmarket, hflight⟩

/-- A cancel by the token of an order is decoded and taken: the order is out of
its ladder. -/
theorem Inv.cancel_ladder
    (h : Inv n d) (hidle : d.inFlight = []) {k : TickerId} {o : OrderInfo}
    (ho : d.Resting k o) (hresolves : d.Resolves o) {message : List UInt8}
    (hhead : message.head? = some L.cancelOrder)
    (htoken : tokenAt message L.cancelToken = o.orderToken)
    (hshares : L.cancelShares message = 0) :
    ∃ d', [.decode o.clientId message, .process 0].foldlM (Desk.step L) d =
        .ok d' ∧ Inv n d' ∧ d'.inFlight = [] ∧
      d'.market.ladder = Function.update d.market.ladder k
        ((d.market.ladder k).erase o.key) := by
  have hslot := h.slot ho
  obtain ⟨-, hmem⟩ := h.resting_iff.mp ho
  have hgetID : d.tokens.getID o.clientId (tokenAt message L.cancelToken) =
      o.clientOrderId := by
    rw [htoken]
    exact hresolves
  obtain ⟨r, hr, haction, hclient, hid, hticker, hqty⟩ :=
    L.decodeOuch_cancel message o.clientId hhead (m := d.tokens)
      (hgetID ▸ Nat.ne_of_gt hslot.positive)
  rw [hgetID] at hid
  rw [hid, hslot.slot] at hticker
  have hticker : r.tickerId = k := hticker
  -- the message is decoded
  have hrange : (DeskAction.decode o.clientId message).InRange L n := by
    intro henter
    have hbyte := Option.some.inj (hhead.symm.trans henter)
    exact absurd hbyte.symm L.types_distinct.1
  obtain ⟨d₁, hd₁, hinv₁⟩ := h.decode hrange
  have hstep := Except.ok.inj hd₁
  have hflight₁ : d₁.inFlight = [r] := by
    rw [← hstep, hidle]
    simp only [hr, Option.toList_some, List.nil_append]
  have hmarket₁ : d₁.market = d.market := by
    rw [← hstep]
    rfl
  -- and the engine takes the request
  obtain ⟨d₂, hd₂, hinv₂, hmarket₂, hflight₂⟩ :=
    hinv₁.take_cancel (L := L) (k := 0) (by rw [hflight₁]; rfl) haction
  have hkey : o.key = (r.clientId, r.clientOrderId) := by
    rw [hclient, hid]
    rfl
  refine ⟨d₂, ?_, hinv₂, by rw [hflight₂, hflight₁]; rfl, ?_⟩
  · rw [List.foldlM_cons, hd₁, ok_bind, List.foldlM_cons, hd₂, ok_bind,
      List.foldlM_nil]
    rfl
  · rw [hmarket₂, hmarket₁, Market.next, Market.respond, hticker,
      Ladder.step_cancel_all (h.wf k) _ hmem haction hkey (hqty.trans hshares)]

/-- What rests when an order has been taken out of its ladder. -/
theorem Tied.erased
    (h : Tied n d) (h' : Tied n d') {k : TickerId} {o : OrderInfo}
    (ho : d.Resting k o)
    (hladder : d'.market.ladder = Function.update d.market.ladder k
      ((d.market.ladder k).erase o.key)) :
    (∀ k' o', d'.Resting k' o' ↔
      d.Resting k' o' ∧ ¬ (k' = k ∧ o' = o)) ∧
    ∀ k' s p os, d.FifoAt k' s p os →
      d'.FifoAt k' s p (if k' = k then os.filter (· ≠ o) else os) := by
  obtain ⟨-, hmem⟩ := h.resting_iff.mp ho
  have hother : ∀ o' ∈ (d.market.ladder k).orders, o'.key ≠ o.key ↔ o' ≠ o :=
    fun o' ho' => not_congr
      ⟨(h.wf k).key_unique ho' hmem, fun heq => by rw [heq]⟩
  constructor
  · intro k' o'
    rw [h'.resting_iff, h.resting_iff, hladder]
    by_cases hk' : k' = k
    · subst hk'
      rw [Function.update_self, Ladder.mem_erase_orders]
      constructor
      · rintro ⟨hlt, ho', hne⟩
        exact ⟨⟨hlt, ho'⟩, fun heq => (hother o' ho').mp hne heq.2⟩
      · rintro ⟨⟨hlt, ho'⟩, hne⟩
        exact ⟨hlt, ho', (hother o' ho').mpr fun heq => hne ⟨rfl, heq⟩⟩
    · rw [Function.update_of_ne hk']
      exact ⟨fun hrest => ⟨hrest, fun heq => hk' heq.1⟩, And.left⟩
  · intro k' s p os hos
    obtain ⟨hlt, rfl⟩ := h.fifoAt_iff.mp hos
    refine h'.fifoAt_iff.mpr ⟨hlt, ?_⟩
    rw [hladder]
    by_cases hk' : k' = k
    · subst hk'
      rw [if_pos rfl, Function.update_self, Ladder.erase, queueAt, queueAt,
        List.filter_comm]
      refine congrArg _ (List.filter_congr fun o' ho' => ?_)
      have ho' := Ladder.mem_orders_of_side ho'
      exact decide_eq_decide.mpr (hother o' ho').symm
    · rw [if_neg hk', Function.update_of_ne hk']

/-- **Canceling an order by its token takes out that order and no other**: all
queues keep their orders and the order of these. -/
theorem Inv.cancel_resting
    (h : Inv n d) (hidle : d.inFlight = []) {k : TickerId} {o : OrderInfo}
    (ho : d.Resting k o) (hresolves : d.Resolves o) {message : List UInt8}
    (hhead : message.head? = some L.cancelOrder)
    (htoken : tokenAt message L.cancelToken = o.orderToken)
    (hshares : L.cancelShares message = 0) :
    ∃ d', [.decode o.clientId message, .process 0].foldlM (Desk.step L) d =
        .ok d' ∧
      d'.inFlight = [] ∧
      (∀ k' o', d'.Resting k' o' ↔
        d.Resting k' o' ∧ ¬ (k' = k ∧ o' = o)) ∧
      ∀ k' s p os, d.FifoAt k' s p os →
        d'.FifoAt k' s p (if k' = k then os.filter (· ≠ o) else os) := by
  obtain ⟨d', hd', hinv, hflight, hladder⟩ :=
    h.cancel_ladder hidle ho hresolves hhead htoken hshares
  exact ⟨d', hd', hflight, h.toTied.erased hinv.toTied ho hladder⟩

end Names

end Desk

/-- **Every resting order can be reached by its token**: in every run in which
no client gives one token to two orders, for any interleaving of decoding and
processing. -/
theorem resting_orders_reached_by_token
    (L : OuchLayout) (P : Type) [ObjectPool P]
    (books poolSize tokenPoolSz : Nat) {actions : List DeskAction}
    (hrange : ∀ a ∈ actions, a.InRange L books)
    (hdistinct : (actions.filterMap (DeskAction.usedToken L)).Nodup) :
    SucceedsWith (Desk.run L P books poolSize tokenPoolSz actions) fun d =>
      (∀ k o, d.Resting k o →
        d.tokens.getID o.clientId o.orderToken = o.clientOrderId ∧
        d.tokens.slot o.clientOrderId = ⟨o.orderToken, k, o.clientId⟩) ∧
      (d.inFlight = [] → ∀ k o, d.Resting k o →
        ∀ message, message.head? = some L.cancelOrder →
          tokenAt message L.cancelToken = o.orderToken →
          L.cancelShares message = 0 →
        ∃ d', [.decode o.clientId message, .process 0].foldlM
            (Desk.step L) d = .ok d' ∧
          d'.inFlight = [] ∧
          (∀ k' o', d'.Resting k' o' ↔
            d.Resting k' o' ∧ ¬ (k' = k ∧ o' = o)) ∧
          ∀ k' s p os, d.FifoAt k' s p os →
            d'.FifoAt k' s p
              (if k' = k then os.filter (· ≠ o) else os)) := by
  refine (Desk.run_named L P books poolSize tokenPoolSz hrange hdistinct).imp
    fun d hd => ?_
  have hresolves : ∀ k o, d.Resting k o → d.Resolves o := fun k o ho =>
    hd.resolves _ _ (hd.inv.slot ho)
  refine ⟨fun k o ho => ⟨hresolves k o ho, (hd.inv.slot ho).slot⟩, ?_⟩
  intro hidle k o ho message hhead htoken hshares
  exact hd.inv.cancel_resting hidle ho (hresolves k o ho) hhead htoken hshares

/-- Two clients use the same token, and one replaces its order. -/
theorem resting_orders_reached_by_token_example :
    (Desk.run OuchLayout.packed ScanPool 1 4 8
        [.decode 7 (enterOrderMessage 0), .decode 8 (enterOrderMessage 0),
          .process 0, .decode 7 (replaceOrderMessage 65 66 3), .process 0,
          .process 0]).isOk = true ∧
      SucceedsWith (Desk.run OuchLayout.packed ScanPool 1 4 8
        [.decode 7 (enterOrderMessage 0), .decode 8 (enterOrderMessage 0),
          .process 0, .decode 7 (replaceOrderMessage 65 66 3), .process 0,
          .process 0]) fun d =>
        (∀ k o, d.Resting k o →
          d.tokens.getID o.clientId o.orderToken = o.clientOrderId ∧
          d.tokens.slot o.clientOrderId = ⟨o.orderToken, k, o.clientId⟩) ∧
        (d.inFlight = [] → ∀ k o, d.Resting k o →
          ∀ message, message.head? = some OuchLayout.packed.cancelOrder →
            tokenAt message OuchLayout.packed.cancelToken = o.orderToken →
            OuchLayout.packed.cancelShares message = 0 →
          ∃ d', [.decode o.clientId message, .process 0].foldlM
              (Desk.step OuchLayout.packed) d = .ok d' ∧
            d'.inFlight = [] ∧
            (∀ k' o', d'.Resting k' o' ↔
              d.Resting k' o' ∧ ¬ (k' = k ∧ o' = o)) ∧
            ∀ k' s p os, d.FifoAt k' s p os →
              d'.FifoAt k' s p
                (if k' = k then os.filter (· ≠ o) else os)) :=
  ⟨by decide, resting_orders_reached_by_token OuchLayout.packed ScanPool 1 4 8
    (by decide) (by decide)⟩

namespace Desk

section Rejections

variable {P : Type} [ObjectPool P] {L : OuchLayout} {n : Nat} {d d' : Desk P}

/-- The replacement of an order that is rejected leaves the books as they
are. -/
theorem Inv.take_rejected
    (h : Inv n d) {k : Nat} {r : MEClientRequest}
    (hk : d.inFlight[k]? = some r) (haction : r.action = .modify)
    (hstep : d.step L (.process k) = .ok d') {responses : List MEClientResponse}
    (hanswer : d'.answers = d.answers ++ [(r, responses)])
    {x : MEClientResponse} (hx : x ∈ responses)
    (hstatus : x.status = .cancelRejected) :
    KeepsAddressable d d' := by
  obtain ⟨hinv, htokens, hmarket, -, hanswers⟩ :=
    (h.take (L := L) hk).of_ok hstep
  obtain rfl : responses = (d.market.respond r).events.flatMap
      (Event.responses Dialect.map) := by
    have hlast := List.append_cancel_left (hanswer.symm.trans hanswers)
    exact (Prod.ext_iff.mp (List.cons.inj hlast).1).2
  obtain ⟨e, he, hx⟩ := List.mem_flatMap.mp hx
  have hladder : (d.market.respond r).ladder =
      d.market.ladder r.tickerId :=
    Ladder.step_rejected he haction
      ((Event.rejects_of_cancelRejected hx).mp hstatus)
  intro t o ho hresolves
  refine ⟨?_, by rw [Resolves, htokens]; exact hresolves⟩
  rw [hinv.resting_iff, hmarket, Market.next, hladder,
    Function.update_eq_self]
  exact h.resting_iff.mp ho

/-- The replacement token is registered when the message is decoded.  The order
that it addressed until then cannot be addressed from then on. -/
theorem Inv.decode_replace
    (h : Inv n d) {c : ClientId} {message : List UInt8}
    (hhead : message.head? = some L.replaceOrder) {r : MEClientRequest}
    (hr : (L.decodeOuch message c d.tokens).1 = some r)
    (hstep : d.step L (.decode c message) = .ok d') :
    Inv n d' ∧ r.action = .modify ∧
      (∀ k o, d'.Resting k o ↔ d.Resting k o) ∧
      ((∀ k o, d.Resting k o → d.Resolves o → d'.Resolves o) ↔
        d.TokenFree c (tokenAt message L.replaceReplacementToken)) := by
  have hrange : (DeskAction.decode c message).InRange L n := by
    intro henter
    have hbyte := Option.some.inj (hhead.symm.trans henter)
    exact absurd hbyte.symm L.types_distinct.2.1
  obtain ⟨d₁, hd₁, hinv⟩ := h.decode hrange
  obtain rfl := Except.ok.inj (hd₁.symm.trans hstep)
  have htokens : d₁.tokens = (L.decodeOuch message c d.tokens).2 := by
    rw [← Except.ok.inj hd₁]
  have hengine : d₁.engine = d.engine := by
    rw [← Except.ok.inj hd₁]
  obtain ⟨hroom, haction, htoken, heq⟩ :
      d.tokens.HasRoom ∧ r.action = .modify ∧
        r.orderToken = tokenAt message L.replaceReplacementToken ∧
        (L.decodeOuch message c d.tokens).2 =
          (d.tokens.registerNewToken c r.orderToken r.tickerId).2 := by
    rcases L.decodeOuch_cases message c h.tokens with
      heq | ⟨r', hhead', -⟩ | ⟨r', hhead', -⟩ |
        ⟨r', -, heq, hroom, haction, -, -, -, -, htoken, -⟩
    · rw [heq] at hr
      cases hr
    · have hbyte := Option.some.inj (hhead.symm.trans hhead')
      exact absurd hbyte.symm L.types_distinct.2.1
    · have hbyte := Option.some.inj (hhead.symm.trans hhead')
      exact absurd hbyte.symm L.types_distinct.2.2
    · rw [heq] at hr
      obtain rfl := Option.some.inj hr
      exact ⟨hroom, haction, htoken, by rw [heq]⟩
  rw [heq] at htokens
  have hresolves : ∀ o, d₁.Resolves o ↔
      (if o.clientId = c ∧ o.orderToken = r.orderToken then
        d.tokens.nextInternalId
      else d.tokens.getID o.clientId o.orderToken) = o.clientOrderId := by
    intro o
    rw [Resolves, htokens,
      OrderTokenManager.getID_registerNewToken h.tokens hroom]
  refine ⟨hinv, haction, fun k o => by rw [Resting, Resting, hengine], ?_⟩
  rw [← htoken]
  constructor
  · intro hkeeps k o ho hold hnamed
    have hnew := (hresolves o).mp (hkeeps k o ho hold)
    rw [if_pos hnamed] at hnew
    exact Nat.ne_of_gt (h.slot ho).given hnew
  · intro hfree k o ho hold
    rw [hresolves, if_neg (hfree k o ho hold)]
    exact hold

end Rejections

end Desk

/-- **A rejected replacement leaves every order addressable exactly if its
replacement token addressed none.**  The message is decoded in the state `d` and
rejected in `d₂`, after any other actions between; the first part speaks of the
two steps of the message, the second of a message that is answered at once. -/
theorem rejected_replace_keeps_addressable_iff
    (L : OuchLayout) (P : Type) [ObjectPool P]
    (books poolSize tokenPoolSz : Nat) {actions between : List DeskAction}
    (hrange : ∀ a ∈ actions ++ between, a.InRange L books)
    {d d₁ d₂ d₃ : Desk P}
    (hd : Desk.run L P books poolSize tokenPoolSz actions = .ok d)
    {c : ClientId} {message : List UInt8}
    (hhead : message.head? = some L.replaceOrder) {r : MEClientRequest}
    (hr : (L.decodeOuch message c d.tokens).1 = some r)
    (hd₁ : d.step L (.decode c message) = .ok d₁)
    (hd₂ : between.foldlM (Desk.step L) d₁ = .ok d₂)
    {k : Nat} (hk : d₂.inFlight[k]? = some r)
    (hd₃ : d₂.step L (.process k) = .ok d₃)
    {responses : List MEClientResponse}
    (hanswer : d₃.answers = d₂.answers ++ [(r, responses)])
    {x : MEClientResponse} (hx : x ∈ responses)
    (hstatus : x.status = .cancelRejected) :
    (Desk.KeepsAddressable d d₁ ∧ Desk.KeepsAddressable d₂ d₃ ↔
      d.TokenFree c (tokenAt message L.replaceReplacementToken)) ∧
    (between = [] → (Desk.KeepsAddressable d d₃ ↔
      d.TokenFree c (tokenAt message L.replaceReplacementToken))) := by
  have hinv := (Desk.run_inv L P books poolSize tokenPoolSz
    fun a ha => hrange a (List.mem_append_left _ ha)).of_ok hd
  obtain ⟨hinv₁, haction, hresting, hresolves⟩ :=
    hinv.decode_replace hhead hr hd₁
  have hinv₂ := (Desk.foldlM_inv hinv₁
    fun a ha => hrange a (List.mem_append_right _ ha)).of_ok hd₂
  have hanswered := hinv₂.take_rejected hk haction hd₃ hanswer hx hstatus
  have hdecoded : Desk.KeepsAddressable d d₁ ↔
      d.TokenFree c (tokenAt message L.replaceReplacementToken) := by
    rw [← hresolves]
    constructor
    · exact fun hkeeps k o ho hold => (hkeeps k o ho hold).2
    · exact fun hkeeps k o ho hold =>
        ⟨(hresting k o).mpr ho, hkeeps k o ho hold⟩
  refine ⟨by rw [and_iff_left hanswered, hdecoded], ?_⟩
  rintro rfl
  obtain rfl : d₁ = d₂ := Except.ok.inj hd₂
  have htokens := ((hinv₁.take (L := L) hk).of_ok hd₃).2.1
  rw [← hdecoded]
  constructor
  · intro hkeeps t o ho hold
    refine ⟨(hresting t o).mpr ho, ?_⟩
    have hnew := (hkeeps t o ho hold).2
    rwa [Desk.Resolves, htokens] at hnew
  · exact fun hkeeps => hkeeps.trans hanswered

def tokenOfAs : OrderToken :=
  Vector.replicate ouchTokenLen 65

/-- Client 7 has an order in the book, under the token of letters A. -/
def orderOfClientSeven : List DeskAction :=
  [.decode 7 (enterOrderMessage 0), .process 0]

/-- The client asks to replace the order, under the same token, by one without
shares. -/
theorem replace_by_nothing :
    ∃ (d d₁ d₃ : Desk ScanPool) (r : MEClientRequest)
      (responses : List MEClientResponse) (x : MEClientResponse)
      (o : OrderInfo),
      Desk.run OuchLayout.packed ScanPool 1 4 4 orderOfClientSeven = .ok d ∧
      (OuchLayout.packed.decodeOuch (replaceOrderMessage 65 65 0) 7
        d.tokens).1 = some r ∧
      d.step OuchLayout.packed (.decode 7 (replaceOrderMessage 65 65 0)) =
        .ok d₁ ∧
      d₁.inFlight[0]? = some r ∧
      d₁.step OuchLayout.packed (.process 0) = .ok d₃ ∧
      d₃.answers = d₁.answers ++ [(r, responses)] ∧
      x ∈ responses ∧ x.status = .cancelRejected ∧
      d.Resting 0 o ∧ d.Resolves o ∧ ¬ d₃.Resolves o := by
  have hbefore : ((Desk.run OuchLayout.packed ScanPool 1 4 4
      orderOfClientSeven).toOption.map fun d =>
        (d.inFlight.length, (OuchLayout.packed.decodeOuch
          (replaceOrderMessage 65 65 0) 7 d.tokens).1.isSome,
          d.tokens.getID 7 tokenOfAs)) =
      some (0, true, 1) := by
    decide
  have hresting : ((Desk.run OuchLayout.packed ScanPool 1 4 4
      orderOfClientSeven).toOption.map fun d =>
        (d.market.ladder 0).orders.map OrderInfo.identity) =
      some [(7, 1, tokenOfAs)] := by
    decide
  have hafter : ((Desk.run OuchLayout.packed ScanPool 1 4 4
      (orderOfClientSeven ++
        [.decode 7 (replaceOrderMessage 65 65 0), .process 0])).toOption.map
          fun d => ((d.answers.map Prod.snd).map
            (List.map MEClientResponse.status),
            d.tokens.getID 7 tokenOfAs)) =
      some ([[.accepted], [.cancelRejected]], 2) := by
    decide
  obtain ⟨d₃, hrun, hafter⟩ := exists_of_toOption_map hafter
  obtain ⟨d, hd, hd₃⟩ := foldlM_append_ok hrun
  obtain ⟨d', hd', hbefore⟩ := exists_of_toOption_map hbefore
  obtain rfl : d = d' := Except.ok.inj (hd.symm.trans hd')
  obtain ⟨d', hd', hresting⟩ := exists_of_toOption_map hresting
  obtain rfl : d = d' := Except.ok.inj (hd.symm.trans hd')
  simp only [Prod.mk.injEq] at hbefore hafter
  obtain ⟨hidle, hsome, hid⟩ := hbefore
  obtain ⟨hanswers, hid₃⟩ := hafter
  obtain ⟨r, hr⟩ := Option.isSome_iff_exists.mp hsome
  have hrange : ∀ a ∈ orderOfClientSeven, a.InRange OuchLayout.packed 1 := by
    decide
  have hinv : Desk.Inv 1 d :=
    (Desk.run_inv OuchLayout.packed ScanPool 1 4 4 hrange).of_ok hd
  have hreplace : (DeskAction.decode 7 (replaceOrderMessage 65 65 0)).InRange
      OuchLayout.packed 1 := by
    decide
  obtain ⟨d₁, hd₁, hinv₁⟩ := hinv.decode hreplace
  rw [List.foldlM_cons, hd₁, ok_bind, List.foldlM_cons] at hd₃
  have hflight : d₁.inFlight[0]? = some r := by
    rw [← Except.ok.inj hd₁, List.length_eq_zero_iff.mp hidle, hr]
    rfl
  have htaken := hinv₁.take (L := OuchLayout.packed) hflight
  rcases htaken with hfull | ⟨d₃', hd₃', -, -, -, -, hanswers₃⟩
  · rw [hfull] at hd₃
    cases hd₃
  rw [hd₃', ok_bind] at hd₃
  obtain rfl : d₃' = d₃ := Except.ok.inj hd₃
  -- its last answer is the rejection
  have hrejected := congrArg List.getLast? hanswers
  rw [hanswers₃, List.map_append, List.map_append,
    List.getLast?_append] at hrejected
  obtain ⟨x, xs, hx, hstatus, -⟩ := List.map_eq_cons_iff.mp
    (Option.some.inj hrejected)
  -- the order that rests is the one of client 7
  obtain ⟨o, os, ho, hident, -⟩ := List.map_eq_cons_iff.mp hresting
  simp only [OrderInfo.identity, Prod.mk.injEq] at hident
  obtain ⟨hclient, hoid, htoken⟩ := hident
  refine ⟨d, d₁, d₃', r, _, x, o, hd, hr, hd₁, hflight, hd₃', hanswers₃, ?_,
    hstatus, hinv.resting_iff.mpr ⟨Nat.one_pos, ?_⟩, ?_, ?_⟩
  · have hx : (d₁.market.respond r).events.flatMap
        (Event.responses Dialect.map) = x :: xs := hx
    rw [hx]
    exact List.mem_cons_self
  · rw [ho]
    exact List.mem_cons_self
  · rw [Desk.Resolves, hclient, htoken, hid, hoid]
  · rw [Desk.Resolves, hclient, htoken, hid₃, hoid]
    decide

/-- The rejected replacement is answered at once. -/
theorem rejected_replace_keeps_addressable_iff_example :
    ∃ d d₁ d₃ : Desk ScanPool,
      Desk.run OuchLayout.packed ScanPool 1 4 4 orderOfClientSeven = .ok d ∧
      [.decode 7 (replaceOrderMessage 65 65 0), .process 0].foldlM
        (Desk.step OuchLayout.packed) d = .ok d₃ ∧
      (Desk.KeepsAddressable d d₁ ∧ Desk.KeepsAddressable d₁ d₃ ↔
        d.TokenFree 7 (tokenAt (replaceOrderMessage 65 65 0)
          OuchLayout.packed.replaceReplacementToken)) ∧
      (([] : List DeskAction) = [] → (Desk.KeepsAddressable d d₃ ↔
        d.TokenFree 7 (tokenAt (replaceOrderMessage 65 65 0)
          OuchLayout.packed.replaceReplacementToken))) := by
  obtain ⟨d, d₁, d₃, r, responses, x, o, hd, hr, hd₁, hk, hd₃, hanswer, hx,
    hstatus, -⟩ := replace_by_nothing
  have hrange : ∀ a ∈ orderOfClientSeven ++ [],
      a.InRange OuchLayout.packed 1 := by
    decide
  refine ⟨d, d₁, d₃, hd, ?_, rejected_replace_keeps_addressable_iff
    OuchLayout.packed ScanPool 1 4 4 hrange hd rfl hr hd₁ rfl hk hd₃ hanswer
    hx hstatus⟩
  rw [List.foldlM_cons, hd₁, ok_bind, List.foldlM_cons, hd₃]
  rfl

/-- After the rejection the order rests, and its token does not resolve to
it. -/
theorem rejected_replace_hides_order :
    ∃ (d d₁ d₃ : Desk ScanPool) (r : MEClientRequest)
      (responses : List MEClientResponse) (x : MEClientResponse),
      Desk.run OuchLayout.packed ScanPool 1 4 4 orderOfClientSeven = .ok d ∧
      (OuchLayout.packed.decodeOuch (replaceOrderMessage 65 65 0) 7
        d.tokens).1 = some r ∧
      d.step OuchLayout.packed (.decode 7 (replaceOrderMessage 65 65 0)) =
        .ok d₁ ∧
      d₁.inFlight[0]? = some r ∧
      d₁.step OuchLayout.packed (.process 0) = .ok d₃ ∧
      d₃.answers = d₁.answers ++ [(r, responses)] ∧
      x ∈ responses ∧ x.status = .cancelRejected ∧
      ¬ Desk.KeepsAddressable d d₃ := by
  obtain ⟨d, d₁, d₃, r, responses, x, o, hd, hr, hd₁, hk, hd₃, hanswer, hx,
    hstatus, ho, hold, hnew⟩ := replace_by_nothing
  refine ⟨d, d₁, d₃, r, responses, x, hd, hr, hd₁, hk, hd₃, hanswer, hx,
    hstatus, fun hkeeps => ?_⟩
  exact hnew (hkeeps 0 o ho hold).2

end NanoExchange
