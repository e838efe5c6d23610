import NanoExchange.Network.Listing
import NanoExchange.Network.Replay

/-!
# What the feed lists, told from the streams

An observer who reads the updates and the responses of the engine knows where
the feed is not in step with the books.  An order has been delisted if a CANCEL
or a MODIFY has named it.  The surplus of a replacement is what its owner has
been told to be executed, less what the feed has been told to be traded.

`feed_lists_orders` says what the shadow books list in every run; there is no
condition that cancels are whole or that replacements do not trade.
-/

namespace NanoExchange

open Lib

/-- The shares of order `m` of ticker `t` that its owner knows to be
executed. -/
def executedShares (rs : List MEClientResponse) (t : TickerId) (m : OrderId) :
    Quantity :=
  ((rs.filter fun r =>
      r.tickerId = t ∧ r.marketOrderId = m ∧ r.status = .executed).map
    MEClientResponse.executedQty).sum

/-- The shares of order `m` of ticker `t` that the feed has as traded. -/
def tradedShares (us : List MEMarketUpdate) (t : TickerId) (m : OrderId) :
    Quantity :=
  ((us.filter fun u =>
      u.tickerId = t ∧ u.marketOrderId = m ∧ u.type = .trade).map
    MEMarketUpdate.qty).sum

/-- The MODIFY that has brought in order `m` of ticker `t`. -/
def replacing? (us : List MEMarketUpdate) (t : TickerId) (m : OrderId) :
    Option MEMarketUpdate :=
  us.find? fun u => u.tickerId = t ∧ u.type = .modify ∧ u.newOrderId = m

namespace Channel

/-- A CANCEL or a MODIFY has named order `m` of ticker `t`. -/
def Delists (ch : Channel) (t : TickerId) (m : OrderId) : Prop :=
  ∃ u ∈ ch.updates, u.tickerId = t ∧ u.marketOrderId = m ∧
    (u.type = .cancel ∨ u.type = .modify)

instance (ch : Channel) (t : TickerId) (m : OrderId) :
    Decidable (ch.Delists t m) :=
  inferInstanceAs (Decidable (∃ u ∈ ch.updates, _))

/-- The shares of a replacement that have been executed without a TRADE. -/
def surplus (ch : Channel) (t : TickerId) (m : OrderId) : Option Quote :=
  (replacing? ch.updates t m).bind fun u =>
    let shares := executedShares ch.responses t m - tradedShares ch.updates t m
    if shares = 0 then none else some ⟨u.side, u.price, shares⟩

end Channel

section Streams

variable {t : TickerId} {m : OrderId}

theorem executedShares_append (rs rs' : List MEClientResponse) :
    executedShares (rs ++ rs') t m =
      executedShares rs t m + executedShares rs' t m := by
  rw [executedShares, List.filter_append, List.map_append, List.sum_append]
  rfl

theorem tradedShares_append (us us' : List MEMarketUpdate) :
    tradedShares (us ++ us') t m =
      tradedShares us t m + tradedShares us' t m := by
  rw [tradedShares, List.filter_append, List.map_append, List.sum_append]
  rfl

theorem replacing?_append (us us' : List MEMarketUpdate) :
    replacing? (us ++ us') t m =
      (replacing? us t m).or (replacing? us' t m) :=
  List.find?_append

end Streams

namespace Event

variable {t : TickerId} {m : OrderId}

/-- Only a CANCEL or a MODIFY delists. -/
theorem delists_eq_some_iff (e : Event) :
    e.tickerId = t ∧ e.delists = some m ↔
      ∃ u ∈ e.updates Dialect.map, u.tickerId = t ∧ u.marketOrderId = m ∧
        (u.type = .cancel ∨ u.type = .modify) := by
  cases e with
  | accepted | excessive | unknown =>
      simp [delists, updates, outputs]
  | modified =>
      simp [delists, updates, outputs, modifyUpdate, tickerId]
  | filled => simp [delists, updates, outputs, tradeUpdate]
  | rested replacing =>
      cases replacing <;> simp [delists, updates, outputs, addUpdate]
  | killed replacing =>
      cases replacing <;>
        simp [delists, updates, outputs, cancelUpdate, tickerId, Dialect.map]
  | canceled =>
      simp [delists, updates, outputs, cancelUpdate, tickerId]

/-- The owner of an incoming order is told of its executions, and the feed is
not. -/
theorem executedShares_eq (e : Event) :
    executedShares (e.responses Dialect.map) t m =
      tradedShares (e.updates Dialect.map) t m +
        if e.tickerId = t then e.taken m else 0 := by
  cases hfill : e.fillId with
  | none =>
      have hexecuted : (e.responses Dialect.map).filter (fun r =>
          r.tickerId = t ∧ r.marketOrderId = m ∧ r.status = .executed) = [] :=
        List.filter_eq_nil_iff.mpr fun r hr h =>
          (responses_of_fillId_none hfill _ r hr).1 (of_decide_eq_true h).2.2
      have htraded : (e.updates Dialect.map).filter (fun u =>
          u.tickerId = t ∧ u.marketOrderId = m ∧ u.type = .trade) = [] :=
        List.filter_eq_nil_iff.mpr fun u hu h =>
          (updates_of_fillId_none hfill _ u hu).1 (of_decide_eq_true h).2.2
      have htaken : e.taken m = 0 := by
        cases e with
        | filled => cases hfill
        | _ => rfl
      rw [executedShares, tradedShares, hexecuted, htraded, htaken, ite_self]
      rfl
  | some k =>
      cases e with
      | filled a o fill remaining matchId =>
          have hresponses : (filled a o fill remaining matchId).responses
              Dialect.map =
                [restingResponse a.tickerId o fill o.price matchId,
                  aggressiveResponse a fill o.price remaining matchId] := rfl
          have hupdates : (filled a o fill remaining matchId).updates
              Dialect.map = [tradeUpdate a.tickerId o fill matchId] := rfl
          rw [hresponses, hupdates]
          by_cases ht : a.tickerId = t
          · by_cases hm : o.marketOrderId = m <;>
              by_cases hm' : a.marketOrderId = m <;>
                simp [executedShares, tradedShares, restingResponse,
                  aggressiveResponse, tradeUpdate, tickerId, taken, ht, hm,
                  hm']
          · simp [executedShares, tradedShares, restingResponse,
              aggressiveResponse, tradeUpdate, tickerId, ht]
      | _ => cases hfill

/-- A MODIFY tells the side and the price of a replacement. -/
theorem replacing?_eq (e : Event) :
    (replacing? (e.updates Dialect.map) t m).map
        (fun u => (u.side, u.price)) =
      if e.tickerId = t then (e.bringsIn m).map fun a => (a.side, a.price)
      else none := by
  cases e with
  | accepted | excessive | unknown =>
      simp [replacing?, updates, outputs, bringsIn]
  | modified a old =>
      by_cases ht : a.tickerId = t <;> by_cases hm : a.marketOrderId = m <;>
        simp [replacing?, updates, outputs, bringsIn, modifyUpdate, tickerId,
          ht, hm]
  | filled => simp [replacing?, updates, outputs, bringsIn, tradeUpdate]
  | rested replacing =>
      cases replacing <;>
        simp [replacing?, updates, outputs, bringsIn, addUpdate]
  | killed replacing =>
      cases replacing <;>
        simp [replacing?, updates, outputs, bringsIn, cancelUpdate,
          Dialect.map]
  | canceled => simp [replacing?, updates, outputs, bringsIn, cancelUpdate]

end Event

section Events

variable {t : TickerId} {m : OrderId}

theorem executedShares_flatMap (es : List Event) :
    executedShares (es.flatMap (Event.responses Dialect.map)) t m =
      tradedShares (es.flatMap (Event.updates Dialect.map)) t m +
        takenShares (es.filter fun e => e.tickerId = t) m := by
  induction es with
  | nil => rfl
  | cons e es ih =>
      rw [List.flatMap_cons, List.flatMap_cons, executedShares_append,
        tradedShares_append, ih, e.executedShares_eq]
      by_cases he : e.tickerId = t
      · have htaken : takenShares ((e :: es).filter
            fun e => e.tickerId = t) m =
              e.taken m + takenShares (es.filter fun e => e.tickerId = t) m :=
          by rw [List.filter_cons_of_pos (by simpa using he)]; rfl
        rw [htaken, if_pos he]
        lia
      · rw [List.filter_cons_of_neg (by simpa using he), if_neg he]
        lia

theorem replacing?_flatMap (es : List Event) :
    (replacing? (es.flatMap (Event.updates Dialect.map)) t m).map
        (fun u => (u.side, u.price)) =
      ((es.filter fun e => e.tickerId = t).findSome?
        (Event.bringsIn m)).map fun a => (a.side, a.price) := by
  induction es with
  | nil => rfl
  | cons e es ih =>
      rw [List.flatMap_cons, replacing?_append, Option.map_or, ih,
        e.replacing?_eq]
      by_cases he : e.tickerId = t
      · rw [List.filter_cons_of_pos (by simpa using he), if_pos he,
          List.findSome?_cons]
        cases e.bringsIn m <;> rfl
      · rw [List.filter_cons_of_neg (by simpa using he), if_neg he,
          Option.none_or]

end Events

namespace Market

variable {t : TickerId} {m : OrderId}

theorem sent_delists (M : Market) :
    (M.sent Dialect.map).Delists t m ↔ m ∈ delisted (M.history t) := by
  unfold Channel.Delists
  rw [sent_updates, delisted, List.mem_filterMap]
  constructor
  · rintro ⟨u, hu, h⟩
    obtain ⟨e, he, hu⟩ := List.mem_flatMap.mp hu
    obtain ⟨ht, hm⟩ := e.delists_eq_some_iff.mpr ⟨u, hu, h⟩
    exact ⟨e, List.mem_filter.mpr ⟨he, decide_eq_true ht⟩, hm⟩
  · rintro ⟨e, he, hm⟩
    obtain ⟨he, ht⟩ := List.mem_filter.mp he
    obtain ⟨u, hu, h⟩ :=
      e.delists_eq_some_iff.mp ⟨of_decide_eq_true ht, hm⟩
    exact ⟨u, List.mem_flatMap.mpr ⟨e, he, hu⟩, h⟩

theorem sent_surplus (M : Market) :
    (M.sent Dialect.map).surplus t m = NanoExchange.surplus (M.history t) m := by
  have hshares : executedShares (M.sent Dialect.map).responses t m -
      tradedShares (M.sent Dialect.map).updates t m =
        takenShares (M.history t) m := by
    rw [sent_responses, sent_updates, executedShares_flatMap]
    exact Nat.add_sub_cancel_left _ _
  have hreplacing := replacing?_flatMap (t := t) (m := m) M.events
  rw [← sent_updates] at hreplacing
  unfold Channel.surplus NanoExchange.surplus
  dsimp only
  rw [hshares]
  revert hreplacing
  show _ = Option.map _ ((M.history t).findSome? _) → _
  cases replacing? (M.sent Dialect.map).updates t m with
  | none =>
      intro hreplacing
      rw [Option.map_eq_none_iff.mp hreplacing.symm]
      rfl
  | some u =>
      intro hreplacing
      obtain ⟨a, ha, heq⟩ := Option.map_eq_some_iff.mp hreplacing.symm
      obtain ⟨hside, hprice⟩ := Prod.mk.inj heq
      rw [ha, Option.bind_some, Option.bind_some, hside, hprice]

/-- The shadow books after a run of the market. -/
theorem run_shown
    {n : Nat} {rs : List MEClientRequest} (hfresh : FreshKeys rs)
    (hlen : rs.length < 2 ^ 63) (htickers : TickersInRange n rs) :
    ∃ b, ((run rs).sent Dialect.map).updates.foldlM ShadowBook.applyToBook
        (ShadowBook.init n) = .ok b ∧
      ∀ t, t < n → ∃ orders, b.shadowBook[t]? = some orders ∧
        ShadowBook.view orders =
          listed ((run rs).history t) ((run rs).ladder t).orders := by
  have hlength : (ShadowBook.init n).shadowBook.length = n :=
    List.length_replicate
  have hrange : ∀ u ∈ ((run rs).sent Dialect.map).updates,
      u.tickerId < (ShadowBook.init n).shadowBook.length := by
    intro u hu
    rw [hlength]
    exact (run_engineUpdate htickers _ u hu).ticker
  obtain ⟨b, hb, hblength, hview⟩ :=
    ShadowBook.viewAt_foldlM_applyToBook hrange
  refine ⟨b, hb, fun t ht => ?_⟩
  obtain ⟨orders, horders⟩ : ∃ orders, b.shadowBook[t]? = some orders :=
    ⟨_, List.getElem?_eq_getElem ((hblength.trans hlength).symm ▸ ht)⟩
  refine ⟨orders, horders, ?_⟩
  rw [← ShadowBook.viewAt_of_getElem? horders, hview,
    ShadowBook.viewAt_init]
  exact (run_listed hfresh hlen t).2.2

end Market

/-- An entry is that of the book if nothing has been delisted and nothing is
added. -/
theorem overlay_eq_iff
    {D : List OrderId} {S g : Quotes} {m : OrderId}
    (hS : ∀ y, S m = some y → 0 < y.qty) :
    overlay D S g m = g m ↔
      (∀ x, g m = some x → m ∉ D) ∧ (m ∉ D → S m = none) := by
  unfold overlay
  by_cases hD : m ∈ D
  · rw [if_pos hD]
    constructor
    · intro h
      exact ⟨fun x hx => (nomatch h.trans hx), fun hnot => (hnot hD).elim⟩
    · rintro ⟨h, -⟩
      exact (Option.eq_none_iff_forall_ne_some.mpr fun x hx => h x hx hD).symm
  · rw [if_neg hD]
    constructor
    · intro h
      refine ⟨fun _ _ => hD, fun _ => ?_⟩
      refine Option.eq_none_iff_forall_ne_some.mpr fun y hy => ?_
      have hpos := hS y hy
      rw [hy] at h
      cases hx : g m with
      | none =>
          rw [hx] at h
          cases h
      | some x =>
          rw [hx] at h
          have hqty : x.qty + y.qty = x.qty :=
            congrArg Quote.qty (Option.some.inj h)
          lia
    · rintro ⟨-, h⟩
      rw [h hD, Quote.join_none]

/-- **What the shadow books list, in every run.**  An order that a CANCEL or a
MODIFY has named is not listed, whether it rests or not.  The others are listed
as they rest, and a replacement with its surplus besides.  So a shadow book
quotes exactly the resting orders if and only if none of them has been delisted
and every surplus has. -/
theorem feed_lists_orders
    (P : Type) [ObjectPool P] (n poolSize : Nat) {rs : List MEClientRequest}
    (hfresh : FreshKeys rs) (hlen : rs.length < 2 ^ 63)
    (htickers : TickersInRange n rs) :
    SucceedsWith (MatchingEngine.run MapLevels P n poolSize rs) fun e =>
      ∃ b, e.channel.updates.foldlM ShadowBook.applyToBook
          (ShadowBook.init n) = .ok b ∧
        ∀ t, t < n → ∃ orders book, b.shadowBook[t]? = some orders ∧
          e.tickerOrderBook[t]? = some book ∧
          (∀ m, ∃ v, (∀ x, v = some x ↔ book.Quotes m x) ∧
            ShadowBook.view orders m =
              if e.channel.Delists t m then none
              else Quote.join v (e.channel.surplus t m)) ∧
          (b.Agrees t book ↔
            (∀ m x, book.Quotes m x → ¬ e.channel.Delists t m) ∧
              ∀ m, ¬ e.channel.Delists t m →
                e.channel.surplus t m = none) := by
  have hrun : SucceedsWith (MatchingEngine.run MapLevels P n poolSize rs)
      fun e => MatchingEngine.Represents n e (Market.run rs) :=
    MatchingEngine.run_refines P n poolSize hfresh htickers
      fun _ _ _ => trivial
  refine hrun.imp fun e hrep => ?_
  obtain ⟨b, hb, hall⟩ := Market.run_shown hfresh hlen htickers
  refine ⟨b, by rw [hrep.sent]; exact hb, fun t ht => ?_⟩
  obtain ⟨orders, horders, hshown⟩ := hall t ht
  obtain ⟨book, hbook⟩ : ∃ book, e.tickerOrderBook[t]? = some book :=
    ⟨_, List.getElem?_eq_getElem (hrep.books.symm ▸ ht)⟩
  obtain ⟨hids, htraced, -⟩ := Market.run_listed hfresh hlen t
  have hbookRep := hrep.book t book hbook
  have hquotes : ∀ m x, quotes ((Market.run rs).ladder t).orders m = some x ↔
      book.Quotes m x := fun _ _ => hbookRep.quotes_iff hids.nodup
  have hdelists : ∀ m, e.channel.Delists t m ↔
      m ∈ delisted ((Market.run rs).history t) := fun m => by
    rw [hrep.sent]
    exact Market.sent_delists _
  have hsurplus : ∀ m, e.channel.surplus t m =
      surplus ((Market.run rs).history t) m := fun m => by
    rw [hrep.sent]
    exact Market.sent_surplus _
  refine ⟨orders, book, horders, hbook, fun m => ?_, ?_⟩
  · refine ⟨_, hquotes m, ?_⟩
    rw [hshown, hsurplus]
    simp only [hdelists]
    rfl
  · have hagrees : b.Agrees t book ↔ ShadowBook.view orders =
        quotes ((Market.run rs).ladder t).orders := by
      rw [hbookRep.agrees_iff hids.nodup, horders]
      simp
    rw [hagrees, hshown, funext_iff]
    simp only [listed, overlay_eq_iff (htraced.fits.positive _),
      hdelists, hsurplus, ← hquotes]
    exact forall_and

/-- An ask that is canceled in part, and a bid that is replaced and then trades
with what is left of it. -/
def driftingOrders : List MEClientRequest :=
  quotedOrders ++ [cancelOfAsk, replaceOfBid .goodTillCancel 7]

/-- The ask is delisted, and the replacement, of which three shares have traded
and four rest, has a surplus. -/
example :
    (MatchingEngine.run MapLevels ScanPool 1 4 driftingOrders).toOption.map
        (fun e => (decide (e.channel.Delists 0 1), e.channel.surplus 0 3)) =
      some (true, some ⟨.buy, 100, 3⟩) := by
  decide

theorem feed_lists_orders_example :
    (MatchingEngine.run MapLevels ScanPool 1 4 driftingOrders).isOk = true ∧
      SucceedsWith (MatchingEngine.run MapLevels ScanPool 1 4 driftingOrders)
        fun e => ∃ b, e.channel.updates.foldlM ShadowBook.applyToBook
            (ShadowBook.init 1) = .ok b ∧
          ∀ t, t < 1 → ∃ orders book, b.shadowBook[t]? = some orders ∧
            e.tickerOrderBook[t]? = some book ∧
            (∀ m, ∃ v, (∀ x, v = some x ↔ book.Quotes m x) ∧
              ShadowBook.view orders m =
                if e.channel.Delists t m then none
                else Quote.join v (e.channel.surplus t m)) ∧
            (b.Agrees t book ↔
              (∀ m x, book.Quotes m x → ¬ e.channel.Delists t m) ∧
                ∀ m, ¬ e.channel.Delists t m →
                  e.channel.surplus t m = none) :=
  ⟨by decide, feed_lists_orders ScanPool 1 4 (by decide) (by decide)
    (by decide)⟩

end NanoExchange
