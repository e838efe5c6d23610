import NanoExchange.Network.Session
import NanoExchange.Network.WireValues

/-!
# From clients to subscribers

What the engine sends is what the feed relies on: the fields of its updates fit
into the messages (`Market.run_onWire`), and a MODIFY names an order that the
shadow book holds (`Market.run_modifiesKnown`).  And what the gateway hands to
the engine is what the engine relies on: ids that no client has used before,
and values of 32 bits.  So the parts of the development can be put together:
`subscriber_sees_exchange` is about the bytes of the clients at one end and the
quotes of a subscriber, on a lossy network, at the other.

The condition on the requests is that of the shadow book: an accepted cancel
takes all that is left of its order, and an accepted replacement does not
cross.
-/

namespace NanoExchange

open Lib

/-- Price, quantity and id fit into the ITCH structs. -/
structure OrderInfo.Narrow (o : OrderInfo) : Prop where
  price : o.price < 2 ^ 32
  qty : o.remainingQuantity < 2 ^ 32
  marketOrderId : o.marketOrderId < wordSize

theorem OrderInfo.Narrow.withRemaining
    {o : OrderInfo} (h : o.Narrow) {x : Quantity}
    (hx : x ≤ o.remainingQuantity) :
    (o.withRemaining x).Narrow where
  price := h.price
  qty := Nat.lt_of_le_of_lt hx h.qty
  marketOrderId := h.marketOrderId

/-- The arguments fit, and the ticker too. -/
structure OrderArgs.Narrow (a : OrderArgs) : Prop where
  tickerId : a.tickerId < 2 ^ 16
  price : a.price < 2 ^ 32
  qty : a.initialQuantity < 2 ^ 32
  marketOrderId : a.marketOrderId < wordSize

theorem orderIdInvalid_lt : orderIdInvalid < wordSize := by
  decide

section Sweep

variable {R : Price → Prop} [DecidablePred R] {a : OrderArgs}

/-- Match ids are numbers of 64 bits. -/
theorem sweep_matchIds_lt
    {n : OrderId} (hn : n < wordSize) (q : Quantity) (l : List OrderInfo) :
    (sweep R a n q l).matchIds < wordSize := by
  have hnext : (n + 1) % wordSize < wordSize := Nat.mod_lt _ (by decide)
  induction l generalizing n q with
  | nil => exact hn
  | cons o l ih =>
      by_cases hq : q = 0
      · subst hq
        rw [sweep_zero]
        exact hn
      by_cases ho : R o.price
      · by_cases hle : o.remainingQuantity ≤ q
        · rw [sweep_full hq ho hle]
          exact ih hnext _ (Nat.mod_lt _ (by decide))
        · rw [sweep_part hq ho hle]
          exact hnext
      · rw [sweep_stop n q l ho]
        exact hn

/-- The TRADE updates of a sweep fit. -/
theorem sweep_onWire
    {n : OrderId} (hn : n < wordSize) {q : Quantity} {l : List OrderInfo}
    (ha : a.tickerId < 2 ^ 16) (hq : q < 2 ^ 32)
    (hl : ∀ o ∈ l, o.Narrow) :
    ∀ u ∈ Ladder.published (sweep R a n q l).fills, OnWire u := by
  have htrade : ∀ (m : OrderId) (o : OrderInfo) (fill : Quantity),
      m < wordSize → o.Narrow → fill < 2 ^ 32 →
        OnWire (tradeUpdate a.tickerId o fill m) := by
    intro m o fill hm ho hfill
    exact ⟨trivial, ha, ho.price, hfill, ho.marketOrderId,
      orderIdInvalid_lt, hm⟩
  induction l generalizing n q with
  | nil => simp [sweep, Ladder.published]
  | cons o l ih =>
      obtain ⟨ho, hrest⟩ := List.forall_mem_cons.mp hl
      by_cases hzero : q = 0
      · subst hzero
        simp [sweep_zero, Ladder.published]
      by_cases hreach : R o.price
      · by_cases hle : o.remainingQuantity ≤ q
        · rw [sweep_full hzero hreach hle]
          intro u hu
          have hnext : (n + 1) % wordSize < wordSize :=
            Nat.mod_lt _ (by decide)
          rcases List.mem_cons.mp hu with rfl | hu
          · exact htrade n _ _ hn (ho.withRemaining (Nat.zero_le _)) ho.qty
          · have hless : q - o.remainingQuantity < 2 ^ 32 :=
              Nat.lt_of_le_of_lt (Nat.sub_le _ _) hq
            exact ih hnext hless hrest u hu
        · rw [sweep_part hzero hreach hle, Ladder.updates_filled]
          intro u hu
          obtain rfl := List.mem_singleton.mp hu
          exact htrade n _ _ hn (ho.withRemaining (Nat.sub_le _ _)) hq
      · rw [sweep_stop n q l hreach]
        simp [Ladder.published]

end Sweep

namespace Ladder

/-- What rests fits into the ITCH structs, and so do the ids to come. -/
structure Narrow (A : Ladder) : Prop where
  orders : ∀ o ∈ A.orders, o.Narrow
  next : A.nextMarketOrderId < wordSize

variable {A A' : Ladder}

theorem Narrow.empty : Ladder.empty.Narrow where
  orders o ho := by
    cases ho
  next := by
    decide

/-- Taking orders or shares away leaves what fits. -/
theorem Narrow.trims
    (h : A.Narrow) (htrims : A.Trims A')
    (hnext : A'.nextMarketOrderId < wordSize) :
    A'.Narrow where
  orders o ho := by
    obtain ⟨o', ho', x, -, hle, rfl⟩ := htrims.orders.shrinks o ho
    exact (h.orders o' ho').withRemaining hle
  next := hnext

theorem Narrow.bump (h : A.Narrow) : A.bump.Narrow where
  orders := h.orders
  next := Nat.mod_lt _ (by decide)

/-- The updates of an order that is entered, and the orders after it. -/
theorem Narrow.enter
    (h : A.Narrow) (hwf : A.WF) {n : OrderId} (hn : n < wordSize)
    (replacing : Bool) {a : OrderArgs} (ha : a.Narrow) :
    (A.enter n replacing a).ladder.Narrow ∧
      (A.enter n replacing a).matchIds < wordSize ∧
      ∀ u ∈ published (A.enter n replacing a).events, OnWire u := by
  have hside : ∀ o ∈ A.side a.side.opposite, o.Narrow :=
    fun o ho => h.orders o (mem_orders_of_side ho)
  have hids := sweep_matchIds_lt (R := a.side.crosses a.price) (a := a) hn
    a.initialQuantity (A.side a.side.opposite)
  have hfills := sweep_onWire (R := a.side.crosses a.price) hn ha.tickerId
    ha.qty hside
  have hle := sweep_remaining_le (R := a.side.crosses a.price) (a := a) n
    a.initialQuantity (A.side a.side.opposite)
  have hqty : (A.sweepBy n a).remaining < 2 ^ 32 :=
    Nat.lt_of_le_of_lt hle ha.qty
  refine ⟨⟨fun o ho => ?_, ?_⟩, ?_, ?_⟩
  · rcases mem_enter_orders.mp ho with ho | ⟨-, -, rfl⟩
    · obtain ⟨o', ho', x, -, hx, rfl⟩ :=
        (trims_swept hwf n a).orders.shrinks o ho
      exact (h.orders o' ho').withRemaining hx
    · exact ⟨ha.price, hqty, ha.marketOrderId⟩
  · rw [enter_next]
    exact h.next
  · rcases A.enter_cases n replacing a with
      ⟨-, heq⟩ | ⟨-, -, heq⟩ | ⟨-, -, heq⟩
    · rw [heq]
      exact hids
    · rw [heq]
      exact hids
    · rw [heq]
      exact hids
  · rcases A.enter_cases n replacing a with
      ⟨-, heq⟩ | ⟨-, -, heq⟩ | ⟨-, -, heq⟩
    · rw [heq]
      exact hfills
    · rw [heq, published_append]
      intro u hu
      rcases List.mem_append.mp hu with hu | hu
      · exact hfills u hu
      · cases replacing with
        | true => cases hu
        | false =>
            obtain rfl := List.mem_singleton.mp hu
            exact ⟨trivial, ha.tickerId, ha.price, hqty, ha.marketOrderId,
              orderIdInvalid_lt, orderIdInvalid_lt⟩
    · rw [heq, published_append]
      intro u hu
      rcases List.mem_append.mp hu with hu | hu
      · exact hfills u hu
      · cases replacing with
        | false => cases hu
        | true =>
            obtain rfl := List.mem_singleton.mp hu
            exact ⟨trivial, ha.tickerId, ha.price, hqty, ha.marketOrderId,
              orderIdInvalid_lt, orderIdInvalid_lt⟩

/-- **The updates of a request fit into the ITCH structs.** -/
theorem Narrow.step
    (h : A.Narrow) (hwf : A.WF) {n : OrderId} (hn : n < wordSize)
    {r : MEClientRequest} (hr : r.Narrow) (hticker : r.tickerId < 2 ^ 16) :
    (A.step n r).ladder.Narrow ∧ (A.step n r).matchIds < wordSize ∧
      ∀ u ∈ published (A.step n r).events, OnWire u := by
  rcases A.step_shapes n r with
    ⟨e, -, heq, he⟩ | ⟨o, -, hfind, hle, heq⟩ | ⟨hnew, heq⟩ |
      ⟨old, hmodify, hfind, -, heq⟩
  · rw [heq]
    refine ⟨h, hn, fun u hu => ?_⟩
    rcases he with rfl | ⟨o, -, rfl⟩
    · cases hu
    · cases hu
  · rw [heq]
    obtain ⟨ho, -⟩ := mem_of_find? hfind
    have hnext : (A.withdraw o (canceledQty r o)).nextMarketOrderId <
        wordSize := by
      unfold withdraw
      split
      · exact h.next
      · exact h.next
    refine ⟨h.trims (trims_withdraw hwf ho _) hnext, hn, fun u hu => ?_⟩
    obtain rfl := List.mem_singleton.mp hu
    have hnarrow := h.orders o ho
    exact ⟨trivial, hticker, hnarrow.price,
      Nat.lt_of_le_of_lt hle hnarrow.qty, hnarrow.marketOrderId,
      orderIdInvalid_lt, orderIdInvalid_lt⟩
  · have hqty : r.qty < 2 ^ 32 := hr.qty (by rw [hnew]; nofun)
    rw [heq]
    exact h.bump.enter ((trims_bump hwf).wf hwf) hn false
      (a := A.newArgs r) ⟨hticker, hr.price, hqty, h.next⟩
  · have hqty : r.qty < 2 ^ 32 := hr.qty (by rw [hmodify]; nofun)
    rw [heq]
    have herase : (A.erase old.key).bump.Narrow :=
      (h.trims (trims_erase hwf old.key) h.next).bump
    obtain ⟨hladder, hids, hupdates⟩ := herase.enter
      (wf_erase_bump hwf old.key) hn true
      (a := A.replacementArgs r old.side)
      ⟨hticker, hr.price, hqty, h.next⟩
    refine ⟨hladder, hids, fun u hu => ?_⟩
    have hu' := hu
    dsimp only at hu'
    rw [published_modified] at hu'
    rcases List.mem_cons.mp hu' with rfl | hmem
    · exact ⟨trivial, hticker, hr.price, hqty,
        (h.orders old (mem_of_find? hfind).1).marketOrderId, h.next,
        orderIdInvalid_lt⟩
    · exact hupdates u hmem

/-- Only a replacement sends a MODIFY, as the first of its updates; it names
an order that rests on its own side. -/
theorem step_modifies (A : Ladder) (n : OrderId) (r : MEClientRequest) :
    Along (fun pre u => u.type = .modify → pre = [] ∧
      ∃ old ∈ A.orders, u.marketOrderId = old.marketOrderId ∧
        u.side = old.side) (published (A.step n r).events) := by
  have henter : ∀ (B : Ladder) (replacing : Bool) (a : OrderArgs),
      ∀ u ∈ published (B.enter n replacing a).events, u.type ≠ .modify := by
    intro B replacing a u hu
    obtain ⟨e, he, hu⟩ := List.mem_flatMap.mp hu
    rcases mem_enter_events he with he | ⟨q, rfl⟩ | ⟨q, rfl⟩
    · obtain ⟨o, fill, remaining, matchId, rfl⟩ := mem_sweep_fills he
      obtain rfl := List.mem_singleton.mp hu
      nofun
    · cases replacing with
      | true => cases hu
      | false =>
          obtain rfl := List.mem_singleton.mp hu
          nofun
    · cases replacing with
      | false => cases hu
      | true =>
          obtain rfl := List.mem_singleton.mp hu
          nofun
  intro pre u post hsplit hmodify
  have hu : u ∈ published (A.step n r).events := by
    rw [hsplit]
    simp
  rcases A.step_shapes n r with
    ⟨e, -, heq, he⟩ | ⟨o, -, -, -, heq⟩ | ⟨-, heq⟩ | ⟨old, -, hfind, -, heq⟩
  · rw [heq] at hu
    rcases he with rfl | ⟨o, -, rfl⟩
    · cases hu
    · cases hu
  · rw [heq] at hu
    obtain rfl := List.mem_singleton.mp hu
    cases hmodify
  · rw [heq] at hu
    exact absurd hmodify (henter _ _ (A.newArgs r) u hu)
  · rw [heq] at hsplit
    dsimp only at hsplit
    rw [published_modified] at hsplit
    cases pre with
    | nil =>
        obtain ⟨rfl, -⟩ := List.cons.inj hsplit
        exact ⟨rfl, old, (mem_of_find? hfind).1, rfl, rfl⟩
    | cons v pre =>
        obtain ⟨-, hrest⟩ := List.cons.inj hsplit
        have hnone := henter (A.erase old.key).bump true
          (A.replacementArgs r old.side) u
        rw [hrest] at hnone
        exact absurd hmodify (hnone (by simp))

end Ladder

namespace Market

/-- **The updates of a run fit into the ITCH structs.** -/
theorem run_onWire
    {rs : List MEClientRequest} (hfresh : FreshKeys rs)
    (htickers : TickersInRange (2 ^ 16) rs) (hnarrow : ∀ r ∈ rs, r.Narrow) :
    ∀ u ∈ ((run rs).sent Dialect.map).updates, OnWire u := by
  have hall := run_induction
    (C := fun _ r => r.Narrow ∧ r.tickerId < 2 ^ 16)
    (fun M => (∀ t, (M.ladder t).Narrow) ∧ M.matchIds < wordSize ∧
      ∀ u ∈ (M.sent Dialect.map).updates, OnWire u) ?_ ?_ hfresh ?_
  · exact hall.2.2
  · refine ⟨fun _ => .empty, by decide, ?_⟩
    intro u hu
    rw [sent_updates] at hu
    cases hu
  · rintro M r hwf - ⟨hr, hticker⟩ ⟨hladders, hids, hupdates⟩
    obtain ⟨hladder, hids', hnew⟩ :=
      (hladders r.tickerId).step (hwf _) hids hr hticker
    refine ⟨fun t => ?_, hids', fun u hu => ?_⟩
    · by_cases ht : t = r.tickerId
      · subst ht
        rw [next_ladder_self]
        exact hladder
      · rw [next_ladder_of_ne _ ht]
        exact hladders t
    · rw [sent_updates] at hu hupdates
      rw [next, List.flatMap_append, List.mem_append] at hu
      rcases hu with hu | hu
      · exact hupdates u hu
      · exact hnew u hu
  · rintro pre r post rfl
    have hr : r ∈ pre ++ r :: post := by simp
    exact ⟨hnarrow r hr, htickers r hr⟩

/-- The updates of a run, continued by one request. -/
theorem updates_run_append (rs : List MEClientRequest) (r : MEClientRequest) :
    ((run (rs ++ [r])).sent Dialect.map).updates =
      ((run rs).sent Dialect.map).updates ++
        Ladder.published ((run rs).respond r).events := by
  rw [run_append, sent_updates, sent_updates, next, List.flatMap_append]

/-- **A MODIFY names an order that the shadow book holds.** -/
theorem run_modifiesKnown
    {n : Nat} {rs : List MEClientRequest} (hfresh : FreshKeys rs)
    (hlen : rs.length < 2 ^ 63) (htickers : TickersInRange n rs)
    (hwhole : EachStep Ladder.Whole rs) :
    ModifiesKnown (ShadowBook.init n)
      ((run rs).sent Dialect.map).updates := by
  induction rs using List.reverseRecOn with
  | nil => exact along_nil
  | append_singleton rs r ih =>
      have hfresh' : FreshKeys rs :=
        hfresh.sublist ((List.sublist_append_left rs [r]).filterMap _)
      rw [List.length_append, List.length_singleton] at hlen
      have hlen' : rs.length < 2 ^ 63 := by omega
      have htickers' : TickersInRange n rs :=
        fun r' hr' => htickers r' (List.mem_append_left _ hr')
      have hwhole' : EachStep Ladder.Whole rs := by
        rintro pre r' post rfl
        exact hwhole pre r' (post ++ [r]) (by simp)
      obtain ⟨hids, b, hb, hshows⟩ :=
        run_shadow hfresh' hlen' htickers' hwhole'
      have hr : r.tickerId < n := htickers r (by simp)
      rw [updates_run_append]
      refine Along.append (ih hfresh' hlen' htickers' hwhole') ?_
      intro pre u post hsplit hmodify
      obtain ⟨rfl, old, hold, hid, hside⟩ :=
        Ladder.step_modifies ((run rs).ladder r.tickerId) (run rs).matchIds r
          pre u post hsplit hmodify
      have hticker : u.tickerId = r.tickerId := by
        have hu : u ∈ Ladder.published ((run rs).respond r).events := by
          rw [hsplit]
          simp
        obtain ⟨e, he, hu⟩ := List.mem_flatMap.mp hu
        rw [e.updates_tickerId _ u hu]
        exact Ladder.step_events_tickerId _ _ r e he
      have ht : r.tickerId < b.shadowBook.length :=
        hshows.tickers.symm ▸ hr
      have horders := List.getElem?_eq_getElem ht
      have hquote : ShadowBook.view b.shadowBook[r.tickerId]
          u.marketOrderId = some old.quote := by
        rw [hshows.shown _ _ horders, quotes_eq_some (hids _).nodup, hid]
        exact ⟨old, hold, rfl, rfl⟩
      obtain ⟨x, hx, hxq⟩ := Option.map_eq_some_iff.mp hquote
      refine ⟨b, _, x, ?_, ?_, hx, ?_⟩
      · rw [List.append_nil]
        exact hb
      · rw [hticker]
        exact horders
      · rw [hside]
        exact congrArg Quote.side hxq

/-- What has been sent is not changed by later requests. -/
theorem updates_prefix (pre post : List MEClientRequest) :
    ((run pre).sent Dialect.map).updates <+:
      ((run (pre ++ post)).sent Dialect.map).updates := by
  induction post using List.reverseRecOn with
  | nil =>
      rw [List.append_nil]
  | append_singleton post r ih =>
      rw [← List.append_assoc, updates_run_append]
      exact ih.trans (List.prefix_append _ _)

end Market

/-- What the engine sends is what the feed relies on. -/
theorem publishable_of_run
    (P : Type) [ObjectPool P] {n : Nat} (hn : n ≤ 2 ^ 16)
    (poolSize : Nat) {rs : List MEClientRequest} (hfresh : FreshKeys rs)
    (hlen : rs.length < 2 ^ 63) (htickers : TickersInRange n rs)
    (hnarrow : ∀ r ∈ rs, r.Narrow)
    (hwhole : MatchingEngine.EachStep MapLevels P n poolSize
      OrderBook.Whole rs)
    {e : MatchingEngine MapLevels P}
    (he : MatchingEngine.run MapLevels P n poolSize rs = .ok e) :
    (∀ u ∈ e.channel.updates, OnWire u) ∧
    (∀ u ∈ e.channel.updates, u.tickerId < n) ∧
    ModifiesKnown (ShadowBook.init n) e.channel.updates := by
  have hladder : Market.EachStep Ladder.Whole rs :=
    hwhole.ladder _ (fun _ _ _ hrep => hrep.whole_iff.mp) hfresh htickers
      (fun _ _ _ => trivial) he
  have hrep : MatchingEngine.Represents n e (Market.run rs) :=
    (MatchingEngine.run_refines P n poolSize hfresh htickers
      fun _ _ _ => trivial).of_ok he
  have hengine := MatchingEngine.engineUpdate_of_run hfresh htickers
    (fun _ _ _ => trivial) he
  refine ⟨?_, fun u hu => (hengine u hu).ticker, ?_⟩
  · rw [hrep.sent]
    exact Market.run_onWire hfresh
      (fun r hr => Nat.lt_of_lt_of_le (htickers r hr) hn) hnarrow
  · rw [hrep.sent]
    exact Market.run_modifiesKnown hfresh hlen htickers hladder

/-- **A subscriber sees the books**: one that has come to the last update of
some request has exactly the quotes of the orders that were resting in the books
of the engine after that request. -/
theorem subscriber_sees_books
    (T : ItchTypes) (P : Type) [ObjectPool P] {n : Nat} (hn : n ≤ 2 ^ 16)
    (poolSize : Nat) {rs : List MEClientRequest} (hfresh : FreshKeys rs)
    (hlen : rs.length < 2 ^ 63) (htickers : TickersInRange n rs)
    (hnarrow : ∀ r ∈ rs, r.Narrow)
    (hwhole : MatchingEngine.EachStep MapLevels P n poolSize
      OrderBook.Whole rs)
    {e : MatchingEngine MapLevels P}
    (he : MatchingEngine.run MapLevels P n poolSize rs = .ok e)
    (hupdates : e.channel.updates.length + 1 < wordSize)
    (ring : Nat → ReplayEntry) {fuel : Nat} (hfuel : replayCapacity < fuel)
    {σ : Session}
    (hruns : Session.Runs T fuel (Session.init n ring e.channel.updates) σ)
    {pre post : List MEClientRequest} (hsplit : rs = pre ++ post)
    {e' : MatchingEngine MapLevels P}
    (he' : MatchingEngine.run MapLevels P n poolSize pre = .ok e')
    (hseq : σ.subscriber.seq = e'.channel.updates.length) :
    ∀ t, t < n → ∃ book, e'.tickerOrderBook[t]? = some book ∧
      ∀ m x, σ.subscriber.state t m = some x ↔ book.Quotes m x := by
  have hladder : Market.EachStep Ladder.Whole rs :=
    hwhole.ladder _ (fun _ _ _ hrep => hrep.whole_iff.mp) hfresh htickers
      (fun _ _ _ => trivial) he
  have hrep : MatchingEngine.Represents n e (Market.run rs) :=
    (MatchingEngine.run_refines P n poolSize hfresh htickers
      fun _ _ _ => trivial).of_ok he
  have hfresh' : FreshKeys pre := by
    rw [hsplit] at hfresh
    exact hfresh.sublist ((List.sublist_append_left pre post).filterMap _)
  have htickers' : TickersInRange n pre :=
    fun r hr => htickers r (hsplit ▸ List.mem_append_left _ hr)
  have hrep' : MatchingEngine.Represents n e' (Market.run pre) :=
    (MatchingEngine.run_refines P n poolSize hfresh' htickers'
      fun _ _ _ => trivial).of_ok he'
  have hladder' : Market.EachStep Ladder.Whole pre := by
    rintro pre' r post' rfl
    exact hladder pre' r (post' ++ post) (by rw [hsplit]; simp)
  have hlen' : pre.length < 2 ^ 63 := by
    rw [hsplit, List.length_append] at hlen
    omega
  obtain ⟨hids, b, hb, hshows⟩ :=
    Market.run_shadow hfresh' hlen' htickers' hladder'
  obtain ⟨hwire, hrange, hknown⟩ :=
    publishable_of_run P hn poolSize hfresh hlen htickers hnarrow hwhole he
  obtain ⟨b', hb', hstate⟩ := ((Session.Sound.init ring).runs hn hwire hrange
    hupdates hknown hfuel hruns).shows hrange
  -- the stream of the feed is that of the market
  have htake : e.channel.updates.take σ.subscriber.seq =
      ((Market.run pre).sent Dialect.map).updates := by
    rw [hseq, hrep.sent, hrep'.sent, hsplit]
    exact (List.prefix_iff_eq_take.mp (Market.updates_prefix pre post)).symm
  rw [htake, hb] at hb'
  obtain rfl := Except.ok.inj hb'
  intro t ht
  have hshadow := List.getElem?_eq_getElem (hshows.tickers.symm ▸ ht)
  have hbook := List.getElem?_eq_getElem (hrep'.books.symm ▸ ht)
  refine ⟨_, hbook, fun m x => ?_⟩
  rw [hstate, ShadowBook.viewAt_of_getElem? hshadow,
    hshows.shown t _ hshadow]
  exact (hrep'.book t _ hbook).quotes_iff (hids t).nodup

/-- **A subscriber sees the exchange.**  Clients connect, disconnect and send
any bytes; the accepted cancels among their requests are whole, and the accepted
replacements do not cross.  Behind any run of publisher, streamer, recovery
service and network, a subscriber that has come to the last update of some
moment has exactly the quotes of the orders that were resting in the books of
the exchange at that moment. -/
theorem subscriber_sees_exchange
    (T : ItchTypes) {L : OuchLayout} (K : L.PackedFields) (R : OuchReplies)
    (env : Surroundings) (P : Type) [ObjectPool P] {books : Nat}
    (hbooks : books ≤ 2 ^ 16) (poolSize fifoPending tokenPoolSz : Nat)
    {inputs more : List ExchangeInput} {e e' : Exchange P}
    (he : Exchange.run L R env P books poolSize fifoPending tokenPoolSz
      inputs = .ok e)
    (he' : Exchange.run L R env P books poolSize fifoPending tokenPoolSz
      (inputs ++ more) = .ok e')
    (hlen : e'.desk.processed.length < 2 ^ 63)
    (hwhole : MatchingEngine.EachStep MapLevels P books poolSize
      OrderBook.Whole e'.desk.processed)
    (hupdates : e'.engine.channel.updates.length + 1 < wordSize)
    (ring : Nat → ReplayEntry) {fuel : Nat} (hfuel : replayCapacity < fuel)
    {σ : Session}
    (hruns : Session.Runs T fuel
      (Session.init books ring e'.engine.channel.updates) σ)
    (hseq : σ.subscriber.seq = e.engine.channel.updates.length) :
    ∀ t, t < books → ∃ book, e.engine.tickerOrderBook[t]? = some book ∧
      ∀ m x, σ.subscriber.state t m = some x ↔ book.Quotes m x := by
  have hinv := (Exchange.run_inv he').1
  have hrec := Exchange.run_recorded he'
  obtain ⟨e₁, he₁, hmore⟩ := foldlM_append_ok he'
  obtain rfl := Except.ok.inj (he.symm.trans he₁)
  obtain ⟨post, hsplit⟩ := Exchange.processed_mono hmore
  have hrun := Exchange.run_engine he'
  exact subscriber_sees_books T P hbooks poolSize hinv.freshKeys hlen
    (Exchange.run_tickers he') (fun r hr => hrec.narrow K hr) hwhole hrun
    hupdates ring hfuel hruns hsplit.symm (Exchange.run_engine he) hseq

/-- What is published when a buy order is partly taken, replaced and taken from
once more. -/
def replacedBuyerUpdates : List MEMarketUpdate :=
  [⟨0, 1, .add, .buy, 100, 5, orderIdInvalid, orderIdInvalid⟩,
    ⟨0, 1, .trade, .buy, 100, 2, orderIdInvalid, 1⟩,
    ⟨0, 1, .modify, .buy, 100, 3, 3, orderIdInvalid⟩,
    ⟨0, 3, .trade, .buy, 100, 2, orderIdInvalid, 2⟩]

/-- The subscriber has heard of the replacement, and not of the trade that comes
after it. -/
theorem subscriber_sees_exchange_example :
    ∃ (e e' : Exchange ScanPool) (σ : Session),
      Exchange.run OuchLayout.packed OuchReplies.packed Surroundings.roomy
        ScanPool 1 4 16 16 (replacedBuyer ++ [.process]) = .ok e ∧
      Exchange.run OuchLayout.packed OuchReplies.packed Surroundings.roomy
        ScanPool 1 4 16 16 (replacedBuyer ++ [.process] ++
          [.recv 8 (sellOrderMessage 67) 5, .publish, .process]) = .ok e' ∧
      e'.engine.channel.updates = replacedBuyerUpdates ∧
      Session.Runs (.mk 65 68 69 85 (by decide)) (replayCapacity + 1)
        (Session.init 1 (fun _ => ⟨[], [], 0⟩) e'.engine.channel.updates) σ ∧
      σ.subscriber.seq = 3 ∧
      ∀ t, t < 1 → ∃ book, e.engine.tickerOrderBook[t]? = some book ∧
        ∀ m x, σ.subscriber.state t m = some x ↔ book.Quotes m x := by
  have hobserved : ((Exchange.run OuchLayout.packed OuchReplies.packed
      Surroundings.roomy ScanPool 1 4 16 16
      (replacedBuyer ++ [.process])).toOption.map fun e =>
        e.engine.channel.updates.length) = some 3 := by
    decide +kernel
  have hobserved' : ((Exchange.run OuchLayout.packed OuchReplies.packed
      Surroundings.roomy ScanPool 1 4 16 16 (replacedBuyer ++ [.process] ++
        [.recv 8 (sellOrderMessage 67) 5, .publish,
          .process])).toOption.map fun e =>
            (e.engine.channel.updates, e.desk.processed.length,
              decide (Market.EachStep Ladder.Whole e.desk.processed))) =
      some (replacedBuyerUpdates, 4, true) := by
    decide +kernel
  obtain ⟨e, he, hthree⟩ := exists_of_toOption_map hobserved
  obtain ⟨e', he', hobserved'⟩ := exists_of_toOption_map hobserved'
  obtain ⟨hupdates, hobserved'⟩ := Prod.mk.inj hobserved'
  obtain ⟨hlength, hladder⟩ := Prod.mk.inj hobserved'
  have hheard : ((Feed.run (ItchTypes.mk 65 68 69 85 (by decide)).layout 1
      (fun _ => ⟨[], [], 0⟩) replacedBuyerUpdates
      [.encode 5, .send, .push, .advance, .encode 6, .send, .push, .advance,
        .encode 7, .send]).toOption.map fun f =>
          (f.udp.foldl (Subscriber.hear (.mk 65 68 69 85 (by decide)))
            ⟨0, fun _ _ => none⟩).seq) = some 3 := by
    decide +kernel
  obtain ⟨f, hf, hseq⟩ := exists_of_toOption_map hheard
  obtain ⟨σ, hruns, hσ⟩ : ∃ σ, Session.Runs (.mk 65 68 69 85 (by decide))
      (replayCapacity + 1) (Session.init 1 (fun _ => ⟨[], [], 0⟩)
        replacedBuyerUpdates) σ ∧ σ.subscriber.seq = 3 := by
    have hfeed : Session.Runs (.mk 65 68 69 85 (by decide))
        (replayCapacity + 1) (Session.init 1 (fun _ => ⟨[], [], 0⟩)
          replacedBuyerUpdates) _ := Session.Runs.feed hf
    exact ⟨_, hfeed.trans (Session.Runs.hear fun _ hd => hd), hseq⟩
  rw [← hupdates] at hruns
  refine ⟨e, e', σ, he, he', hupdates, hruns, hσ, subscriber_sees_exchange _
    OuchLayout.packedFields OuchReplies.packed Surroundings.roomy ScanPool
    (by decide) 4 16 16 he he' ?_ ?_ ?_ _ (Nat.lt_succ_self _) hruns
    (hσ.trans hthree.symm)⟩
  · rw [hlength]
    decide
  · exact .of_ladder (of_decide_eq_true hladder) _
      (fun _ _ _ hrep => hrep.whole_iff.mpr) (Exchange.run_inv he').1.freshKeys
      (Exchange.run_tickers he') fun _ _ _ => trivial
  · rw [hupdates]
    decide

end NanoExchange
