import NanoExchange.Engine.Streams
import NanoExchange.Network.ShadowBook

/-!
# The shadow book follows the market

What a shadow map tells about an order is its `Quote`: side, price and
quantity.  The quotes of a list of orders form a partial function of the market
order id (`quotes`), and `quoteStep` is what an update does to such a function,
undefined for a TRADE of an order that is not quoted.

A shadow book simulates `quoteStep` (`ShadowBook.Shows.apply`).  The updates of a
request take the quotes of the ladder before it to those of the ladder after
it, if a withdrawal takes all that is left and a replacement does not trade
(`Ladder.step_quotes`).
-/

namespace NanoExchange

open Lib

/-- What the market data tells about a resting order. -/
structure Quote where
  side : Side
  price : Price
  qty : Quantity
deriving DecidableEq

def OrderInfo.quote (o : OrderInfo) : Quote :=
  ⟨o.side, o.price, o.remainingQuantity⟩

def MEMarketUpdate.quote (u : MEMarketUpdate) : Quote :=
  ⟨u.side, u.price, u.qty⟩

/-- The quoted orders, by market order id. -/
abbrev Quotes := OrderId → Option Quote

/-- The quotes of some orders. -/
def quotes (l : List OrderInfo) : Quotes := fun m =>
  (l.find? fun o => o.marketOrderId = m).map OrderInfo.quote

/-- What an update does to the quotes of its ticker. -/
def quoteStep (f : Quotes) (u : MEMarketUpdate) : Option Quotes :=
  match u.type with
  | .add => some (Function.update f u.marketOrderId (some u.quote))
  | .cancel => some (Function.update f u.marketOrderId none)
  | .modify =>
      some (Function.update (Function.update f u.marketOrderId none)
        u.newOrderId (some u.quote))
  | .trade =>
      (f u.marketOrderId).map fun x =>
        Function.update f u.marketOrderId
          (if x.qty ≤ u.qty then none
          else some { x with qty := x.qty - u.qty })
  | .snapshotStart | .clear | .snapshotEnd => some f

namespace ShadowBook

/-- The quotes in a shadow map. -/
def view (orders : ShadowMap) : Quotes := fun m =>
  (orders.lookup m).map MEMarketUpdate.quote

/-- The shadow book of `n` tickers shows the quotes `F`, and no TRADE has been
unknown. -/
structure Shows (n : Nat) (b : ShadowBook) (F : TickerId → Quotes) :
    Prop where
  tickers : b.shadowBook.length = n
  shown : ∀ t orders, b.shadowBook[t]? = some orders → view orders = F t
  known : b.unknownTrades = []

theorem view_insert (orders : ShadowMap) (m : OrderId) (u : MEMarketUpdate) :
    view (orders.insert m u) =
      Function.update (view orders) m (some u.quote) := by
  funext m'
  by_cases hm : m' = m
  · subst hm
    simp [view]
  · simp [view, hm, Finmap.lookup_insert_of_ne]

theorem view_erase (orders : ShadowMap) (m : OrderId) :
    view (orders.erase m) = Function.update (view orders) m none := by
  funext m'
  by_cases hm : m' = m
  · subst hm
    simp [view]
  · simp [view, hm, Finmap.lookup_erase_ne]

theorem view_fill
    {orders : ShadowMap} {order u : MEMarketUpdate} :
    view (fill orders order u) =
      Function.update (view orders) u.marketOrderId
        (if order.quote.qty ≤ u.qty then none
        else some { order.quote with qty := order.quote.qty - u.qty }) := by
  unfold fill
  by_cases hle : order.qty ≤ u.qty
  · rw [if_pos hle, if_pos (by exact hle), view_erase]
  · rw [if_neg hle, if_neg (by exact hle), view_insert]
    rfl

/-- An update whose step is defined on the quotes that the map of its ticker
shows changes that map, as the step says, and nothing else. -/
theorem applyToBook_of_step
    {b : ShadowBook} {u : MEMarketUpdate} {orders : ShadowMap}
    (ho : b.shadowBook[u.tickerId]? = some orders) {f' : Quotes}
    (hstep : quoteStep (view orders) u = some f') :
    ∃ orders', view orders' = f' ∧ ∃ d, b.applyToBook u = .ok { b with
      shadowBook := b.shadowBook.set u.tickerId orders'
      dirty := d } := by
  have hmodify : ∀ g : ShadowMap → ShadowMap,
      b.modifyAt u.tickerId g = .ok { b with
        shadowBook := b.shadowBook.set u.tickerId (g orders)
        dirty := true } := by
    intro g
    simp only [modifyAt, ho]
  unfold quoteStep at hstep
  unfold applyToBook
  cases htype : u.type with
  | add =>
      simp only [htype, Option.some.injEq] at hstep
      exact ⟨_, (view_insert _ _ _).trans hstep, true, hmodify _⟩
  | cancel =>
      simp only [htype, Option.some.injEq] at hstep
      exact ⟨_, (view_erase _ _).trans hstep, true, hmodify _⟩
  | modify =>
      simp only [htype, Option.some.injEq] at hstep
      refine ⟨_, ?_, true, hmodify _⟩
      rw [view_insert, view_erase, ← hstep]
      rfl
  | trade =>
      simp only [htype] at hstep
      obtain ⟨x, hx, hf'⟩ := Option.map_eq_some_iff.mp hstep
      obtain ⟨order, horder, rfl⟩ := Option.map_eq_some_iff.mp hx
      simp only [ho, horder]
      exact ⟨_, view_fill.trans hf', true, hmodify _⟩
  | snapshotStart | clear | snapshotEnd =>
      simp only [htype, Option.some.injEq] at hstep
      obtain ⟨hlt, rfl⟩ := List.getElem?_eq_some_iff.mp ho
      exact ⟨_, hstep, b.dirty, by rw [List.set_getElem_self hlt]⟩

/-- The updates of one ticker, in one map. -/
theorem applyAll_of_steps
    {t : TickerId} {us : List MEMarketUpdate} (hus : ∀ u ∈ us, u.tickerId = t)
    {b : ShadowBook} {orders : ShadowMap}
    (ho : b.shadowBook[t]? = some orders) {f' : Quotes}
    (hsteps : us.foldlM quoteStep (view orders) = some f') :
    ∃ b' orders', us.foldlM applyToBook b = .ok b' ∧
      b'.shadowBook[t]? = some orders' ∧ view orders' = f' := by
  induction us generalizing b orders with
  | nil =>
      obtain rfl : view orders = f' := by simpa using hsteps
      exact ⟨b, orders, rfl, ho, rfl⟩
  | cons u us ih =>
      obtain rfl := hus u List.mem_cons_self
      rw [List.foldlM_cons] at hsteps
      obtain ⟨f₁, hf₁, hrest⟩ := Option.bind_eq_some_iff.mp hsteps
      obtain ⟨orders₁, rfl, d, hb₁⟩ := applyToBook_of_step ho hf₁
      have hlt := (List.getElem?_eq_some_iff.mp ho).1
      have ho₁ : (b.shadowBook.set u.tickerId orders₁)[u.tickerId]? =
          some orders₁ := List.getElem?_set_self hlt
      obtain ⟨b', orders', hb', ho', hview⟩ :=
        ih (fun x hx => hus x (List.mem_cons_of_mem _ hx))
          (b := { b with
            shadowBook := b.shadowBook.set u.tickerId orders₁
            dirty := d }) ho₁ hrest
      refine ⟨b', orders', ?_, ho', hview⟩
      rw [List.foldlM_cons, hb₁, ok_bind]
      exact hb'

namespace Shows

variable {n : Nat} {b : ShadowBook} {F : TickerId → Quotes}

theorem init (n : Nat) : Shows n (ShadowBook.init n) fun _ _ => none where
  tickers := List.length_replicate
  shown t orders h := by
    obtain rfl := List.eq_of_mem_replicate (List.mem_of_getElem? h)
    funext m
    simp [view]
  known := rfl

/-- **A shadow book simulates the steps of the quotes.** -/
theorem apply
    (h : Shows n b F) {u : MEMarketUpdate} (ht : u.tickerId < n)
    {f' : Quotes} (hstep : quoteStep (F u.tickerId) u = some f') :
    ∃ b', b.applyToBook u = .ok b' ∧
      Shows n b' (Function.update F u.tickerId f') := by
  obtain ⟨orders, ho⟩ : ∃ orders, b.shadowBook[u.tickerId]? = some orders :=
    ⟨_, List.getElem?_eq_getElem (h.tickers.symm ▸ ht)⟩
  rw [← h.shown _ _ ho] at hstep
  obtain ⟨orders', hview, d, happly⟩ := applyToBook_of_step ho hstep
  refine ⟨_, happly, ?_, ?_, h.known⟩
  · rw [List.length_set]
    exact h.tickers
  · intro t orders₁ h₁
    by_cases htt : t = u.tickerId
    · subst htt
      rw [List.getElem?_set_self (h.tickers.symm ▸ ht)] at h₁
      obtain rfl := Option.some.inj h₁
      rw [Function.update_self]
      exact hview
    · rw [List.getElem?_set_ne fun e => htt e.symm] at h₁
      rw [Function.update_of_ne htt]
      exact h.shown t orders₁ h₁

/-- The updates of one ticker, one after the other. -/
theorem applyAll
    (h : Shows n b F) {t : TickerId} (ht : t < n) {l : List MEMarketUpdate}
    (hl : ∀ u ∈ l, u.tickerId = t) {f' : Quotes}
    (hstep : l.foldlM quoteStep (F t) = some f') :
    ∃ b', l.foldlM applyToBook b = .ok b' ∧
      Shows n b' (Function.update F t f') := by
  induction l generalizing b F with
  | nil =>
      obtain rfl : F t = f' := by simpa using hstep
      exact ⟨b, rfl, by rwa [Function.update_eq_self]⟩
  | cons u l ih =>
      obtain rfl := hl u List.mem_cons_self
      rw [List.foldlM_cons] at hstep
      obtain ⟨f₁, hf₁, hrest⟩ := Option.bind_eq_some_iff.mp hstep
      obtain ⟨b₁, hb₁, hshows₁⟩ := h.apply ht hf₁
      obtain ⟨b', hb', hshows'⟩ := ih hshows₁
        (fun x hx => hl x (List.mem_cons_of_mem _ hx))
        (by rwa [Function.update_self])
      refine ⟨b', ?_, ?_⟩
      · rw [List.foldlM_cons, hb₁, ok_bind]
        exact hb'
      · rwa [Function.update_idem] at hshows'

end Shows

end ShadowBook

section Quotes

variable {l : List OrderInfo} {o : OrderInfo} {m : OrderId}

theorem quotes_cons (o : OrderInfo) (l : List OrderInfo) :
    quotes (o :: l) =
      Function.update (quotes l) o.marketOrderId (some o.quote) := by
  funext m
  by_cases hm : o.marketOrderId = m
  · subst hm
    simp [quotes]
  · simp [quotes, hm, Function.update_of_ne fun e => hm e.symm]

theorem quotes_eq_none (h : ∀ o ∈ l, o.marketOrderId ≠ m) :
    quotes l m = none := by
  rw [quotes, Option.map_eq_none_iff, List.find?_eq_none]
  exact fun o ho => by simpa using h o ho

/-- If ids tell the orders apart, an order is quoted under its id. -/
theorem quotes_eq_some
    (hnodup : (l.map OrderInfo.marketOrderId).Nodup) {x : Quote} :
    quotes l m = some x ↔ ∃ o ∈ l, o.marketOrderId = m ∧ o.quote = x := by
  constructor
  · intro h
    obtain ⟨o, ho, rfl⟩ := Option.map_eq_some_iff.mp h
    exact ⟨o, List.mem_of_find?_eq_some ho, by simpa using List.find?_some ho,
      rfl⟩
  · rintro ⟨o, ho, rfl, rfl⟩
    cases hfind : l.find? fun o' => o'.marketOrderId = o.marketOrderId with
    | none =>
        rw [List.find?_eq_none] at hfind
        simpa using hfind o ho
    | some o' =>
        obtain rfl : o' = o := List.inj_on_of_nodup_map hnodup
          (List.mem_of_find?_eq_some hfind) ho
          (by simpa using List.find?_some hfind)
        simp [quotes, hfind]

theorem quotes_perm
    {l l' : List OrderInfo} (h : l.Perm l')
    (hnodup : (l.map OrderInfo.marketOrderId).Nodup) :
    quotes l = quotes l' := by
  have hnodup' := (h.map OrderInfo.marketOrderId).nodup_iff.mp hnodup
  funext m
  refine Option.ext fun x => ?_
  rw [quotes_eq_some hnodup, quotes_eq_some hnodup']
  simp only [h.mem_iff]

/-- The quotes without an order. -/
theorem quotes_filter
    (hnodup : (l.map OrderInfo.marketOrderId).Nodup) {p : OrderInfo → Bool}
    (ho : o ∈ l) (hp : ∀ x ∈ l, p x = true ↔ x ≠ o) :
    quotes (l.filter p) =
      Function.update (quotes l) o.marketOrderId none := by
  have hnodup' : ((l.filter p).map OrderInfo.marketOrderId).Nodup :=
    hnodup.sublist (List.filter_sublist.map _)
  funext m
  by_cases hm : m = o.marketOrderId
  · subst hm
    rw [Function.update_self]
    refine quotes_eq_none fun x hx hxm => ?_
    obtain ⟨hx, hpx⟩ := List.mem_filter.mp hx
    exact (hp x hx).mp hpx (List.inj_on_of_nodup_map hnodup hx ho hxm)
  · rw [Function.update_of_ne hm]
    refine Option.ext fun x => ?_
    rw [quotes_eq_some hnodup, quotes_eq_some hnodup']
    refine exists_congr fun x => and_congr_left fun hx => ?_
    rw [List.mem_filter, and_iff_left_iff_imp]
    intro hmem
    refine (hp x hmem).mpr ?_
    rintro rfl
    exact hm hx.1.symm

/-- A fill of all that an order has left. -/
theorem quoteStep_trade_full
    (tickerId : TickerId) (n : OrderId)
    (hnodup : ((o :: l).map OrderInfo.marketOrderId).Nodup) :
    quoteStep (quotes (o :: l)) (tradeUpdate tickerId (o.withRemaining 0)
      o.remainingQuantity n) = some (quotes l) := by
  rw [List.map_cons, List.nodup_cons] at hnodup
  have hnone : quotes l o.marketOrderId = none :=
    quotes_eq_none fun x hx hxm => hnodup.1 (List.mem_map.mpr ⟨x, hx, hxm⟩)
  rw [quotes_cons]
  simp only [quoteStep, tradeUpdate, OrderInfo.withRemaining, OrderInfo.quote,
    Function.update_self, Option.map_some, le_refl, if_true,
    Function.update_idem]
  rw [← hnone, Function.update_eq_self]

/-- A fill of some of the shares that an order has left. -/
theorem quoteStep_trade_part
    (tickerId : TickerId) (n : OrderId) {q : Quantity}
    (hq : q < o.remainingQuantity) :
    quoteStep (quotes (o :: l)) (tradeUpdate tickerId
      (o.withRemaining (o.remainingQuantity - q)) q n) =
        some (quotes (o.withRemaining (o.remainingQuantity - q) :: l)) := by
  rw [quotes_cons, quotes_cons]
  simp [quoteStep, tradeUpdate, OrderInfo.withRemaining, OrderInfo.quote,
    not_le.mpr hq]

end Quotes

namespace Ladder

variable {A : Ladder}

/-- The updates of some events, as the map book publishes them. -/
abbrev published (es : List Event) : List MEMarketUpdate :=
  es.flatMap (Event.updates Dialect.map)

theorem published_append (es es' : List Event) :
    published (es ++ es') = published es ++ published es' :=
  List.flatMap_append

theorem published_modified (a : OrderArgs) (old : OrderInfo) (es : List Event) :
    published (.modified a old :: es) =
      modifyUpdate a old.marketOrderId :: published es := by
  rfl

theorem updates_filled
    (a : OrderArgs) (o : OrderInfo) (fill remaining : Quantity)
    (n : OrderId) :
    published [.filled a o fill remaining n] =
      [tradeUpdate a.tickerId o fill n] := by
  simp [published, Event.updates, Event.outputs, Dialect.map]

/-- The trades of a sweep, in the quotes of the orders it may meet and of
other orders `c`. -/
theorem sweep_quotes
    {R : Price → Prop} [DecidablePred R] (a : OrderArgs) (n : OrderId)
    (q : Quantity) {l c : List OrderInfo}
    (hnodup : ((l ++ c).map OrderInfo.marketOrderId).Nodup) :
    (published (sweep R a n q l).fills).foldlM quoteStep (quotes (l ++ c)) =
      some (quotes ((sweep R a n q l).resting ++ c)) := by
  have hinv := sweep_invariant (R := R) (a := a)
    (fun es _ l' =>
      (published es).foldlM quoteStep (quotes (l ++ c)) =
        some (quotes (l' ++ c)) ∧
      ((l' ++ c).map OrderInfo.marketOrderId).Nodup) ?_ ?_ [] n (q := q)
    (l := l) ⟨rfl, hnodup⟩
  · exact hinv.1
  · rintro es n q o l' - - ⟨h, hnodup⟩
    rw [List.cons_append] at h hnodup
    refine ⟨?_, ?_⟩
    · rw [published, List.flatMap_append, List.foldlM_append, h]
      show (published _).foldlM quoteStep _ = _
      rw [updates_filled]
      simpa using quoteStep_trade_full a.tickerId n hnodup
    · exact (List.nodup_cons.mp hnodup).2
  · rintro es n q o l' - hlt ⟨h, hnodup⟩
    rw [List.cons_append] at h hnodup
    refine ⟨?_, hnodup⟩
    rw [published, List.flatMap_append, List.foldlM_append, h]
    show (published _).foldlM quoteStep _ = _
    rw [updates_filled]
    simpa using quoteStep_trade_part a.tickerId n hlt

/-- The trades of an incoming order. -/
theorem swept_quotes
    (hwf : A.WF) (hids : A.Ids) (n : OrderId) (a : OrderArgs) :
    (published (A.sweepBy n a).fills).foldlM quoteStep (quotes A.orders) =
      some (quotes (A.swept n a).orders) := by
  have hperm := A.orders_perm a.side
  have hperm' := (A.swept n a).orders_perm a.side
  have hids' : (A.swept n a).Ids := (trims_swept hwf n a).ids le_rfl hids
  rw [swept_side_opposite, swept_side_self] at hperm'
  rw [quotes_perm hperm hids.nodup, quotes_perm hperm' hids'.nodup]
  exact sweep_quotes a n a.initialQuantity
    ((hperm.map _).nodup_iff.mp hids.nodup)

/-- The quotes after an order has come to rest. -/
theorem quotes_insert
    (hnodup : (A.orders.map OrderInfo.marketOrderId).Nodup) {o : OrderInfo}
    (hnew : ∀ o' ∈ A.orders, o'.marketOrderId ≠ o.marketOrderId) :
    quotes (A.insert o).orders =
      Function.update (quotes A.orders) o.marketOrderId (some o.quote) := by
  have hperm := A.insert_orders_perm o
  rw [← quotes_cons]
  refine quotes_perm hperm ?_
  rw [(hperm.map _).nodup_iff, List.map_cons, List.nodup_cons]
  refine ⟨fun hmem => ?_, hnodup⟩
  obtain ⟨o', ho', heq⟩ := List.mem_map.mp hmem
  exact hnew o' ho' heq

/-- The updates of a new order: its trades, and an ADD if it comes to rest. -/
theorem enter_quotes
    (hwf : A.WF) (hids : A.Ids) (n : OrderId) {a : OrderArgs}
    (hnew : ∀ o ∈ A.orders, o.marketOrderId ≠ a.marketOrderId) :
    (published (A.enter n false a).events).foldlM quoteStep
        (quotes A.orders) =
      some (quotes (A.enter n false a).ladder.orders) := by
  have hsweep := swept_quotes hwf hids n a
  rcases A.enter_cases n false a with
    ⟨-, heq⟩ | ⟨-, -, heq⟩ | ⟨-, -, heq⟩
  · rw [heq]
    exact hsweep
  · rw [heq, published, List.flatMap_append, List.foldlM_append, hsweep,
      quotes_insert ((trims_swept hwf n a).ids le_rfl hids).nodup
        ((trims_swept hwf n a).ids_ne hnew)]
    rfl
  · rw [heq, published, List.flatMap_append, List.foldlM_append, hsweep]
    rfl

/-- An incoming order that crosses nothing. -/
theorem enter_of_clear
    (n : OrderId) (replacing : Bool) {a : OrderArgs}
    (hqty : a.initialQuantity ≠ 0) (hclear : A.Clear a.side a.price) :
    A.enter n replacing a =
      match a.orderType with
      | .goodTillCancel =>
          ⟨A.insert a.toInfo, n, [.rested replacing a a.initialQuantity]⟩
      | .fillAndKill => ⟨A, n, [.killed replacing a a.initialQuantity]⟩ := by
  have hsweep : A.sweepBy n a =
      ⟨[], A.side a.side.opposite, a.initialQuantity, n⟩ :=
    sweep_of_clear n _ hclear
  have hswept : A.swept n a = A := by
    rw [swept, hsweep, setSide, Function.update_eq_self]
  rcases A.enter_cases n replacing a with
    ⟨hrem, -⟩ | ⟨-, htype, heq⟩ | ⟨-, htype, heq⟩
  · rw [hsweep] at hrem
    exact absurd hrem hqty
  · rw [heq, hswept, hsweep]
    split
    · rfl
    · simp_all
  · rw [heq, hswept, hsweep]
    split
    · simp_all
    · rfl

/-- The quotes after an order has been taken out. -/
theorem quotes_erase
    (hwf : A.WF) (hnodup : (A.orders.map OrderInfo.marketOrderId).Nodup)
    {o : OrderInfo} (ho : o ∈ A.orders) :
    quotes (A.erase o.key).orders =
      Function.update (quotes A.orders) o.marketOrderId none := by
  have heq : (A.erase o.key).orders =
      A.orders.filter fun x => x.key ≠ o.key := by
    simp [orders, erase]
  rw [heq]
  refine quotes_filter hnodup ho fun x hx => ?_
  rw [decide_eq_true_iff, not_iff_not]
  exact ⟨hwf.key_unique hx ho, congrArg _⟩

/-- The updates of a replacement that does not trade: after the MODIFY there
is only the CANCEL of a killed replacement. -/
theorem replace_quotes
    (hwf : A.WF) (hids : A.Ids) (n : OrderId) {old : OrderInfo}
    (ho : old ∈ A.orders) {a : OrderArgs} (hside : a.side = old.side)
    (hnew : ∀ o ∈ A.orders, o.marketOrderId ≠ a.marketOrderId)
    (hqty : a.initialQuantity ≠ 0) (hclear : A.Clear old.side a.price) :
    (published (.modified a old ::
        ((A.erase old.key).bump.enter n true a).events)).foldlM quoteStep
        (quotes A.orders) =
      some (quotes ((A.erase old.key).bump.enter n true a).ladder.orders) := by
  have herase := trims_erase hwf old.key
  have hnodup : ((A.erase old.key).bump.orders.map
      OrderInfo.marketOrderId).Nodup := (herase.ids le_rfl hids).nodup
  have hnew' : ∀ o ∈ (A.erase old.key).bump.orders,
      o.marketOrderId ≠ a.marketOrderId := herase.ids_ne hnew
  have hclear' : (A.erase old.key).bump.Clear a.side a.price := by
    rw [hside]
    exact (clear_erase_bump hwf ho a.price).mpr hclear
  have hmodify : quoteStep (quotes A.orders)
      (modifyUpdate a old.marketOrderId) =
        some (Function.update (quotes (A.erase old.key).orders)
          a.marketOrderId (some a.toInfo.quote)) := by
    rw [quotes_erase hwf hids.nodup ho]
    rfl
  rw [published_modified, List.foldlM_cons, hmodify,
    enter_of_clear n true hqty hclear']
  cases a.orderType with
  | goodTillCancel =>
      show _ = some (quotes ((A.erase old.key).bump.insert a.toInfo).orders)
      rw [quotes_insert hnodup hnew']
      rfl
  | fillAndKill =>
      show some (Function.update (Function.update _ _ _) a.marketOrderId none) =
        some (quotes (A.erase old.key).bump.orders)
      rw [Function.update_idem, ← quotes_eq_none hnew']
      exact congrArg some (Function.update_eq_self _ _)

/-- A withdrawal takes all that is left of its order, and a replacement does
not trade. -/
def Whole (A : Ladder) (r : MEClientRequest) : Prop :=
  match r.action with
  | .new => True
  | .cancel => ∀ o, A.find? (r.clientId, r.clientOrderId) = some o →
      canceledQty r o ≤ o.remainingQuantity →
        canceledQty r o = o.remainingQuantity
  | .modify => ∀ o, A.find? (r.clientId, r.clientOrderId) = some o →
      r.newClientOrderId ≠ 0 → r.qty ≠ 0 → A.Clear o.side r.price

instance (A : Ladder) (r : MEClientRequest) : Decidable (A.Whole r) :=
  decidable_of_iff
    ((r.action = .cancel →
        ∀ o ∈ A.find? (r.clientId, r.clientOrderId),
          canceledQty r o ≤ o.remainingQuantity →
            canceledQty r o = o.remainingQuantity) ∧
      (r.action = .modify →
        ∀ o ∈ A.find? (r.clientId, r.clientOrderId),
          r.newClientOrderId ≠ 0 → r.qty ≠ 0 → A.Clear o.side r.price)) (by
    unfold Whole
    cases r.action <;> simp)

/-- **The updates of a request take the quotes of the ladder before it to
those of the ladder after it.** -/
theorem step_quotes
    (hwf : A.WF) (hids : A.Ids) (n : OrderId) {r : MEClientRequest}
    (hr : A.Whole r) (hbound : A.nextMarketOrderId + 1 < wordSize) :
    (published (A.step n r).events).foldlM quoteStep (quotes A.orders) =
      some (quotes (A.step n r).ladder.orders) := by
  have hnew : ∀ o ∈ A.orders, o.marketOrderId ≠ A.nextMarketOrderId :=
    fun o ho => (hids.below o ho).ne
  rcases A.step_shapes n r with
    ⟨e, -, heq, he⟩ | ⟨o, haction, hfind, hle, heq⟩ | ⟨-, heq⟩ |
      ⟨old, haction, hfind, hgood, heq⟩
  · rw [heq]
    rcases he with rfl | ⟨o, -, rfl⟩ <;> rfl
  · simp only [Whole, haction] at hr
    obtain ⟨ho, -⟩ := mem_of_find? hfind
    rw [heq, hr o hfind hle]
    have herase : A.withdraw o o.remainingQuantity = A.erase o.key :=
      if_pos (Nat.sub_self _)
    rw [herase, quotes_erase hwf hids.nodup ho]
    rfl
  · rw [heq]
    have hself := trims_bump hwf
    have hids' : A.bump.Ids := hself.ids (by
      show A.nextMarketOrderId ≤ (A.nextMarketOrderId + 1) % wordSize
      rw [Nat.mod_eq_of_lt hbound]
      exact Nat.le_succ _) hids
    exact enter_quotes (hself.wf hwf) hids' n (a := A.newArgs r) hnew
  · rw [not_or] at hgood
    simp only [Whole, haction] at hr
    rw [heq]
    exact replace_quotes hwf hids n (mem_of_find? hfind).1
      (a := A.replacementArgs r old.side) rfl hnew hgood.2
      (hr old hfind hgood.1 hgood.2)

/-- The events of a request are about its ticker. -/
theorem step_events_tickerId (A : Ladder) (n : OrderId) (r : MEClientRequest) :
    ∀ e ∈ (A.step n r).events, e.tickerId = r.tickerId := by
  have henter : ∀ (B : Ladder) replacing a,
      ∀ e ∈ (B.enter n replacing a).events,
        e.tickerId = OrderArgs.tickerId a := by
    intro B replacing a e he
    rcases mem_enter_events he with he | ⟨q, rfl⟩ | ⟨q, rfl⟩
    · obtain ⟨o, fill, remaining, matchId, rfl⟩ := mem_sweep_fills he
      rfl
    · rfl
    · rfl
  rcases A.step_shapes n r with
    ⟨e, -, heq, he⟩ | ⟨o, -, -, -, heq⟩ | ⟨-, heq⟩ | ⟨old, -, -, -, heq⟩
  · rw [heq, List.forall_mem_singleton]
    rcases he with rfl | ⟨o, -, rfl⟩ <;> rfl
  · rw [heq, List.forall_mem_singleton]
    rfl
  · rw [heq, List.forall_mem_cons]
    exact ⟨rfl, henter _ _ (A.newArgs r)⟩
  · rw [heq, List.forall_mem_cons]
    exact ⟨rfl, henter _ _ (A.replacementArgs r old.side)⟩

end Ladder

/-- **The shadow book follows the market**, ticker by ticker. -/
theorem Market.run_shadow
    {n : Nat} {rs : List MEClientRequest} (hfresh : FreshKeys rs)
    (hlen : rs.length < 2 ^ 63) (htickers : TickersInRange n rs)
    (hwhole : EachStep Ladder.Whole rs) :
    (∀ t, ((run rs).ladder t).Ids) ∧
      ∃ b, ((run rs).sent Dialect.map).updates.foldlM ShadowBook.applyToBook
          (ShadowBook.init n) = .ok b ∧
        b.Shows n fun t => quotes ((run rs).ladder t).orders := by
  have hbound := eachStep_bound hfresh hlen
  refine run_induction
    (C := fun A r => A.Whole r ∧ A.nextMarketOrderId + 1 < wordSize ∧
      r.tickerId < n)
    (fun M => (∀ t, (M.ladder t).Ids) ∧
      ∃ b, (M.sent Dialect.map).updates.foldlM ShadowBook.applyToBook
          (ShadowBook.init n) = .ok b ∧
        b.Shows n fun t => quotes (M.ladder t).orders) ?_ ?_ hfresh ?_
  · exact ⟨fun _ => Ladder.Ids.empty, _, rfl, ShadowBook.Shows.init n⟩
  · rintro M r hwf - ⟨hr, hlt, hticker⟩ ⟨hids, b, hb, hshows⟩
    refine ⟨next_ids hwf hids hlt, ?_⟩
    have hticker' : ∀ u ∈ Ladder.published (M.respond r).events,
        u.tickerId = r.tickerId := by
      intro u hu
      obtain ⟨e, he, hu⟩ := List.mem_flatMap.mp hu
      rw [e.updates_tickerId _ u hu]
      exact Ladder.step_events_tickerId _ _ r e he
    obtain ⟨b', hb', hshows'⟩ := hshows.applyAll hticker hticker'
      (Ladder.step_quotes (hwf _) (hids _) M.matchIds hr hlt)
    refine ⟨b', ?_, ?_⟩
    · rw [sent_updates] at hb ⊢
      show (List.flatMap _ (_ ++ _)).foldlM _ _ = _
      rw [List.flatMap_append, List.foldlM_append, hb, ok_bind]
      exact hb'
    · have hquotes : (fun t => quotes ((M.next r).ladder t).orders) =
          Function.update (fun t => quotes (M.ladder t).orders) r.tickerId
            (quotes (M.respond r).ladder.orders) := by
        funext t
        by_cases ht : t = r.tickerId
        · subst ht
          simp
        · rw [next_ladder_of_ne _ ht, Function.update_of_ne ht]
      rw [hquotes]
      exact hshows'
  · intro pre r post hsplit
    exact ⟨hwhole pre r post hsplit, hbound pre r post hsplit,
      htickers r (by rw [hsplit]; simp)⟩

namespace OrderBook

variable {Lv P : Type} [LevelTable Lv]

/-- The book quotes a resting order with id `m` as `x`. -/
def Quotes (b : OrderBook Lv P) (m : OrderId) (x : Quote) : Prop :=
  ∃ s k o, b.Rests s k o ∧ o.marketOrderId = m ∧ o.quote = x

/-- If the request is a cancel that is accepted, it takes all that is left of
its order; if it is a replacement that is accepted, its price does not cross
the opposite side. -/
def Whole (b : OrderBook Lv P) (r : MEClientRequest) : Prop :=
  match r.action with
  | .new => True
  | .cancel => ∀ o, b.Indexes r.clientId r.clientOrderId o →
      r.qty ≤ o.remainingQuantity →
        r.qty = 0 ∨ r.qty = o.remainingQuantity
  | .modify => ∀ o, b.Indexes r.clientId r.clientOrderId o →
      r.newClientOrderId ≠ 0 → r.qty ≠ 0 →
        ∀ k o', b.Rests o.side.opposite k o' →
          ¬ o.side.crosses r.price o'.price

end OrderBook

section Books

variable {P : Type} [ObjectPool P] {b : MapBook P} {A : Ladder}

theorem Rep.whole_iff
    (h : Rep b A) {r : MEClientRequest} :
    b.Whole r ↔ A.Whole r := by
  unfold OrderBook.Whole Ladder.Whole
  cases haction : r.action with
  | new => exact Iff.rfl
  | cancel =>
      refine forall_congr' fun o => imp_congr h.indexes_iff ?_
      unfold Ladder.canceledQty
      by_cases hqty : r.qty = 0
      · simp [hqty]
      · simp [hqty]
  | modify =>
      refine forall_congr' fun o => imp_congr h.indexes_iff ?_
      refine imp_congr_right fun _ => imp_congr_right fun _ => ?_
      constructor
      · exact fun hclear o' ho' => hclear _ o' (h.rests ho')
      · exact fun hclear k o' ho' => hclear o' (h.mem_of_rests ho').1

theorem Rep.quotes_iff
    (h : Rep b A) (hnodup : (A.orders.map OrderInfo.marketOrderId).Nodup)
    {m : OrderId} {x : Quote} :
    quotes A.orders m = some x ↔ b.Quotes m x := by
  rw [quotes_eq_some hnodup]
  constructor
  · rintro ⟨o, ho, hm, hx⟩
    obtain ⟨s, hs⟩ := Ladder.mem_orders.mp ho
    exact ⟨s, _, o, h.rests hs, hm, hx⟩
  · rintro ⟨s, k, o, ho, hm, hx⟩
    exact ⟨o, Ladder.mem_orders_of_side (h.mem_of_rests ho).1, hm, hx⟩

end Books

/-- **The shadow book tracks the map books.**  In every run of fewer than
`2^63` requests in which accepted cancels are whole and accepted replacements
do not cross, the updates that the engine has sent make the shadow book of
each ticker quote exactly the resting orders, and no TRADE is unknown. -/
theorem shadow_book_tracks_books
    (P : Type) [ObjectPool P] (n poolSize : Nat) {rs : List MEClientRequest}
    (hfresh : FreshKeys rs) (hlen : rs.length < 2 ^ 63)
    (htickers : TickersInRange n rs)
    (hwhole : MatchingEngine.EachStep MapLevels P n poolSize
      OrderBook.Whole rs) :
    SucceedsWith (MatchingEngine.run MapLevels P n poolSize rs) fun e =>
      ∃ b, e.channel.updates.foldlM ShadowBook.applyToBook
          (ShadowBook.init n) = .ok b ∧
        b.unknownTrades = [] ∧
        ∀ t, t < n → ∃ orders book, b.shadowBook[t]? = some orders ∧
          e.tickerOrderBook[t]? = some book ∧
          ∀ m x, ShadowBook.view orders m = some x ↔ book.Quotes m x := by
  have hrun : SucceedsWith (MatchingEngine.run MapLevels P n poolSize rs)
      fun e => MatchingEngine.Represents n e (Market.run rs) :=
    MatchingEngine.run_refines P n poolSize hfresh htickers
      fun _ _ _ => trivial
  rcases hrun with hfull | ⟨e, he, hrep⟩
  · exact .inl hfull
  · refine .inr ⟨e, he, ?_⟩
    have hladder : Market.EachStep Ladder.Whole rs :=
      hwhole.ladder _ (fun _ _ _ hrep => hrep.whole_iff.mp) hfresh htickers
        (fun _ _ _ => trivial) he
    obtain ⟨hids, b, hb, hshows⟩ :=
      Market.run_shadow hfresh hlen htickers hladder
    refine ⟨b, by rw [hrep.sent]; exact hb, hshows.known, fun t ht => ?_⟩
    have ht' := hshows.tickers.symm ▸ ht
    have ht'' := hrep.books.symm ▸ ht
    refine ⟨_, _, List.getElem?_eq_getElem ht', List.getElem?_eq_getElem ht'',
      fun m x => ?_⟩
    rw [hshows.shown t _ (List.getElem?_eq_getElem ht')]
    exact (hrep.book t _ (List.getElem?_eq_getElem ht'')).quotes_iff
      (hids t).nodup

/-- An ask that is partly taken, and an order of another ticker that is
canceled: the shadow books quote what is left. -/
theorem shadow_book_tracks_books_example :
    (MatchingEngine.run MapLevels ScanPool 2 4
        [.make .new 1 0 1 .goodTillCancel .sell 100 5,
          .make .new 2 0 1 .goodTillCancel .buy 101 3,
          .make .new 2 1 2 .goodTillCancel .buy 50 4,
          .make .cancel 2 1 2 .goodTillCancel .buy 50 0]).isOk = true ∧
      SucceedsWith (MatchingEngine.run MapLevels ScanPool 2 4
        [.make .new 1 0 1 .goodTillCancel .sell 100 5,
          .make .new 2 0 1 .goodTillCancel .buy 101 3,
          .make .new 2 1 2 .goodTillCancel .buy 50 4,
          .make .cancel 2 1 2 .goodTillCancel .buy 50 0]) fun e =>
        ∃ b, e.channel.updates.foldlM ShadowBook.applyToBook
            (ShadowBook.init 2) = .ok b ∧
          b.unknownTrades = [] ∧
          ∀ t, t < 2 → ∃ orders book, b.shadowBook[t]? = some orders ∧
            e.tickerOrderBook[t]? = some book ∧
            ∀ m x, ShadowBook.view orders m = some x ↔ book.Quotes m x := by
  refine ⟨by decide, shadow_book_tracks_books ScanPool 2 4 (by decide)
    (by decide) (by decide) ?_⟩
  intro pre r post e b hsplit _ _
  have hmem : r ∈ pre ++ r :: post := by simp
  rw [← hsplit] at hmem
  simp only [List.mem_cons, List.not_mem_nil, or_false] at hmem
  rcases hmem with rfl | rfl | rfl | rfl
  · trivial
  · trivial
  · trivial
  · exact fun _ _ _ => .inl rfl

end NanoExchange
