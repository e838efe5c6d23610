import NanoExchange.Engine.Cancels
import NanoExchange.Network.ShadowRefinement

/-!
# Where the shadow book leaves the market

A partial cancel and a replacement that trades are the two requests after
which the published updates no longer describe the resting orders.

The CANCEL update of a partial cancel is applied as the removal of the order,
which still rests.  The MODIFY update of a replacement lists it with its full
quantity before it is matched, and its own fills are never published: a trade
takes shares from the resting side alone.  What repairs the latter is the
CANCEL of a killed remainder, so that only a FillAndKill replacement that is
not filled leaves the shadow book right.
-/

namespace NanoExchange

open Lib

namespace OrderBook

variable {Lv P : Type} [LevelTable Lv]

/-- Market order ids tell the resting orders apart, and the next one is not in
use.  The counter has 64 bits, so this may fail once it has come round. -/
structure IdsApart (b : OrderBook Lv P) : Prop where
  distinct : ∀ {s k o s' k' o'}, b.Rests s k o → b.Rests s' k' o' →
    o.marketOrderId = o'.marketOrderId → o = o'
  unused : ∀ {s k o}, b.Rests s k o → o.marketOrderId ≠ b.nextMarketOrderId

end OrderBook

/-- The shadow book of ticker `t` quotes exactly the resting orders of `b`. -/
def ShadowBook.Agrees {Lv P : Type} [LevelTable Lv] (sb : ShadowBook)
    (t : TickerId) (b : OrderBook Lv P) : Prop :=
  ∃ orders, sb.shadowBook[t]? = some orders ∧
    ∀ m x, ShadowBook.view orders m = some x ↔ b.Quotes m x

namespace Ladder

variable {A : Ladder}

/-- What is within a limit has shares. -/
theorem available_pos
    (hwf : A.WF) {s : Side} {price : Price} (hcross : ¬ A.Clear s price) :
    0 < A.available s price := by
  refine Nat.pos_of_ne_zero fun hzero => hcross fun o ho hcr => ?_
  refine (hwf.side_pos _ o ho).ne'
    (List.sum_eq_zero_iff_forall_eq_nat.mp hzero _ ?_)
  exact List.mem_map_of_mem (List.mem_filter.mpr ⟨ho, by simpa using hcr⟩)

/-- The trades of an incoming order, in the quotes of the ladder and of an
order that is listed besides. -/
theorem quotes_swept_cons
    (hwf : A.WF) (n : OrderId) (a : OrderArgs) {o : OrderInfo}
    (hnodup : ((o :: A.orders).map OrderInfo.marketOrderId).Nodup) :
    (published (A.sweepBy n a).fills).foldlM quoteStep
        (quotes (o :: A.orders)) =
      some (quotes (o :: (A.swept n a).orders)) := by
  have hperm : ∀ B : Ladder, (o :: B.orders).Perm
      (B.side a.side.opposite ++ o :: B.side a.side) := fun B =>
    ((B.orders_perm a.side).cons o).trans List.perm_middle.symm
  have hnodup' : ((o :: (A.swept n a).orders).map
      OrderInfo.marketOrderId).Nodup := by
    refine hnodup.sublist (List.Sublist.cons_cons _ ?_)
    exact (trims_swept hwf n a).orders.map_sublist _ fun _ _ => rfl
  have hswept := hperm (A.swept n a)
  rw [swept_side_opposite, swept_side_self] at hswept
  rw [quotes_perm (hperm A) hnodup, quotes_perm hswept hnodup']
  exact sweep_quotes a n a.initialQuantity
    (((hperm A).map _).nodup_iff.mp hnodup)

/-- A replacement is listed with its full quantity, and the trades leave that
entry alone. -/
theorem quotes_modified_swept
    (hwf : A.WF) (hnodup : (A.orders.map OrderInfo.marketOrderId).Nodup)
    (n : OrderId) {old : OrderInfo} (ho : old ∈ A.orders) {a : OrderArgs}
    (hnew : ∀ o ∈ A.orders, o.marketOrderId ≠ a.marketOrderId)
    (es : List Event) :
    (published (.modified a old ::
        (((A.erase old.key).bump.sweepBy n a).fills ++ es))).foldlM quoteStep
          (quotes A.orders) =
      (published es).foldlM quoteStep
        (quotes (a.toInfo :: ((A.erase old.key).bump.swept n a).orders)) := by
  set B := (A.erase old.key).bump with hB
  have htrims : A.Trims (A.erase old.key) := trims_erase hwf old.key
  have hmodify : quoteStep (quotes A.orders)
      (modifyUpdate a old.marketOrderId) =
        some (quotes (a.toInfo :: B.orders)) := by
    rw [quotes_cons, show B.orders = (A.erase old.key).orders from rfl,
      quotes_erase hwf hnodup ho]
    rfl
  have hnodupB : ((a.toInfo :: B.orders).map
      OrderInfo.marketOrderId).Nodup := by
    refine List.nodup_cons.mpr ⟨fun hmem => ?_, ?_⟩
    · obtain ⟨o, ho', heq⟩ := List.mem_map.mp hmem
      exact htrims.ids_ne hnew o ho' heq
    · exact hnodup.sublist (htrims.orders.map_sublist _ fun _ _ => rfl)
  have hswept := quotes_swept_cons (wf_erase_bump hwf old.key) n a hnodupB
  rw [published_modified, published_append, List.foldlM_cons, hmodify,
    Option.bind_eq_bind, Option.bind_some, List.foldlM_append, hswept]
  rfl

/-- **What the updates of a replacement that trades make of the quotes**: they
are those of the ladder exactly if a remainder of the replacement is killed. -/
theorem crossing_replace_quotes
    (hwf : A.WF) (hnodup : (A.orders.map OrderInfo.marketOrderId).Nodup)
    (n : OrderId) {old : OrderInfo} (ho : old ∈ A.orders) {a : OrderArgs}
    (hside : a.side = old.side)
    (hnew : ∀ o ∈ A.orders, o.marketOrderId ≠ a.marketOrderId)
    (hqty : a.initialQuantity ≠ 0) (hcross : ¬ A.Clear a.side a.price) :
    ∃ f, (published (.modified a old ::
        ((A.erase old.key).bump.enter n true a).events)).foldlM quoteStep
          (quotes A.orders) = some f ∧
      (((A.erase old.key).bump.enter n true a).ladder.orders.map
        OrderInfo.marketOrderId).Nodup ∧
      (f = quotes ((A.erase old.key).bump.enter n true a).ladder.orders ↔
        a.orderType = .fillAndKill ∧
          A.available a.side a.price < a.initialQuantity) := by
  set B := (A.erase old.key).bump with hB
  have hBwf : B.WF := wf_erase_bump hwf old.key
  have htrims : A.Trims (B.swept n a) :=
    ((trims_erase hwf old.key).trans
      (trims_bump ((trims_erase hwf old.key).wf hwf))).trans
        (trims_swept hBwf n a)
  have hopposite : B.side a.side.opposite = A.side a.side.opposite := by
    rw [hside]
    exact erase_side_opposite hwf ho
  have hrem : (B.sweepBy n a).remaining =
      a.initialQuantity - A.available a.side a.price := by
    rw [sweepBy_remaining hBwf, available, available, hopposite]
  have hlt : (B.sweepBy n a).remaining < a.initialQuantity := by
    have hpos := available_pos hwf hcross
    lia
  have hnewS : ∀ o ∈ (B.swept n a).orders,
      o.marketOrderId ≠ a.marketOrderId := htrims.ids_ne hnew
  have hnodupS : ((B.swept n a).orders.map OrderInfo.marketOrderId).Nodup :=
    hnodup.sublist (htrims.orders.map_sublist _ fun _ _ => rfl)
  have hlisted : quotes (a.toInfo :: (B.swept n a).orders) =
      Function.update (quotes (B.swept n a).orders) a.marketOrderId
        (some a.toInfo.quote) := quotes_cons _ _
  have hfold := quotes_modified_swept hwf hnodup n ho hnew
  rcases B.enter_cases n true a with
    ⟨hzero, heq⟩ | ⟨hrest, htype, heq⟩ | ⟨hrest, htype, heq⟩
  · refine ⟨_, by rw [heq, ← List.append_nil (B.sweepBy n a).fills, hfold]; rfl,
      by rwa [heq], ?_⟩
    rw [heq]
    refine ⟨fun hf => ?_, fun h => ?_⟩
    · have hat := congrFun (hlisted.symm.trans hf) a.marketOrderId
      rw [Function.update_self, quotes_eq_none hnewS] at hat
      cases hat
    · lia
  · have hinsert := quotes_insert hnodupS
      (o := { a with initialQuantity := (B.sweepBy n a).remaining }.toInfo)
      hnewS
    refine ⟨_, by rw [heq, hfold]; rfl, ?_, ?_⟩
    · rw [heq, ((insert_orders_perm _ _).map _).nodup_iff]
      refine List.nodup_cons.mpr ⟨fun hmem => ?_, hnodupS⟩
      obtain ⟨o, ho', hid⟩ := List.mem_map.mp hmem
      exact hnewS o ho' hid
    · rw [heq]
      refine ⟨fun hf => ?_, fun h => ?_⟩
      · have hat := congrFun ((hlisted.symm.trans hf).trans hinsert)
          a.marketOrderId
        rw [Function.update_self] at hat
        have hat' : some a.toInfo.quote = some { a with
            initialQuantity := (B.sweepBy n a).remaining }.toInfo.quote := by
          rw [hat]
          exact Function.update_self _ _ _
        exact absurd (congrArg Quote.qty (Option.some.inj hat')) hlt.ne'
      · exact absurd (htype.symm.trans h.1) (by decide)
  · refine ⟨_, by rw [heq, hfold]; rfl, by rwa [heq], ?_⟩
    rw [heq]
    refine ⟨fun _ => ⟨htype, by lia⟩, fun _ => ?_⟩
    show Function.update (quotes (a.toInfo :: (B.swept n a).orders))
      a.marketOrderId none = quotes (B.swept n a).orders
    rw [hlisted, Function.update_idem, ← quotes_eq_none hnewS]
    exact Function.update_eq_self _ _

end Ladder

/-- An order that rests and is not shown. -/
theorem ShadowBook.not_agrees
    {Lv P : Type} [LevelTable Lv] {b : OrderBook Lv P} {sb : ShadowBook}
    {t : TickerId} {m : OrderId} {x : Quote} (hquotes : b.Quotes m x)
    (hnone : ∀ orders, sb.shadowBook[t]? = some orders →
      view orders m = none) :
    ¬ sb.Agrees t b := by
  rintro ⟨orders, horders, hview⟩
  cases (hnone orders horders).symm.trans ((hview m x).mpr hquotes)

section Books

variable {P : Type} [ObjectPool P] {b : MapBook P} {A : Ladder}

namespace Rep

theorem nodup_ids
    (h : Rep b A) (hwf : A.WF) (hapart : b.IdsApart) :
    (A.orders.map OrderInfo.marketOrderId).Nodup := by
  refine List.Nodup.map_on (fun o ho o' ho' heq => ?_)
    (List.Nodup.of_map _ hwf.keys)
  obtain ⟨s, hs⟩ := Ladder.mem_orders.mp ho
  obtain ⟨s', hs'⟩ := Ladder.mem_orders.mp ho'
  exact hapart.distinct (h.rests hs) (h.rests hs') heq

theorem unused_id
    (h : Rep b A) (hapart : b.IdsApart) :
    ∀ o ∈ A.orders, o.marketOrderId ≠ A.nextMarketOrderId := by
  intro o ho
  obtain ⟨s, hs⟩ := Ladder.mem_orders.mp ho
  rw [← h.next]
  exact hapart.unused (h.rests hs)

/-- Ids are apart while the counter has not come round. -/
theorem idsApart
    (h : Rep b A) (hids : A.Ids) :
    b.IdsApart where
  distinct ho ho' heq :=
    List.inj_on_of_nodup_map hids.nodup
      (Ladder.mem_orders_of_side (h.mem_of_rests ho).1)
      (Ladder.mem_orders_of_side (h.mem_of_rests ho').1) heq
  unused ho := by
    rw [h.next]
    exact (hids.below _ (Ladder.mem_orders_of_side (h.mem_of_rests ho).1)).ne

/-- To agree is to quote the orders of the ladder. -/
theorem agrees_iff
    (h : Rep b A) (hnodup : (A.orders.map OrderInfo.marketOrderId).Nodup)
    {sb : ShadowBook} {t : TickerId} :
    sb.Agrees t b ↔ ∃ orders, sb.shadowBook[t]? = some orders ∧
      ShadowBook.view orders = quotes A.orders := by
  refine exists_congr fun orders => and_congr_right fun _ => ?_
  simp only [← h.quotes_iff hnodup]
  constructor
  · exact fun hview => funext fun m => Option.ext (hview m)
  · rintro hview m x
    rw [hview]

/-- **A partial cancel**: the update removes the order, which still rests. -/
theorem partial_cancel
    (h : Rep b A) (hwf : A.WF) {ch : Channel} {r : MEClientRequest}
    (haction : r.action = .cancel) {o : OrderInfo}
    (ho : b.Indexes r.clientId r.clientOrderId o) (hpos : 0 < r.qty)
    (hlt : r.qty < o.remainingQuantity) {sb : ShadowBook}
    (hagrees : sb.Agrees r.tickerId b) {b' : MapBook P} {ch' : Channel}
    (hstep : b.processRequest ch r = .ok (b', ch')) :
    ∃ us sb', ch'.updates = ch.updates ++ us ∧
      us.foldlM ShadowBook.applyToBook sb = .ok sb' ∧
      b'.Quotes o.marketOrderId ⟨o.side, o.price, o.remainingQuantity - r.qty⟩ ∧
      ∀ orders, sb'.shadowBook[r.tickerId]? = some orders →
        ShadowBook.view orders o.marketOrderId = none := by
  have hfind := h.indexes_iff.mp ho
  obtain ⟨hmem, -⟩ := Ladder.mem_of_find? hfind
  have hcanceled : Ladder.canceledQty r o = r.qty := if_neg hpos.ne'
  have hfresh : A.Fresh r := by
    simp [Ladder.Fresh, MEClientRequest.newKey, haction]
  have hperf := h.processRequest hwf ch (fun _ => trivial) hfresh
  rw [Ladder.step_cancel_found _ haction hfind, hcanceled,
    if_neg (not_lt.mpr hlt.le)] at hperf
  obtain ⟨hrep, rfl⟩ := hperf.of_ok hstep
  obtain ⟨orders, horders, -⟩ := hagrees
  set u := cancelUpdate r.tickerId o.marketOrderId o.side o.price r.qty
  have hstep : quoteStep (ShadowBook.view orders) u = some
      (Function.update (ShadowBook.view orders) o.marketOrderId none) := rfl
  obtain ⟨sb', orders', happly, horders', hview⟩ :=
    ShadowBook.applyAll_of_steps (t := r.tickerId)
      (show ∀ v ∈ [u], v.tickerId = r.tickerId from
        List.forall_mem_singleton.mpr rfl) horders
      (by rw [List.foldlM_cons, hstep]; rfl)
  refine ⟨[u], sb', ?_, happly, ?_, ?_⟩
  · show List.filterMap _ (_ ++ _) = _
    rw [List.filterMap_append]
    rfl
  · have hleft : (o.withRemaining (o.remainingQuantity - r.qty)) ∈
        (A.withdraw o r.qty).orders := by
      refine (A.mem_withdraw hlt.le).mpr ⟨o, hmem, ?_⟩
      rw [OrderInfo.afterCancel, if_pos rfl, if_neg hlt.ne]
    obtain ⟨s, hs⟩ := Ladder.mem_orders.mp hleft
    exact ⟨s, _, _, hrep.rests hs, rfl, rfl⟩
  · intro orders₁ h₁
    obtain rfl := Option.some.inj (h₁.symm.trans horders')
    rw [hview]
    exact Function.update_self _ _ _

/-- **A replacement that trades**: the updates leave the shadow book right
exactly if a remainder of the replacement is killed. -/
theorem crossing_replace
    (h : Rep b A) (hwf : A.WF) (hapart : b.IdsApart) {ch : Channel}
    {r : MEClientRequest} (hfresh : A.Fresh r) (haction : r.action = .modify)
    {old : OrderInfo} (hold : b.Indexes r.clientId r.clientOrderId old)
    (hid : r.newClientOrderId ≠ 0) (hqty : r.qty ≠ 0) {l : List OrderInfo}
    (hl : b.Lists old.side.opposite l)
    (hcross : ∃ o ∈ l, old.side.crosses r.price o.price) {sb : ShadowBook}
    (hagrees : sb.Agrees r.tickerId b) {b' : MapBook P} {ch' : Channel}
    (hstep : b.processRequest ch r = .ok (b', ch')) :
    ∃ us sb', ch'.updates = ch.updates ++ us ∧
      us.foldlM ShadowBook.applyToBook sb = .ok sb' ∧
      (sb'.Agrees r.tickerId b' ↔ r.type = .fillAndKill ∧
        ((l.filter fun o => old.side.crosses r.price o.price).map
          OrderInfo.remainingQuantity).sum < r.qty) := by
  have hfind := h.indexes_iff.mp hold
  obtain ⟨ho, -⟩ := Ladder.mem_of_find? hfind
  obtain rfl := hl.unique (h.lists _)
  have hnodup := h.nodup_ids hwf hapart
  have hclear : ¬ A.Clear old.side r.price := by
    obtain ⟨o, hmem, hcr⟩ := hcross
    exact fun hclear => hclear o hmem hcr
  obtain ⟨f, hfold, hnodup', hiff⟩ := Ladder.crossing_replace_quotes hwf hnodup
    ch.matchIds ho (a := A.replacementArgs r old.side) rfl (h.unused_id hapart)
    hqty hclear
  have hperf := h.processRequest hwf ch (fun _ => trivial) hfresh
  have hevents := A.step_events_tickerId ch.matchIds r
  rw [Ladder.step_modify_found _ haction hfind,
    if_neg (not_or.mpr ⟨hid, hqty⟩)] at hperf hevents
  obtain ⟨hrep, rfl⟩ := hperf.of_ok hstep
  obtain ⟨orders, horders, hview⟩ := (h.agrees_iff hnodup).mp hagrees
  rw [← hview] at hfold
  obtain ⟨sb', orders', happly, horders', hview'⟩ :=
    ShadowBook.applyAll_of_steps (t := r.tickerId) (fun u hu => by
      obtain ⟨e, he, hu⟩ := List.mem_flatMap.mp hu
      rw [e.updates_tickerId _ u hu]
      exact hevents e he) horders hfold
  refine ⟨_, sb', ?_, happly, ?_⟩
  · show List.filterMap _ (_ ++ _) = _
    rw [List.filterMap_append, List.filterMap_flatMap]
    rfl
  · refine Iff.trans ?_ hiff
    rw [hrep.agrees_iff hnodup']
    constructor
    · rintro ⟨orders₁, h₁, hview₁⟩
      obtain rfl := Option.some.inj (h₁.symm.trans horders')
      exact hview'.symm.trans hview₁
    · exact fun hf => ⟨orders', horders', hview'.trans hf⟩

end Rep

end Books

section Quoted

/-- An ask and a bid that does not reach it. -/
def quotedOrders : List MEClientRequest :=
  [.make .new 1 0 1 .goodTillCancel .sell 100 5,
    .make .new 2 0 1 .goodTillCancel .buy 90 4]

/-- Two of the five shares of the ask are withdrawn. -/
def cancelOfAsk : MEClientRequest :=
  .make .cancel 1 0 1 .goodTillCancel .sell 100 2

/-- The bid is replaced by one for `q` shares at the price of the ask. -/
def replaceOfBid (type : OrderType) (q : Quantity) : MEClientRequest :=
  { MEClientRequest.make .modify 2 0 1 type .buy 100 q with
    newClientOrderId := 2 }

theorem freshKeys_quotedOrders : FreshKeys quotedOrders := by
  decide

/-- The shadow book shows the ask and the bid. -/
theorem quotedOrders_shown
    {s : MapBook ScanPool × Channel}
    (hs : OrderBook.run MapLevels ScanPool 4 1 quotedOrders = .ok s) :
    ∃ sb, s.2.updates.foldlM ShadowBook.applyToBook (ShadowBook.init 1) =
        .ok sb ∧
      sb.Agrees 0 s.1 := by
  have hone : FreshKeys (quotedOrders.take 1) := by
    decide
  have hask := Ladder.step_quotes Ladder.WF.empty Ladder.Ids.empty 1
    (r := .make .new 1 0 1 .goodTillCancel .sell 100 5) trivial (by decide)
  have hbid := Ladder.step_quotes (Ladder.run_wf 1 hone)
    (Ladder.run_ids 1 hone (by decide)) 1
    (r := .make .new 2 0 1 .goodTillCancel .buy 90 4) trivial (by decide)
  have hfold : (Ladder.published (Ladder.run 1 quotedOrders).events).foldlM
      quoteStep (quotes []) =
        some (quotes (Ladder.run 1 quotedOrders).ladder.orders) := by
    show (Ladder.published (_ ++ _)).foldlM _ _ = _
    rw [Ladder.published_append, List.foldlM_append]
    exact (congrArg (· >>= _) hask).trans hbid
  obtain ⟨hrep, hsent⟩ :=
    (MapBook.run_refines ScanPool 4 1 freshKeys_quotedOrders).of_ok hs
  have hupdates : s.2.updates =
      Ladder.published (Ladder.run 1 quotedOrders).events := by
    rw [hsent]
    exact List.filterMap_flatMap
  have hempty : (ShadowBook.init 1).shadowBook[0]? = some ∅ := rfl
  obtain ⟨sb, orders, happly, horders, hview⟩ :=
    ShadowBook.applyAll_of_steps (by decide) hempty hfold
  rw [hupdates]
  refine ⟨sb, happly, ?_⟩
  exact (hrep.agrees_iff (Ladder.run_ids 1 freshKeys_quotedOrders
    (by decide)).nodup).mpr ⟨orders, horders, hview⟩

theorem cancelOfAsk_accepted :
    ∃ s o s', OrderBook.run MapLevels ScanPool 4 1 quotedOrders = .ok s ∧
      s.1.Indexes 1 1 o ∧ 2 < o.remainingQuantity ∧
      s.1.processRequest s.2 cancelOfAsk = .ok s' :=
  ⟨_, _, _, rfl, ⟨_, rfl, rfl⟩, Nat.lt_of_sub_eq_succ rfl, rfl⟩

end Quoted

section Drift

variable (P : Type) [ObjectPool P] (size : Nat) (n : OrderId)

/-- **A partial cancel always unlists its order.**  From every map book that a
run leads to, and every shadow book that agrees with it, the updates of an
accepted cancel of some but not all shares of an order take the order out of
the shadow book, while it rests with the shares that are left. -/
theorem partial_cancel_unlists
    {rs : List MEClientRequest} (hfresh : FreshKeys rs) {b : MapBook P}
    {ch : Channel} (hrun : OrderBook.run MapLevels P size n rs = .ok (b, ch))
    {sb : ShadowBook} {r : MEClientRequest}
    (hagrees : sb.Agrees r.tickerId b) (haction : r.action = .cancel)
    {o : OrderInfo} (ho : b.Indexes r.clientId r.clientOrderId o)
    (hpos : 0 < r.qty) (hlt : r.qty < o.remainingQuantity) {b' : MapBook P}
    {ch' : Channel} (hstep : b.processRequest ch r = .ok (b', ch')) :
    ∃ us sb', ch'.updates = ch.updates ++ us ∧
      us.foldlM ShadowBook.applyToBook sb = .ok sb' ∧
      b'.Quotes o.marketOrderId
        ⟨o.side, o.price, o.remainingQuantity - r.qty⟩ ∧
      (∀ orders, sb'.shadowBook[r.tickerId]? = some orders →
        ShadowBook.view orders o.marketOrderId = none) ∧
      ¬ sb'.Agrees r.tickerId b' := by
  obtain ⟨hrep, -⟩ := (MapBook.run_refines P size n hfresh).of_ok hrun
  obtain ⟨us, sb', hus, happly, hquotes, hnone⟩ := hrep.partial_cancel
    (Ladder.run_wf n hfresh) haction ho hpos hlt hagrees hstep
  exact ⟨us, sb', hus, happly, hquotes, hnone,
    ShadowBook.not_agrees hquotes hnone⟩

/-- Two shares of an ask of five are withdrawn: the other three rest, and are
not listed. -/
theorem partial_cancel_breaks_shadow :
    ∃ s sb s' us sb',
      OrderBook.run MapLevels ScanPool 4 1 quotedOrders = .ok s ∧
      s.2.updates.foldlM ShadowBook.applyToBook (ShadowBook.init 1) = .ok sb ∧
      sb.Agrees 0 s.1 ∧ s.1.processRequest s.2 cancelOfAsk = .ok s' ∧
      s'.2.updates = s.2.updates ++ us ∧
      us.foldlM ShadowBook.applyToBook sb = .ok sb' ∧
      ¬ sb'.Agrees 0 s'.1 := by
  obtain ⟨s, o, s', hs, ho, hlt, hstep⟩ := cancelOfAsk_accepted
  obtain ⟨sb, happly, hagrees⟩ := quotedOrders_shown hs
  obtain ⟨hrep, -⟩ :=
    (MapBook.run_refines ScanPool 4 1 freshKeys_quotedOrders).of_ok hs
  obtain ⟨us, sb', hus, happly', hquotes, hnone⟩ := hrep.partial_cancel
    (r := cancelOfAsk) (Ladder.run_wf 1 freshKeys_quotedOrders) rfl ho
    (by decide) hlt hagrees hstep
  exact ⟨s, sb, s', us, sb', hs, happly, hagrees, hstep, hus, happly',
    ShadowBook.not_agrees hquotes hnone⟩

theorem partial_cancel_unlists_example :
    ∃ s sb o s', OrderBook.run MapLevels ScanPool 4 1 quotedOrders = .ok s ∧
      sb.Agrees 0 s.1 ∧ s.1.Indexes 1 1 o ∧
      s.1.processRequest s.2 cancelOfAsk = .ok s' ∧
      ∃ us sb', s'.2.updates = s.2.updates ++ us ∧
        us.foldlM ShadowBook.applyToBook sb = .ok sb' ∧
        s'.1.Quotes o.marketOrderId
          ⟨o.side, o.price, o.remainingQuantity - 2⟩ ∧
        (∀ orders, sb'.shadowBook[0]? = some orders →
          ShadowBook.view orders o.marketOrderId = none) ∧
        ¬ sb'.Agrees 0 s'.1 := by
  obtain ⟨s, o, s', hs, ho, hlt, hstep⟩ := cancelOfAsk_accepted
  obtain ⟨sb, -, hagrees⟩ := quotedOrders_shown hs
  exact ⟨s, sb, o, s', hs, hagrees, ho, hstep,
    partial_cancel_unlists ScanPool 4 1 freshKeys_quotedOrders hs
      (r := cancelOfAsk) hagrees rfl ho (by decide) hlt hstep⟩

/-- **A replacement that trades leaves the shadow book right exactly if** it is
FillAndKill and wants more shares than there are within its limit. -/
theorem crossing_replace_listed_iff
    {rs : List MEClientRequest} {r : MEClientRequest}
    (hfresh : FreshKeys (rs ++ [r])) {b : MapBook P} {ch : Channel}
    (hrun : OrderBook.run MapLevels P size n rs = .ok (b, ch))
    {sb : ShadowBook} (hagrees : sb.Agrees r.tickerId b)
    (haction : r.action = .modify) {old : OrderInfo}
    (hold : b.Indexes r.clientId r.clientOrderId old)
    (hid : r.newClientOrderId ≠ 0) (hqty : r.qty ≠ 0) {l : List OrderInfo}
    (hl : b.Lists old.side.opposite l)
    (hcross : ∃ o ∈ l, old.side.crosses r.price o.price) {b' : MapBook P}
    {ch' : Channel} (hstep : b.processRequest ch r = .ok (b', ch')) :
    (rs.length + 1 < wordSize → b.IdsApart) ∧
    (b.IdsApart → ∃ us sb', ch'.updates = ch.updates ++ us ∧
      us.foldlM ShadowBook.applyToBook sb = .ok sb' ∧
      (sb'.Agrees r.tickerId b' ↔ r.type = .fillAndKill ∧
        ((l.filter fun o => old.side.crosses r.price o.price).map
          OrderInfo.remainingQuantity).sum < r.qty)) := by
  have hfresh' : FreshKeys rs :=
    hfresh.sublist ((List.sublist_append_left rs [r]).filterMap _)
  obtain ⟨hrep, -⟩ := (MapBook.run_refines P size n hfresh').of_ok hrun
  constructor
  · exact fun hlen => hrep.idsApart (Ladder.run_ids n hfresh' hlen)
  · exact fun hapart => hrep.crossing_replace (Ladder.run_wf n hfresh') hapart
      (Ladder.run_fresh n hfresh) haction hold hid hqty hl hcross hagrees hstep

end Drift

/-- A bid for four shares is replaced by one that the ask of five fills: the
replacement is gone, and is listed with its four shares. -/
theorem crossing_replace_breaks_shadow :
    ∃ s sb s' us sb',
      OrderBook.run MapLevels ScanPool 4 1 quotedOrders = .ok s ∧
      s.2.updates.foldlM ShadowBook.applyToBook (ShadowBook.init 1) = .ok sb ∧
      sb.Agrees 0 s.1 ∧
      s.1.processRequest s.2 (replaceOfBid .goodTillCancel 4) = .ok s' ∧
      s'.2.updates = s.2.updates ++ us ∧
      us.foldlM ShadowBook.applyToBook sb = .ok sb' ∧
      ¬ sb'.Agrees 0 s'.1 := by
  obtain ⟨s, o, s', hs, ho, hside, hstep⟩ : ∃ s o s',
      OrderBook.run MapLevels ScanPool 4 1 quotedOrders = .ok s ∧
      s.1.Indexes 2 1 o ∧ o.side = .buy ∧
      s.1.processRequest s.2 (replaceOfBid .goodTillCancel 4) = .ok s' :=
    ⟨_, _, _, rfl, ⟨_, rfl, rfl⟩, rfl, rfl⟩
  obtain ⟨sb, happly, hagrees⟩ := quotedOrders_shown hs
  have hfresh : FreshKeys (quotedOrders ++ [replaceOfBid .goodTillCancel 4]) := by
    decide
  have hids := Ladder.run_ids 1 freshKeys_quotedOrders (by decide)
  obtain ⟨hrep, -⟩ :=
    (MapBook.run_refines ScanPool 4 1 freshKeys_quotedOrders).of_ok hs
  obtain ⟨us, sb', hus, happly', hiff⟩ := hrep.crossing_replace
    (Ladder.run_wf 1 freshKeys_quotedOrders) (hrep.idsApart hids)
    (Ladder.run_fresh 1 hfresh) rfl ho (by decide) (by decide)
    (hrep.lists _) (by rw [hside]; decide) hagrees hstep
  exact ⟨s, sb, s', us, sb', hs, happly, hagrees, hstep, hus, happly',
    fun h => absurd (hiff.mp h).1 (by decide)⟩

/-- A FillAndKill replacement for seven shares takes the five of the ask. -/
theorem crossing_replace_listed_iff_example :
    ∃ s sb o l s', OrderBook.run MapLevels ScanPool 4 1 quotedOrders = .ok s ∧
      sb.Agrees 0 s.1 ∧ s.1.Indexes 2 1 o ∧ s.1.Lists o.side.opposite l ∧
      s.1.processRequest s.2 (replaceOfBid .fillAndKill 7) = .ok s' ∧
      (2 + 1 < wordSize → s.1.IdsApart) ∧
      (s.1.IdsApart → ∃ us sb', s'.2.updates = s.2.updates ++ us ∧
        us.foldlM ShadowBook.applyToBook sb = .ok sb' ∧
        (sb'.Agrees 0 s'.1 ↔ OrderType.fillAndKill = .fillAndKill ∧
          ((l.filter fun o' => o.side.crosses 100 o'.price).map
            OrderInfo.remainingQuantity).sum < 7)) := by
  obtain ⟨s, o, s', hs, ho, hside, hstep⟩ : ∃ s o s',
      OrderBook.run MapLevels ScanPool 4 1 quotedOrders = .ok s ∧
      s.1.Indexes 2 1 o ∧ o.side = .buy ∧
      s.1.processRequest s.2 (replaceOfBid .fillAndKill 7) = .ok s' :=
    ⟨_, _, _, rfl, ⟨_, rfl, rfl⟩, rfl, rfl⟩
  obtain ⟨sb, -, hagrees⟩ := quotedOrders_shown hs
  obtain ⟨hrep, -⟩ :=
    (MapBook.run_refines ScanPool 4 1 freshKeys_quotedOrders).of_ok hs
  exact ⟨s, sb, o, _, s', hs, hagrees, ho, hrep.lists _, hstep,
    crossing_replace_listed_iff ScanPool 4 1
      (show FreshKeys (quotedOrders ++ [replaceOfBid .fillAndKill 7]) by decide)
      hs hagrees rfl ho (by decide) (by decide) (hrep.lists _)
      (by rw [hside]; decide) hstep⟩

end NanoExchange
