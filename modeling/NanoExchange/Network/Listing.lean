import NanoExchange.Network.Overlay
import NanoExchange.Network.ShadowDrift

/-!
# What the feed lists

In every run, also in one with partial cancels and with replacements that trade.
Two things come between the books and what the updates tell.  The CANCEL of a
partial cancel delists an order that still rests.  And a MODIFY lists a
replacement with all its shares before it is matched; those that it trades then
are told to its owner only, and stay in the feed as a surplus.

`listed` is what the events of a ticker make of the quotes of its resting orders:
what has been delisted is not shown, and a surplus is added.  The shadow book
shows just that (`Market.run_listed`), so it is in step with the books if and
only if nothing that rests has been delisted and no entry has a surplus
(`feed_lists_orders`).
-/

namespace NanoExchange

open Lib ShadowBook

namespace Event

/-- The order that is gone, as the feed is told. -/
def delists : Event → Option OrderId
  | .canceled _ o _ => some o.marketOrderId
  | .modified _ old => some old.marketOrderId
  | .killed replacing a _ => if replacing then some a.marketOrderId else none
  | .accepted _ | .filled _ _ _ _ _ | .rested _ _ _ | .excessive _ _
  | .unknown _ _ _ _ => none

/-- The replacement that comes in as order `m`. -/
def bringsIn (m : OrderId) : Event → Option OrderArgs
  | .modified a _ => if a.marketOrderId = m then some a else none
  | .accepted _ | .filled _ _ _ _ _ | .rested _ _ _ | .killed _ _ _
  | .canceled _ _ _ | .excessive _ _ | .unknown _ _ _ _ => none

/-- The shares that the incoming order `m` trades. -/
def taken (m : OrderId) : Event → Quantity
  | .filled a _ fill _ _ => if a.marketOrderId = m then fill else 0
  | .accepted _ | .modified _ _ | .rested _ _ _ | .killed _ _ _
  | .canceled _ _ _ | .excessive _ _ | .unknown _ _ _ _ => 0

/-- Nothing happens to what the feed lists for order `m`, but for trades with
it. -/
structure Silent (m : OrderId) (e : Event) : Prop where
  delists : e.delists ≠ some m
  bringsIn : e.bringsIn m = none
  taken : e.taken m = 0

end Event

/-- The orders that some events delist. -/
def delisted (es : List Event) : List OrderId :=
  es.filterMap Event.delists

/-- The shares that order `m` has traded when it came in. -/
def takenShares (es : List Event) (m : OrderId) : Quantity :=
  (es.map (Event.taken m)).sum

/-- The shares that replacements have traded when they came in. -/
def surplus (es : List Event) : Quotes := fun m =>
  (es.findSome? (Event.bringsIn m)).bind fun a =>
    if takenShares es m = 0 then none
    else some ⟨a.side, a.price, takenShares es m⟩

/-- **What the feed lists** when the orders `l` rest after some events. -/
def listed (es : List Event) (l : List OrderInfo) : Quotes :=
  overlay (delisted es) (surplus es) (quotes l)

section Events

variable {es es' : List Event} {m : OrderId}

theorem delisted_append : delisted (es ++ es') = delisted es ++ delisted es' :=
  List.filterMap_append

theorem not_mem_delisted (h : ∀ e ∈ es, e.Silent m) : m ∉ delisted es := by
  intro hm
  obtain ⟨e, he, heq⟩ := List.mem_filterMap.mp hm
  exact (h e he).delists heq

theorem bringsIn_eq_none (h : ∀ e ∈ es, e.Silent m) :
    es.findSome? (Event.bringsIn m) = none :=
  List.findSome?_eq_none_iff.mpr fun e he => (h e he).bringsIn

theorem takenShares_append :
    takenShares (es ++ es') m = takenShares es m + takenShares es' m := by
  rw [takenShares, List.map_append, List.sum_append]
  rfl

theorem takenShares_eq_zero (h : ∀ e ∈ es, e.taken m = 0) :
    takenShares es m = 0 := by
  refine List.sum_eq_zero_iff_forall_eq_nat.mpr fun q hq => ?_
  obtain ⟨e, he, rfl⟩ := List.mem_map.mp hq
  exact h e he

/-- Events in which order `m` neither comes in nor trades as the incoming order
leave its surplus. -/
theorem surplus_append
    (hbrings : ∀ e ∈ es', e.bringsIn m = none)
    (htaken : ∀ e ∈ es', e.taken m = 0) :
    surplus (es ++ es') m = surplus es m := by
  rw [surplus, List.findSome?_append, List.findSome?_eq_none_iff.mpr hbrings,
    Option.or_none, takenShares_append, takenShares_eq_zero htaken]
  rfl

/-- Silent events change nothing. -/
theorem listed_append_of_silent
    (h : ∀ e ∈ es', e.Silent m) (l : List OrderInfo) :
    listed (es ++ es') l m = listed es l m := by
  have hmem : m ∈ delisted (es ++ es') ↔ m ∈ delisted es := by
    rw [delisted_append, List.mem_append]
    exact or_iff_left (not_mem_delisted h)
  have hsurplus : surplus (es ++ es') m = surplus es m :=
    surplus_append (fun e he => (h e he).bringsIn) fun e he => (h e he).taken
  simp only [listed, overlay, hmem, hsurplus]

end Events

namespace Ladder

variable {A : Ladder} {D : List OrderId} {S : Quotes} {a : OrderArgs}

theorem sweepBy_silent
    (A : Ladder) (n : OrderId) (a : OrderArgs) {m : OrderId}
    (hm : m ≠ a.marketOrderId) :
    ∀ e ∈ (A.sweepBy n a).fills, e.Silent m := by
  intro e he
  obtain ⟨o, fill, remaining, matchId, rfl⟩ := mem_sweep_fills he
  exact ⟨nofun, rfl, if_neg hm.symm⟩

/-- The events of an incoming order concern no other entry, but for trades. -/
theorem enter_silent
    (n : OrderId) (replacing : Bool) {m : OrderId}
    (hm : m ≠ a.marketOrderId) :
    ∀ e ∈ (A.enter n replacing a).events, e.Silent m := by
  intro e he
  rcases mem_enter_events he with he | ⟨q, rfl⟩ | ⟨q, rfl⟩
  · exact A.sweepBy_silent n a hm e he
  · exact ⟨nofun, rfl, rfl⟩
  · refine ⟨?_, rfl, rfl⟩
    cases replacing with
    | false => nofun
    | true => exact fun heq => hm (Option.some.inj heq).symm

theorem enter_bringsIn (n : OrderId) (replacing : Bool) (m : OrderId) :
    ∀ e ∈ (A.enter n replacing a).events, e.bringsIn m = none := by
  intro e he
  rcases mem_enter_events he with he | ⟨q, rfl⟩ | ⟨q, rfl⟩
  · obtain ⟨o, fill, remaining, matchId, rfl⟩ := mem_sweep_fills he
    rfl
  · rfl
  · rfl

theorem delisted_sweepBy (A : Ladder) (n : OrderId) (a : OrderArgs) :
    delisted (A.sweepBy n a).fills = [] := by
  refine List.filterMap_eq_nil_iff.mpr fun e he => ?_
  obtain ⟨o, fill, remaining, matchId, rfl⟩ := mem_sweep_fills he
  rfl

/-- A new order delists nothing. -/
theorem delisted_enter (n : OrderId) :
    delisted (A.enter n false a).events = [] := by
  refine List.filterMap_eq_nil_iff.mpr fun e he => ?_
  rcases mem_enter_events he with he | ⟨q, rfl⟩ | ⟨q, rfl⟩
  · obtain ⟨o, fill, remaining, matchId, rfl⟩ := mem_sweep_fills he
    rfl
  · rfl
  · rfl

/-- What an incoming order trades is what it wants no more. -/
theorem takenShares_sweepBy (A : Ladder) (n : OrderId) (a : OrderArgs) :
    takenShares (A.sweepBy n a).fills a.marketOrderId +
      (A.sweepBy n a).remaining = a.initialQuantity := by
  have hall := sweep_invariant (R := a.side.crosses a.price) (a := a)
    (fun es q _ => takenShares es a.marketOrderId + q = a.initialQuantity)
    ?_ ?_ [] n (l := A.side a.side.opposite) (Nat.zero_add _)
  · exact hall
  · intro es n q o l _ hle h
    have hone : takenShares [.filled a (o.withRemaining 0) o.remainingQuantity
        (q - o.remainingQuantity) n] a.marketOrderId =
          o.remainingQuantity := by
      simp [takenShares, Event.taken]
    rw [takenShares_append, hone]
    lia
  · intro es n q o l _ _ h
    have hone : takenShares [.filled a
        (o.withRemaining (o.remainingQuantity - q)) q 0 n] a.marketOrderId =
          q := by
      simp [takenShares, Event.taken]
    rw [takenShares_append, hone]
    exact h

/-- A new order: its trades, and an ADD if it comes to rest. -/
theorem enter_overlay
    (hwf : A.WF) (hnodup : (A.orders.map OrderInfo.marketOrderId).Nodup)
    (hfits : SurplusFits S A.orders) (n : OrderId)
    (hnew : ∀ o ∈ A.orders, o.marketOrderId ≠ a.marketOrderId)
    (hD : a.marketOrderId ∉ D) (hS : S a.marketOrderId = none) :
    (published (A.enter n false a).events).foldl shadowStep
        (overlay D S (quotes A.orders)) =
      overlay D S (quotes (A.enter n false a).ladder.orders) := by
  have hswept := swept_overlay (D := D) hwf hnodup hfits n a
  rcases A.enter_cases n false a with
    ⟨-, heq⟩ | ⟨-, -, heq⟩ | ⟨-, -, heq⟩
  · rw [heq]
    exact hswept
  · have hnodup' := (trims_swept hwf n a).nodup_ids hnodup
    have hid : { a with
        initialQuantity := (A.sweepBy n a).remaining }.toInfo.marketOrderId =
          a.marketOrderId := rfl
    rw [heq]
    dsimp only
    rw [published_append, List.foldl_append, hswept,
      quotes_insert hnodup' ((trims_swept hwf n a).ids_ne hnew),
      overlay_update, hid, if_neg hD, hS, Quote.join_none]
    rfl
  · rw [heq]
    dsimp only
    rw [published_append, List.foldl_append, hswept]
    rfl

/-- The MODIFY of a replacement delists the old order and lists all shares of
the new one. -/
theorem modified_overlay
    (hwf : A.WF) (hnodup : (A.orders.map OrderInfo.marketOrderId).Nodup)
    {old : OrderInfo} (ho : old ∈ A.orders)
    (hnew : ∀ o ∈ A.orders, o.marketOrderId ≠ a.marketOrderId)
    (hD : a.marketOrderId ∉ D) :
    shadowStep (overlay D S (quotes A.orders))
        (modifyUpdate a old.marketOrderId) =
      overlay (old.marketOrderId :: D)
        (Function.update S a.marketOrderId (some a.toInfo.quote))
        (quotes (A.erase old.key).orders) := by
  show Function.update (Function.update (overlay D S (quotes A.orders))
    old.marketOrderId none) a.marketOrderId (some a.toInfo.quote) = _
  have hne : old.marketOrderId ≠ a.marketOrderId := hnew old ho
  rw [quotes_erase hwf hnodup ho]
  funext m
  by_cases hm : m = a.marketOrderId
  · subst hm
    have hnone : quotes A.orders a.marketOrderId = none :=
      quotes_eq_none hnew
    simp [overlay, hne.symm, hD, hnone]
  · by_cases hold : m = old.marketOrderId
    · subst hold
      simp [overlay, hm]
    · simp [overlay, hm, hold]

/-- The shares of a replacement that are not in the book any more. -/
def surplusOf (a : OrderArgs) (q : Quantity) : Option Quote :=
  if q = 0 then none else some ⟨a.side, a.price, q⟩

/-- What rests of a replacement and its surplus are all its shares. -/
theorem join_surplusOf
    {q left : Quantity} (h : q + left = a.initialQuantity) :
    Quote.join (some ⟨a.side, a.price, left⟩) (surplusOf a q) =
      some a.toInfo.quote := by
  unfold surplusOf
  split_ifs with hzero
  · rw [hzero, Nat.zero_add] at h
    rw [Quote.join_none, h]
    rfl
  · rw [Nat.add_comm] at h
    exact congrArg (fun q => some (Quote.mk a.side a.price q)) h

/-- A replacement: its trades leave its entry as it is, and so do the shares
that come to rest; what is killed is delisted. -/
theorem enter_overlay_replacing
    (hwf : A.WF) (hnodup : (A.orders.map OrderInfo.marketOrderId).Nodup)
    (hfits : SurplusFits S A.orders) (n : OrderId)
    (hnew : ∀ o ∈ A.orders, o.marketOrderId ≠ a.marketOrderId)
    (hS : S a.marketOrderId = some a.toInfo.quote) :
    (published (A.enter n true a).events).foldl shadowStep
        (overlay D S (quotes A.orders)) =
      overlay (D ++ delisted (A.enter n true a).events)
        (Function.update S a.marketOrderId (surplusOf a
          (takenShares (A.enter n true a).events a.marketOrderId)))
        (quotes (A.enter n true a).ladder.orders) := by
  have hswept := swept_overlay (D := D) hwf hnodup hfits n a
  have htaken := A.takenShares_sweepBy n a
  have hnone : quotes (A.swept n a).orders a.marketOrderId = none :=
    quotes_eq_none ((trims_swept hwf n a).ids_ne hnew)
  rcases A.enter_cases n true a with
    ⟨hrem, heq⟩ | ⟨hrem, -, heq⟩ | ⟨-, -, heq⟩
  · -- It is filled: no share rests, all are a surplus.
    have hall : surplusOf a (takenShares (A.sweepBy n a).fills
        a.marketOrderId) = some a.toInfo.quote := by
      have hpos : 0 < a.initialQuantity := hfits.positive _ _ hS
      rw [hrem, Nat.add_zero] at htaken
      rw [htaken]
      exact if_neg hpos.ne'
    rw [heq]
    dsimp only
    rw [delisted_sweepBy, List.append_nil, hall, ← hS,
      Function.update_eq_self]
    exact hswept
  · -- The rest of it comes to rest without an ADD; the MODIFY has listed it.
    have hsame : takenShares ((A.sweepBy n a).fills ++
        [.rested true a (A.sweepBy n a).remaining]) a.marketOrderId =
          takenShares (A.sweepBy n a).fills a.marketOrderId := by
      rw [takenShares_append]
      rfl
    have hdelisted : delisted ((A.sweepBy n a).fills ++
        [.rested true a (A.sweepBy n a).remaining]) = [] := by
      rw [delisted_append, delisted_sweepBy]
      rfl
    have hnodup' := (trims_swept hwf n a).nodup_ids hnodup
    rw [heq]
    dsimp only
    rw [hsame, hdelisted, List.append_nil, published_append,
      List.foldl_append, hswept,
      quotes_insert hnodup' ((trims_swept hwf n a).ids_ne hnew)]
    refine (overlay_update_update ?_).symm
    rw [hnone, hS, Quote.none_join]
    exact join_surplusOf htaken
  · -- The rest of it is killed, and its CANCEL takes the surplus as well.
    rw [heq]
    dsimp only
    rw [published_append, List.foldl_append, hswept]
    show Function.update (overlay D S (quotes (A.swept n a).orders))
      a.marketOrderId none = _
    have hdelisted : delisted ((A.sweepBy n a).fills ++
        [.killed true a (A.sweepBy n a).remaining]) = [a.marketOrderId] := by
      rw [delisted_append, delisted_sweepBy]
      rfl
    rw [hdelisted]
    funext m
    by_cases hm : m = a.marketOrderId
    · subst hm
      simp [overlay]
    · simp [overlay, hm]

/-- The surplus of a replacement, from the events of its request. -/
theorem surplus_modified
    {es : List Event} (hunseen : ∀ e ∈ es, e.Silent a.marketOrderId)
    (n : OrderId) (old : OrderInfo) :
    surplus (es ++ .modified a old :: (A.enter n true a).events) =
      Function.update (surplus es) a.marketOrderId (surplusOf a
        (takenShares (A.enter n true a).events a.marketOrderId)) := by
  funext m
  by_cases hm : m = a.marketOrderId
  · subst hm
    have hbrings : (Event.modified a old ::
        (A.enter n true a).events).findSome?
          (Event.bringsIn a.marketOrderId) = some a := by
      simp [Event.bringsIn]
    have htaken : takenShares
        (es ++ .modified a old :: (A.enter n true a).events)
          a.marketOrderId =
        takenShares (A.enter n true a).events a.marketOrderId := by
      rw [takenShares_append,
        takenShares_eq_zero fun e he => (hunseen e he).taken, Nat.zero_add]
      exact Nat.zero_add _
    rw [Function.update_self, surplus, List.findSome?_append,
      bringsIn_eq_none hunseen, Option.none_or, hbrings, htaken]
    rfl
  · have hsilent := enter_silent (A := A) n true hm
    rw [Function.update_of_ne hm]
    refine surplus_append ?_ ?_
    · exact List.forall_mem_cons.mpr
        ⟨if_neg (Ne.symm hm), fun e he => (hsilent e he).bringsIn⟩
    · exact List.forall_mem_cons.mpr
        ⟨rfl, fun e he => (hsilent e he).taken⟩

theorem mem_delisted_modified
    {es evs : List Event} {old : OrderInfo} {m : OrderId} :
    m ∈ delisted (es ++ .modified a old :: evs) ↔
      m ∈ old.marketOrderId :: delisted es ++ delisted evs := by
  have hcons : delisted (.modified a old :: evs) =
      old.marketOrderId :: delisted evs := rfl
  rw [delisted_append, hcons, List.cons_append, List.mem_cons,
    List.mem_append, List.mem_append, List.mem_cons]
  tauto

/-- The quotes of the other orders after a withdrawal. -/
theorem quotes_withdraw_of_ne
    (hwf : A.WF) {o : OrderInfo} (ho : o ∈ A.orders) (q : Quantity)
    {m : OrderId} (hm : m ≠ o.marketOrderId) :
    quotes (A.withdraw o q).orders m = quotes A.orders m := by
  obtain ⟨l₁, l₂, heq, herase, hset⟩ := orders_split hwf ho
  have hne : o.marketOrderId ≠ m := hm.symm
  unfold withdraw
  split_ifs
  · rw [herase, heq]
    simp [quotes, List.find?_append, hne]
  · rw [hset, heq]
    simp [quotes, List.find?_append, OrderInfo.withRemaining, hne]

/-- **What is known of the events so far**: they have nothing to do with the ids
to come, and a surplus is one of the order that has it. -/
structure Traced (A : Ladder) (es : List Event) : Prop where
  unseen : ∀ m, A.nextMarketOrderId ≤ m → ∀ e ∈ es, e.Silent m
  same : ∀ o ∈ A.orders, ∀ a,
    es.findSome? (Event.bringsIn o.marketOrderId) = some a →
      a.side = o.side ∧ a.price = o.price

namespace Traced

variable {es evs : List Event} {A' : Ladder}

theorem fits (h : A.Traced es) : SurplusFits (surplus es) A.orders where
  positive m y hy := by
    obtain ⟨a, -, ha⟩ := Option.bind_eq_some_iff.mp hy
    split_ifs at ha with hzero
    obtain rfl := Option.some.inj ha
    exact Nat.pos_of_ne_zero hzero
  same o ho y hy := by
    obtain ⟨a, hbrings, ha⟩ := Option.bind_eq_some_iff.mp hy
    split_ifs at ha
    obtain rfl := Option.some.inj ha
    exact h.same o ho a hbrings

theorem append
    (h : A.Traced es) (hnext : A.nextMarketOrderId ≤ A'.nextMarketOrderId)
    (hquiet : ∀ m, A'.nextMarketOrderId ≤ m → ∀ e ∈ evs, e.Silent m)
    (horders : ∀ o ∈ A'.orders,
      ((∃ o' ∈ A.orders, o'.terms = o.terms) ∧
        evs.findSome? (Event.bringsIn o.marketOrderId) = none) ∨
      A.nextMarketOrderId ≤ o.marketOrderId ∧
        ∀ a, evs.findSome? (Event.bringsIn o.marketOrderId) = some a →
          a.side = o.side ∧ a.price = o.price) :
    A'.Traced (es ++ evs) where
  unseen m hm e he := by
    rcases List.mem_append.mp he with he | he
    · exact h.unseen m (hnext.trans hm) e he
    · exact hquiet m hm e he
  same o ho a ha := by
    rw [List.findSome?_append] at ha
    rcases horders o ho with ⟨⟨o', ho', hterms⟩, hnone⟩ | ⟨hid, hbrings⟩
    · rw [hnone, Option.or_none] at ha
      have hsame : ∀ a,
          es.findSome? (Event.bringsIn o'.terms.marketOrderId) = some a →
            a.side = o'.terms.side ∧ a.price = o'.terms.price :=
        h.same o' ho'
      rw [hterms] at hsame
      exact hsame a ha
    · rw [bringsIn_eq_none (h.unseen _ hid), Option.none_or] at ha
      exact hbrings a ha

end Traced

section Step

variable {es : List Event}

/-- A request that is turned down. -/
theorem listed_quiet
    {e : Event} (hquiet : ∀ m, e.Silent m) (l : List OrderInfo) :
    listed (es ++ [e]) l = listed es l := by
  funext m
  exact listed_append_of_silent
    (fun e' he' => List.mem_singleton.mp he' ▸ hquiet m) l

/-- A withdrawal, of some or of all shares, delists its order. -/
theorem withdraw_listed
    (hwf : A.WF) {o : OrderInfo} (ho : o ∈ A.orders) (tickerId : TickerId)
    (q : Quantity) :
    (published [.canceled tickerId o q]).foldl shadowStep
        (listed es A.orders) =
      listed (es ++ [.canceled tickerId o q]) (A.withdraw o q).orders := by
  show Function.update (listed es A.orders) o.marketOrderId none = _
  funext m
  by_cases hm : m = o.marketOrderId
  · subst hm
    have hmem : o.marketOrderId ∈
        delisted (es ++ [.canceled tickerId o q]) := by
      rw [delisted_append]
      exact List.mem_append_right _ (List.mem_singleton_self _)
    rw [Function.update_self]
    exact (if_pos hmem).symm
  · have hsilent : ∀ e ∈ [Event.canceled tickerId o q], e.Silent m := by
      intro e he
      rw [List.mem_singleton.mp he]
      exact ⟨fun heq => hm (Option.some.inj heq).symm, rfl, rfl⟩
    rw [Function.update_of_ne hm, listed_append_of_silent hsilent]
    unfold listed overlay
    rw [quotes_withdraw_of_ne hwf ho q hm]

/-- A new order. -/
theorem new_listed
    (h : A.Traced es) (hwf : A.WF) (hids : A.Ids) (n : OrderId)
    (ha : a.marketOrderId = A.nextMarketOrderId) :
    (published (.accepted a :: (A.bump.enter n false a).events)).foldl
        shadowStep (listed es A.orders) =
      listed (es ++ .accepted a :: (A.bump.enter n false a).events)
        (A.bump.enter n false a).ladder.orders := by
  have hunseen : ∀ e ∈ es, e.Silent a.marketOrderId := h.unseen _ ha.ge
  have hnone := bringsIn_eq_none hunseen
  have hentered := enter_overlay (A := A.bump) (D := delisted es)
    ((trims_bump hwf).wf hwf) hids.nodup h.fits n
    (fun o ho => ha ▸ (hids.below o ho).ne) (not_mem_delisted hunseen)
    (by rw [surplus, hnone]; rfl)
  refine hentered.trans ?_
  funext m
  by_cases hm : m = a.marketOrderId
  · subst hm
    have hbrings : (Event.accepted a ::
        (A.bump.enter n false a).events).findSome?
          (Event.bringsIn a.marketOrderId) = none :=
      List.findSome?_eq_none_iff.mpr (List.forall_mem_cons.mpr
        ⟨rfl, enter_bringsIn n false a.marketOrderId⟩)
    have hdelisted : delisted (Event.accepted a ::
        (A.bump.enter n false a).events) = [] := delisted_enter n
    unfold listed overlay surplus
    rw [delisted_append, hdelisted, List.append_nil, List.findSome?_append,
      hnone, hbrings]
    rfl
  · refine (listed_append_of_silent ?_ _).symm
    intro e he
    rcases List.mem_cons.mp he with rfl | he
    · exact ⟨nofun, rfl, rfl⟩
    · exact enter_silent n false hm e he

/-- A replacement. -/
theorem replaced_listed
    (h : A.Traced es) (hwf : A.WF) (hids : A.Ids) (n : OrderId)
    {old : OrderInfo} (ho : old ∈ A.orders)
    (ha : a.marketOrderId = A.nextMarketOrderId)
    (hqty : a.initialQuantity ≠ 0) :
    (published (.modified a old ::
        ((A.erase old.key).bump.enter n true a).events)).foldl shadowStep
          (listed es A.orders) =
      listed (es ++ .modified a old ::
          ((A.erase old.key).bump.enter n true a).events)
        ((A.erase old.key).bump.enter n true a).ladder.orders := by
  generalize hB : (A.erase old.key).bump = B
  have hunseen : ∀ e ∈ es, e.Silent a.marketOrderId := h.unseen _ ha.ge
  have hnew : ∀ o ∈ A.orders, o.marketOrderId ≠ a.marketOrderId :=
    fun o ho => ha ▸ (hids.below o ho).ne
  have htrims : A.Trims B := by
    rw [← hB]
    exact trims_erase hwf old.key
  have hnew' := htrims.ids_ne hnew
  have hwf' : B.WF := hB ▸ wf_erase_bump hwf old.key
  have horders : (A.erase old.key).orders = B.orders := by
    rw [← hB]
    rfl
  have hterms : ∀ o ∈ B.orders, ∃ o' ∈ A.orders, o'.terms = o.terms := by
    intro o ho
    obtain ⟨o', ho', q, -, -, rfl⟩ := htrims.orders.shrinks o ho
    exact ⟨o', ho', rfl⟩
  have hfits := (h.fits.of_terms hterms).update hqty hnew'
  have hmodified := modified_overlay (S := surplus es) hwf hids.nodup ho hnew
    (not_mem_delisted hunseen)
  have hentered := enter_overlay_replacing
    (D := old.marketOrderId :: delisted es) hwf' (htrims.nodup_ids hids.nodup)
    hfits n hnew' (Function.update_self _ _ _)
  rw [Function.update_idem, ← surplus_modified hunseen n old] at hentered
  rw [published_modified, List.foldl_cons]
  unfold listed
  rw [hmodified, horders, hentered]
  funext m
  simp only [overlay, mem_delisted_modified]

/-- An order that comes in, after an event `e₀` about it. -/
theorem Traced.enter
    (h : A.Traced es) (hids : A.Ids) {B : Ladder} (htrims : A.Trims B)
    (hwf : B.WF) (n : OrderId) (replacing : Bool)
    (ha : a.marketOrderId = A.nextMarketOrderId)
    (hnext : B.nextMarketOrderId = A.nextMarketOrderId + 1) {e₀ : Event}
    (hsilent : ∀ m, A.nextMarketOrderId < m → e₀.Silent m)
    (hbrings : ∀ m a', e₀.bringsIn m = some a' →
      m = a.marketOrderId ∧ a' = a) :
    (B.enter n replacing a).ladder.Traced
      (es ++ e₀ :: (B.enter n replacing a).events) := by
  have hnext' := (B.enter_next n replacing a).trans hnext
  have hfind : ∀ m, (e₀ :: (B.enter n replacing a).events).findSome?
      (Event.bringsIn m) = e₀.bringsIn m := by
    intro m
    have hnone := List.findSome?_eq_none_iff.mpr
      (enter_bringsIn (A := B) (a := a) n replacing m)
    rw [List.findSome?_cons, hnone]
    cases e₀.bringsIn m <;> rfl
  refine h.append (hnext' ▸ Nat.le_succ _) ?_ ?_
  · intro m hm
    have hm : A.nextMarketOrderId < m := by
      rw [hnext'] at hm
      exact hm
    exact List.forall_mem_cons.mpr
      ⟨hsilent m hm, enter_silent n replacing (ha ▸ hm.ne')⟩
  · intro o ho
    rw [hfind]
    rcases mem_enter_orders.mp ho with ho | ⟨-, -, rfl⟩
    · obtain ⟨o', ho', q, -, -, rfl⟩ :=
        (htrims.trans (trims_swept hwf n a)).orders.shrinks o ho
      refine .inl ⟨⟨o', ho', rfl⟩, ?_⟩
      refine Option.eq_none_iff_forall_ne_some.mpr fun a' ha' => ?_
      have heq := (hbrings _ a' ha').1
      exact (hids.below o' ho').ne (heq.trans ha)
    · refine .inr ⟨ha.ge, fun a' ha' => ?_⟩
      rw [(hbrings _ a' ha').2]
      exact ⟨rfl, rfl⟩

/-- **One request**: its updates take what the feed has listed to what it lists
then. -/
theorem step_listed
    (h : A.Traced es) (hwf : A.WF) (hids : A.Ids) (n : OrderId)
    (r : MEClientRequest) (hbound : A.nextMarketOrderId + 1 < wordSize) :
    (published (A.step n r).events).foldl shadowStep (listed es A.orders) =
        listed (es ++ (A.step n r).events) (A.step n r).ladder.orders ∧
      (A.step n r).ladder.Traced (es ++ (A.step n r).events) := by
  have hnext : (A.nextMarketOrderId + 1) % wordSize =
      A.nextMarketOrderId + 1 := Nat.mod_eq_of_lt hbound
  rcases A.step_shapes n r with
    ⟨e, -, heq, he⟩ | ⟨o, -, hfind, -, heq⟩ | ⟨-, heq⟩ |
      ⟨old, -, hfind, hgood, heq⟩
  · have hquiet : ∀ m, e.Silent m := by
      intro m
      rcases he with rfl | ⟨o, -, rfl⟩
      · exact ⟨nofun, rfl, rfl⟩
      · exact ⟨nofun, rfl, rfl⟩
    have hnone : published [e] = [] := by
      rcases he with rfl | ⟨o, -, rfl⟩ <;> rfl
    rw [heq]
    refine ⟨?_, h.append le_rfl ?_ ?_⟩
    · rw [hnone, listed_quiet hquiet]
      rfl
    · exact fun m _ => List.forall_mem_singleton.mpr (hquiet m)
    · refine fun o ho => .inl ⟨⟨o, ho, rfl⟩, bringsIn_eq_none ?_⟩
      exact List.forall_mem_singleton.mpr (hquiet _)
  · obtain ⟨ho, -⟩ := mem_of_find? hfind
    have hsame : (A.withdraw o (canceledQty r o)).nextMarketOrderId =
        A.nextMarketOrderId := by
      unfold withdraw
      split_ifs <;> rfl
    rw [heq]
    refine ⟨withdraw_listed hwf ho _ _, h.append hsame.ge ?_ ?_⟩
    · intro m hm
      rw [hsame] at hm
      refine List.forall_mem_singleton.mpr ⟨fun hid => ?_, rfl, rfl⟩
      exact ((hids.below o ho).trans_le hm).ne (Option.some.inj hid)
    · intro o' ho'
      obtain ⟨o'', ho'', q, -, -, rfl⟩ :=
        (trims_withdraw hwf ho _).orders.shrinks o' ho'
      exact .inl ⟨⟨o'', ho'', rfl⟩, rfl⟩
  · rw [heq]
    refine ⟨new_listed h hwf hids n rfl, ?_⟩
    exact h.enter hids (trims_bump hwf) ((trims_bump hwf).wf hwf) n false rfl
      hnext (fun m _ => ⟨nofun, rfl, rfl⟩) nofun
  · obtain ⟨ho, -⟩ := mem_of_find? hfind
    rw [not_or] at hgood
    rw [heq]
    refine ⟨replaced_listed h hwf hids n ho rfl hgood.2, ?_⟩
    refine h.enter hids (B := (A.erase old.key).bump)
      (trims_erase hwf old.key) (wf_erase_bump hwf old.key) n true rfl hnext
      ?_ ?_
    · intro m hm
      refine ⟨fun hid => ?_, if_neg hm.ne, rfl⟩
      exact ((hids.below old ho).trans hm).ne (Option.some.inj hid)
    · intro m a' ha'
      obtain ⟨hm, ha'⟩ := Option.ite_none_right_eq_some.mp ha'
      exact ⟨hm.symm, (Option.some.inj ha').symm⟩

end Step

end Ladder

namespace Market

/-- What has happened to a ticker. -/
def history (M : Market) (t : TickerId) : List Event :=
  M.events.filter fun e => e.tickerId = t

theorem history_next_self (M : Market) (r : MEClientRequest) :
    (M.next r).history r.tickerId =
      M.history r.tickerId ++ (M.respond r).events := by
  have hall : ∀ e ∈ (M.respond r).events, e.tickerId = r.tickerId :=
    Ladder.step_events_tickerId _ _ r
  show List.filter _ (M.events ++ (M.respond r).events) = _
  rw [List.filter_append,
    List.filter_eq_self.mpr fun e he => decide_eq_true (hall e he)]
  rfl

theorem history_next_of_ne
    (M : Market) {r : MEClientRequest} {t : TickerId} (ht : t ≠ r.tickerId) :
    (M.next r).history t = M.history t := by
  have hall : ∀ e ∈ (M.respond r).events, e.tickerId = r.tickerId :=
    Ladder.step_events_tickerId _ _ r
  show List.filter _ (M.events ++ (M.respond r).events) = _
  have hnone : (M.respond r).events.filter (fun e => e.tickerId = t) = [] :=
    List.filter_eq_nil_iff.mpr fun e he heq =>
      ht ((of_decide_eq_true heq).symm.trans (hall e he))
  rw [List.filter_append, hnone, List.append_nil]
  rfl

/-- The updates of one ticker. -/
theorem foldl_bookStep
    {us : List MEMarketUpdate} {t : TickerId}
    (hus : ∀ u ∈ us, u.tickerId = t) (F : TickerId → Quotes) :
    us.foldl bookStep F =
      Function.update F t (us.foldl shadowStep (F t)) := by
  induction us generalizing F with
  | nil => exact (Function.update_eq_self t F).symm
  | cons u us ih =>
      have hu := hus u List.mem_cons_self
      rw [List.foldl_cons, List.foldl_cons,
        ih fun v hv => hus v (List.mem_cons_of_mem _ hv)]
      unfold bookStep
      rw [hu, Function.update_self, Function.update_idem]

/-- **What the feed lists, in every run.** -/
theorem run_listed
    {rs : List MEClientRequest} (hfresh : FreshKeys rs)
    (hlen : rs.length < 2 ^ 63) (t : TickerId) :
    ((run rs).ladder t).Ids ∧
      ((run rs).ladder t).Traced ((run rs).history t) ∧
      ((run rs).sent Dialect.map).updates.foldl bookStep
          (fun _ _ => none) t =
        listed ((run rs).history t) ((run rs).ladder t).orders := by
  have hall := run_induction
    (C := fun A _ => A.nextMarketOrderId + 1 < wordSize)
    (fun M => (∀ t, (M.ladder t).Ids) ∧
      (∀ t, (M.ladder t).Traced (M.history t)) ∧
      (M.sent Dialect.map).updates.foldl bookStep (fun _ _ => none) =
        fun t => listed (M.history t) (M.ladder t).orders) ?_ ?_ hfresh
    (eachStep_bound hfresh hlen)
  · exact ⟨hall.1 t, hall.2.1 t, congrFun hall.2.2 t⟩
  · exact ⟨fun _ => Ladder.Ids.empty, fun _ => ⟨nofun, nofun⟩, rfl⟩
  · rintro M r hwf - hlt ⟨hids, htraced, hlisted⟩
    have hticker : ∀ u ∈ Ladder.published (M.respond r).events,
        u.tickerId = r.tickerId := by
      intro u hu
      obtain ⟨e, he, hu⟩ := List.mem_flatMap.mp hu
      rw [e.updates_tickerId _ u hu]
      exact Ladder.step_events_tickerId _ _ r e he
    have hstep := Ladder.step_listed (htraced r.tickerId) (hwf _) (hids _)
      M.matchIds r hlt
    refine ⟨next_ids hwf hids hlt, fun t => ?_, ?_⟩
    · by_cases ht : t = r.tickerId
      · subst ht
        rw [next_ladder_self, history_next_self]
        exact hstep.2
      · rw [next_ladder_of_ne _ ht, history_next_of_ne _ ht]
        exact htraced t
    · rw [sent_updates] at hlisted ⊢
      show (List.flatMap _ (_ ++ _)).foldl _ _ = _
      rw [List.flatMap_append, List.foldl_append, hlisted]
      refine (foldl_bookStep hticker _).trans ?_
      funext t
      by_cases ht : t = r.tickerId
      · subst ht
        rw [Function.update_self, next_ladder_self, history_next_self]
        exact hstep.1
      · rw [Function.update_of_ne ht, next_ladder_of_ne _ ht,
          history_next_of_ne _ ht]

end Market

end NanoExchange
