import NanoExchange.Engine.Fills

/-!
# What the two builds of the engine send

The map build and the vector build of the engine go through the same history,
but report it in two dialects.  This module says exactly when the streams they
send are the same.

The vector build puts another number into `leaves_qty_` of a CANCELED response,
leaves `match_id_` out of a TRADE update, and says nothing about the dropped
remainder of a FillAndKill replacement.  So the response streams agree as long
as every withdrawal takes half of what is left and no FillAndKill replacement
leaves a remainder, and the update streams as long as nothing trades and no
replacement is FillAndKill.
-/

namespace NanoExchange

open Lib

namespace Event

/-- The event has the same responses in both dialects. -/
def SameResponses : Event → Prop
  | .canceled _ o qty => qty = o.remainingQuantity - qty
  | .killed replacing _ _ => replacing = false
  | _ => True

/-- The event has the same updates in both dialects. -/
def SameUpdates : Event → Prop
  | .filled _ _ _ _ matchId => matchId = orderIdInvalid
  | .killed replacing _ _ => replacing = false
  | _ => True

theorem responses_eq_iff (e : Event) :
    e.responses Dialect.map = e.responses Dialect.vector ↔
      e.SameResponses := by
  cases e with
  | canceled tickerId o qty =>
      simp [responses, outputs, SameResponses, Dialect.map, Dialect.vector,
        canceledResponse]
  | killed replacing =>
      cases replacing <;>
        simp [responses, outputs, SameResponses, Dialect.map, Dialect.vector]
  | rested replacing => cases replacing <;> exact iff_of_true rfl trivial
  | _ => exact iff_of_true rfl trivial

theorem updates_eq_iff (e : Event) :
    e.updates Dialect.map = e.updates Dialect.vector ↔ e.SameUpdates := by
  cases e with
  | filled a o fill remaining matchId =>
      simp [updates, outputs, SameUpdates, Dialect.map, Dialect.vector,
        tradeUpdate]
  | killed replacing =>
      cases replacing <;>
        simp [updates, outputs, SameUpdates, Dialect.map, Dialect.vector]
  | rested replacing => cases replacing <;> exact iff_of_true rfl trivial
  | _ => exact iff_of_true rfl trivial

/-- The vector build never sends more about an event than the map build. -/
theorem length_le (e : Event) :
    (e.responses Dialect.vector).length ≤ (e.responses Dialect.map).length ∧
      (e.updates Dialect.vector).length ≤ (e.updates Dialect.map).length := by
  cases e with
  | killed replacing =>
      cases replacing <;>
        simp [responses, updates, outputs, Dialect.map, Dialect.vector]
  | rested replacing => cases replacing <;> exact ⟨le_rfl, le_rfl⟩
  | _ => exact ⟨le_rfl, le_rfl⟩

end Event

namespace Ladder

/-- The shares that an order of side `s` with this limit could be filled
with. -/
def available (A : Ladder) (s : Side) (price : Price) : Quantity :=
  (((A.side s.opposite).filter fun o => s.crosses price o.price).map
    OrderInfo.remainingQuantity).sum

/-- No resting order is within the limit of an order of side `s`. -/
def Clear (A : Ladder) (s : Side) (price : Price) : Prop :=
  ∀ o ∈ A.side s.opposite, ¬ s.crosses price o.price

instance (A : Ladder) (s : Side) (price : Price) :
    Decidable (A.Clear s price) :=
  inferInstanceAs (Decidable (∀ o ∈ A.side s.opposite, _))

/-- The request is answered alike by both builds: a withdrawal takes half of
what is left, and a FillAndKill replacement can be filled. -/
def SameResponses (A : Ladder) (r : MEClientRequest) : Prop :=
  match r.action with
  | .new => True
  | .cancel => ∀ o, A.find? (r.clientId, r.clientOrderId) = some o →
      canceledQty r o ≤ o.remainingQuantity →
        o.remainingQuantity = 2 * canceledQty r o
  | .modify => ∀ o, A.find? (r.clientId, r.clientOrderId) = some o →
      r.newClientOrderId ≠ 0 → r.qty ≠ 0 → r.type = .fillAndKill →
        r.qty ≤ A.available o.side r.price

/-- The request is published alike by both builds: it does not trade, and is
not a FillAndKill replacement. -/
def SameUpdates (A : Ladder) (r : MEClientRequest) : Prop :=
  match r.action with
  | .new => r.qty = 0 ∨ A.Clear r.side r.price
  | .cancel => True
  | .modify => ∀ o, A.find? (r.clientId, r.clientOrderId) = some o →
      r.newClientOrderId ≠ 0 → r.qty ≠ 0 →
        r.type ≠ .fillAndKill ∧ A.Clear o.side r.price

variable {A : Ladder}

/-- Taking an order out does not touch the opposite side. -/
theorem erase_side_opposite
    (h : A.WF) {o : OrderInfo} (ho : o ∈ A.orders) :
    (A.erase o.key).side o.side.opposite = A.side o.side.opposite := by
  refine List.filter_eq_self.mpr fun x hx => decide_eq_true fun hkey => ?_
  obtain rfl := h.key_unique (mem_orders_of_side hx) ho hkey
  exact x.side.opposite_ne (h.placed _ x hx).symm

theorem sweepBy_remaining (h : A.WF) (n : OrderId) (a : OrderArgs) :
    (A.sweepBy n a).remaining =
      a.initialQuantity - A.available a.side a.price :=
  sweep_remaining_eq (h.crossing_first a.side a.price)

theorem sweepBy_fills_eq_nil (h : A.WF) (n : OrderId) (a : OrderArgs) :
    (A.sweepBy n a).fills = [] ↔
      a.initialQuantity = 0 ∨ A.Clear a.side a.price :=
  sweep_fills_eq_nil (h.crossing_first a.side a.price)

/-- Entering an order is answered alike, unless it is a FillAndKill
replacement that cannot be filled. -/
theorem sameResponses_enter
    (h : A.WF) (n : OrderId) (replacing : Bool) (a : OrderArgs) :
    (∀ e ∈ (A.enter n replacing a).events, e.SameResponses) ↔
      (replacing = true → a.orderType = .fillAndKill →
        a.initialQuantity ≤ A.available a.side a.price) := by
  have hfills : ∀ e ∈ (A.sweepBy n a).fills, e.SameResponses := by
    intro e he
    obtain ⟨o, fill, remaining, matchId, rfl⟩ := mem_sweep_fills he
    trivial
  have hrem := sweepBy_remaining h n a
  rcases A.enter_cases n replacing a with
    ⟨hzero, heq⟩ | ⟨-, htype, heq⟩ | ⟨hpos, htype, heq⟩
  · rw [heq]
    refine iff_of_true hfills fun _ _ => ?_
    exact Nat.sub_eq_zero_iff_le.mp (hrem.symm.trans hzero)
  · rw [heq]
    refine iff_of_true ?_ fun _ hfak => absurd (htype.symm.trans hfak) (by simp)
    simpa [or_imp, forall_and, Event.SameResponses] using hfills
  · rw [heq]
    rw [hrem] at hpos
    constructor
    · intro hsame hreplacing
      have hkilled : replacing = false := hsame _
        (List.mem_append_right _ List.mem_cons_self)
      rw [hreplacing] at hkilled
      cases hkilled
    · intro hfit e he
      rcases List.mem_append.mp he with he | he
      · exact hfills e he
      · obtain rfl := List.mem_singleton.mp he
        cases replacing with
        | false => rfl
        | true =>
            exact absurd (Nat.sub_eq_zero_of_le (hfit rfl htype)) hpos

theorem sameResponses_of_turnsDown
    {r : MEClientRequest} (h : A.TurnsDown r) :
    A.SameResponses r := by
  unfold TurnsDown at h
  unfold SameResponses
  cases haction : r.action with
  | new => trivial
  | cancel =>
      simp only [haction] at h
      exact fun o ho hle => absurd (h o ho) (not_lt.mpr hle)
  | modify =>
      simp only [haction] at h
      intro o ho hid hqty
      rcases h o ho with h | h
      · exact absurd h hid
      · exact absurd h hqty

/-- **When a request is answered alike by both builds.** -/
theorem sameResponses_step
    (h : A.WF) (n : OrderId) (r : MEClientRequest) :
    (∀ e ∈ (A.step n r).events, e.SameResponses) ↔ A.SameResponses r := by
  rcases A.step_shapes n r with
    ⟨e, hdown, heq, he⟩ | ⟨o, haction, hfind, hle, heq⟩ | ⟨haction, heq⟩ |
      ⟨old, haction, hfind, hgood, heq⟩
  · rw [heq]
    refine iff_of_true ?_ (sameResponses_of_turnsDown hdown)
    rcases he with rfl | ⟨o, -, rfl⟩ <;>
      simp [Event.SameResponses, rejection]
  · rw [heq]
    simp only [SameResponses, haction, hfind, List.mem_singleton, forall_eq,
      Event.SameResponses, Option.some.injEq, forall_eq']
    lia
  · have hbump := (trims_bump h).wf h
    rw [heq]
    simp only [SameResponses, haction, List.forall_mem_cons]
    refine iff_of_true ⟨trivial, ?_⟩ trivial
    rw [sameResponses_enter hbump]
    simp
  · have hbump := wf_erase_bump h old.key
    obtain ⟨hmem, -⟩ := mem_of_find? hfind
    have havail : (A.erase old.key).bump.available old.side r.price =
        A.available old.side r.price := by
      unfold available
      rw [show (A.erase old.key).bump.side old.side.opposite =
        A.side old.side.opposite from erase_side_opposite h hmem]
    rw [not_or] at hgood
    rw [heq]
    simp only [SameResponses, haction, hfind, List.forall_mem_cons,
      Option.some.injEq, forall_eq']
    rw [sameResponses_enter hbump]
    simp only [Event.SameResponses, replacementArgs, havail]
    tauto

theorem sameUpdates_enter
    (h : A.WF) (n : OrderId) (replacing : Bool) (a : OrderArgs)
    (hclear : a.initialQuantity = 0 ∨ A.Clear a.side a.price)
    (htype : replacing = true → a.orderType ≠ .fillAndKill) :
    ∀ e ∈ (A.enter n replacing a).events, e.SameUpdates := by
  have hnil := (sweepBy_fills_eq_nil h n a).mpr hclear
  rcases A.enter_cases n replacing a with
    ⟨-, heq⟩ | ⟨-, -, heq⟩ | ⟨-, hfak, heq⟩
  · rw [heq, hnil]
    simp
  · rw [heq, hnil]
    simp [Event.SameUpdates]
  · rw [heq, hnil]
    cases replacing with
    | false => simp [Event.SameUpdates]
    | true => exact absurd hfak (htype rfl)

theorem of_sameUpdates_enter
    (h : A.WF) (n : OrderId) (replacing : Bool) (a : OrderArgs)
    (hids : ∀ e ∈ (A.enter n replacing a).events,
      e.fillId ≠ some orderIdInvalid)
    (hsame : ∀ e ∈ (A.enter n replacing a).events, e.SameUpdates) :
    (a.initialQuantity = 0 ∨ A.Clear a.side a.price) ∧
      (replacing = true → a.initialQuantity ≠ 0 →
        a.orderType ≠ .fillAndKill) := by
  have hsub := A.fills_subset_enter n replacing a
  have hnil : (A.sweepBy n a).fills = [] := by
    refine List.eq_nil_iff_forall_not_mem.mpr fun e he => ?_
    obtain ⟨o, fill, remaining, matchId, rfl⟩ := mem_sweep_fills he
    exact hids _ (hsub he) (congrArg some (hsame _ (hsub he)))
  have hclear := (sweepBy_fills_eq_nil h n a).mp hnil
  refine ⟨hclear, fun hreplacing hqty hfak => ?_⟩
  -- nothing crosses, so the whole quantity is left and dropped
  have hnone : A.available a.side a.price = 0 := by
    have hfilter : (A.side a.side.opposite).filter
        (fun o => a.side.crosses a.price o.price) = [] :=
      List.filter_eq_nil_iff.mpr fun o ho hcross =>
        hclear.resolve_left hqty o ho (of_decide_eq_true hcross)
    rw [available, hfilter]
    rfl
  rcases A.enter_cases n replacing a with
    ⟨hzero, -⟩ | ⟨-, htype, -⟩ | ⟨-, -, heq⟩
  · rw [sweepBy_remaining h, hnone] at hzero
    exact hqty hzero
  · rw [htype] at hfak
    cases hfak
  · have hkilled : replacing = false := by
      refine hsame (.killed replacing a (A.sweepBy n a).remaining) ?_
      rw [heq]
      exact List.mem_append_right _ List.mem_cons_self
    rw [hreplacing] at hkilled
    cases hkilled

/-- The side that a replacement is matched against is not touched when the old
order is taken out. -/
theorem clear_erase_bump
    (h : A.WF) {o : OrderInfo} (ho : o ∈ A.orders) (price : Price) :
    (A.erase o.key).bump.Clear o.side price ↔ A.Clear o.side price := by
  unfold Clear
  rw [show (A.erase o.key).bump.side o.side.opposite =
    A.side o.side.opposite from erase_side_opposite h ho]

/-- **A request that is published alike by both builds.** -/
theorem sameUpdates_step
    (h : A.WF) (n : OrderId) {r : MEClientRequest} (hr : A.SameUpdates r) :
    ∀ e ∈ (A.step n r).events, e.SameUpdates := by
  rcases A.step_shapes n r with
    ⟨e, -, heq, he⟩ | ⟨o, -, -, -, heq⟩ | ⟨haction, heq⟩ |
      ⟨old, haction, hfind, hgood, heq⟩
  · rw [heq]
    rcases he with rfl | ⟨o, -, rfl⟩ <;> simp [Event.SameUpdates, rejection]
  · rw [heq]
    simp [Event.SameUpdates]
  · simp only [SameUpdates, haction] at hr
    rw [heq, List.forall_mem_cons]
    exact ⟨trivial, sameUpdates_enter ((trims_bump h).wf h) n false _ hr
      (by simp)⟩
  · rw [not_or] at hgood
    simp only [SameUpdates, haction] at hr
    obtain ⟨htype, hclear⟩ := hr old hfind hgood.1 hgood.2
    rw [heq, List.forall_mem_cons]
    refine ⟨trivial, sameUpdates_enter (wf_erase_bump h old.key) n true _
      (.inr ?_) fun _ => htype⟩
    exact (clear_erase_bump h (mem_of_find? hfind).1 r.price).mpr hclear

/-- As long as match ids are valid, only such requests are. -/
theorem of_sameUpdates_step
    (h : A.WF) (n : OrderId) {r : MEClientRequest}
    (hids : ∀ e ∈ (A.step n r).events, e.fillId ≠ some orderIdInvalid)
    (hsame : ∀ e ∈ (A.step n r).events, e.SameUpdates) :
    A.SameUpdates r := by
  unfold SameUpdates
  rcases A.step_shapes n r with
    ⟨e, hdown, -, -⟩ | ⟨o, haction, -, -, -⟩ | ⟨haction, heq⟩ |
      ⟨old, haction, hfind, hgood, heq⟩
  · unfold TurnsDown at hdown
    cases haction : r.action with
    | new =>
        simp only [haction] at hdown
    | cancel => trivial
    | modify =>
        simp only [haction] at hdown
        intro o ho hid hqty
        rcases hdown o ho with hbad | hbad
        · exact absurd hbad hid
        · exact absurd hbad hqty
  · simp only [haction]
  · rw [heq, List.forall_mem_cons] at hids hsame
    simp only [haction]
    exact (of_sameUpdates_enter ((trims_bump h).wf h) n false _ hids.2
      hsame.2).1
  · rw [heq, List.forall_mem_cons] at hids hsame
    obtain ⟨hclear, htype⟩ := of_sameUpdates_enter
      (wf_erase_bump h old.key) n true _ hids.2 hsame.2
    simp only [haction, hfind, Option.some.injEq, forall_eq']
    intro _ hqty
    refine ⟨htype rfl hqty, ?_⟩
    exact (clear_erase_bump h (mem_of_find? hfind).1 r.price).mp
      (hclear.resolve_left hqty)

end Ladder

namespace Market

/-- The events of a run are those of its requests. -/
theorem forall_events_run
    (Q : Event → Prop) (rs : List MEClientRequest) :
    (∀ e ∈ (run rs).events, Q e) ↔
      Along (fun pre r => ∀ e ∈ ((run pre).respond r).events, Q e) rs := by
  induction rs using List.reverseRecOn with
  | nil => exact iff_of_true (by simp [run, start]) along_nil
  | append_singleton rs r ih =>
      have hevents : (run (rs ++ [r])).events =
          (run rs).events ++ ((run rs).respond r).events := by
        rw [run_append]
        rfl
      rw [hevents, List.forall_mem_append, ih, along_concat]

theorem wf_of_split
    {rs pre post : List MEClientRequest} {r : MEClientRequest}
    (h : FreshKeys rs) (hsplit : rs = pre ++ r :: post) (t : TickerId) :
    ((run pre).ladder t).WF := by
  rw [hsplit] at h
  exact (run_ready h).wf t

/-- The histories of the two builds are answered alike exactly when each
request is. -/
theorem responses_agree_iff {rs : List MEClientRequest} (h : FreshKeys rs) :
    ((run rs).sent Dialect.map).responses =
        ((run rs).sent Dialect.vector).responses ↔
      EachStep Ladder.SameResponses rs := by
  rw [sent_responses, sent_responses,
    flatMap_eq_flatMap_iff fun e => e.length_le.1]
  simp only [Event.responses_eq_iff]
  rw [forall_events_run]
  refine forall₄_congr fun pre r post hsplit => ?_
  exact Ladder.sameResponses_step (wf_of_split h hsplit _) _ r

theorem updates_agree
    {rs : List MEClientRequest} (h : FreshKeys rs)
    (hsame : EachStep Ladder.SameUpdates rs) :
    ((run rs).sent Dialect.map).updates =
      ((run rs).sent Dialect.vector).updates := by
  rw [sent_updates, sent_updates,
    flatMap_eq_flatMap_iff fun e => e.length_le.2]
  simp only [Event.updates_eq_iff]
  rw [forall_events_run]
  intro pre r post hsplit
  exact Ladder.sameUpdates_step (wf_of_split h hsplit _) _
    (hsame pre r post hsplit)

theorem of_updates_agree
    {rs : List MEClientRequest} (h : FreshKeys rs)
    (hlt : ((run rs).events.filterMap Event.fillId).length < 2 ^ 63)
    (heq : ((run rs).sent Dialect.map).updates =
      ((run rs).sent Dialect.vector).updates) :
    EachStep Ladder.SameUpdates rs := by
  rw [sent_updates, sent_updates,
    flatMap_eq_flatMap_iff fun e => e.length_le.2] at heq
  simp only [Event.updates_eq_iff] at heq
  have hword : 1 + ((run rs).events.filterMap Event.fillId).length <
      wordSize := by
    unfold wordSize
    omega
  have hids : ∀ e ∈ (run rs).events, e.fillId ≠ some orderIdInvalid := by
    intro e he hinvalid
    have hmem : orderIdInvalid ∈ (run rs).events.filterMap Event.fillId :=
      List.mem_filterMap.mpr ⟨e, he, hinvalid⟩
    rw [(Numbered.run rs hword).1, List.mem_range'_1] at hmem
    unfold orderIdInvalid wordSize at hmem
    omega
  rw [forall_events_run] at heq hids
  intro pre r post hsplit
  exact Ladder.of_sameUpdates_step (wf_of_split h hsplit _) _
    (hids pre r post hsplit) (heq pre r post hsplit)

end Market

section Builds

variable (P P' : Type) [ObjectPool P] [ObjectPool P']
variable (books poolSize poolSize' : Nat)

/-- Both builds go through the same history. -/
theorem builds_run
    {rs : List MEClientRequest} (hfresh : FreshKeys rs)
    (htickers : TickersInRange books rs) (hprice : PricesInRange rs)
    (hmap : MatchingEngine.run MapLevels P books poolSize rs ≠
      .error .poolExhausted)
    (hvector : MatchingEngine.run VectorLevels P' books poolSize' rs ≠
      .error .poolExhausted) :
    ∃ e e', MatchingEngine.run MapLevels P books poolSize rs = .ok e ∧
      MatchingEngine.run VectorLevels P' books poolSize' rs = .ok e' ∧
      e.channel = (Market.run rs).sent Dialect.map ∧
      e'.channel = (Market.run rs).sent Dialect.vector := by
  have hrun : SucceedsWith (MatchingEngine.run MapLevels P books poolSize rs)
      fun e => MatchingEngine.Represents books e (Market.run rs) :=
    MatchingEngine.run_refines P books poolSize hfresh htickers
      fun _ _ _ => trivial
  have hrun' :
      SucceedsWith (MatchingEngine.run VectorLevels P' books poolSize' rs)
        fun e => MatchingEngine.Represents books e (Market.run rs) :=
    MatchingEngine.run_refines P' books poolSize' hfresh htickers hprice
  obtain ⟨e, he, hrep⟩ := hrun.of_ne hmap
  obtain ⟨e', he', hrep'⟩ := hrun'.of_ne hvector
  exact ⟨e, e', he, he', hrep.sent, hrep'.sent⟩

/-- **Clients see the same responses from both builds exactly when**, in every
request of the run, a withdrawal takes half of what is left of the order and a
FillAndKill replacement can be filled. -/
theorem builds_answer_alike_iff
    {rs : List MEClientRequest} (hfresh : FreshKeys rs)
    (htickers : TickersInRange books rs) (hprice : PricesInRange rs)
    (hmap : MatchingEngine.run MapLevels P books poolSize rs ≠
      .error .poolExhausted)
    (hvector : MatchingEngine.run VectorLevels P' books poolSize' rs ≠
      .error .poolExhausted) :
    ∃ e e', MatchingEngine.run MapLevels P books poolSize rs = .ok e ∧
      MatchingEngine.run VectorLevels P' books poolSize' rs = .ok e' ∧
      (e.channel.responses = e'.channel.responses ↔
        Market.EachStep Ladder.SameResponses rs) := by
  obtain ⟨e, e', he, he', hsent, hsent'⟩ :=
    builds_run P P' books poolSize poolSize' hfresh htickers hprice hmap hvector
  refine ⟨e, e', he, he', ?_⟩
  rw [hsent, hsent']
  exact Market.responses_agree_iff hfresh

/-- **Both builds publish the same updates when** no request of the run trades
and no replacement that is performed is FillAndKill; and, as long as fewer than
`2^63` fills are made, only then. -/
theorem builds_publish_alike
    {rs : List MEClientRequest} (hfresh : FreshKeys rs)
    (htickers : TickersInRange books rs) (hprice : PricesInRange rs)
    (hmap : MatchingEngine.run MapLevels P books poolSize rs ≠
      .error .poolExhausted)
    (hvector : MatchingEngine.run VectorLevels P' books poolSize' rs ≠
      .error .poolExhausted) :
    ∃ e e', MatchingEngine.run MapLevels P books poolSize rs = .ok e ∧
      MatchingEngine.run VectorLevels P' books poolSize' rs = .ok e' ∧
      (Market.EachStep Ladder.SameUpdates rs →
        e.channel.updates = e'.channel.updates) ∧
      ((e.channel.updates.filter fun u => u.type = .trade).length < 2 ^ 63 →
        e.channel.updates = e'.channel.updates →
          Market.EachStep Ladder.SameUpdates rs) := by
  obtain ⟨e, e', he, he', hsent, hsent'⟩ :=
    builds_run P P' books poolSize poolSize' hfresh htickers hprice hmap hvector
  refine ⟨e, e', he, he', ?_⟩
  rw [hsent, hsent', Market.length_trades]
  exact ⟨Market.updates_agree hfresh, Market.of_updates_agree hfresh⟩

end Builds

/-- A full cancel is answered with 5 shares canceled by the map build, and
with none by the vector build. -/
theorem builds_answer_cancel_differently :
    FreshKeys [.make .new 1 0 1 .goodTillCancel .sell 100 5,
        .make .cancel 1 0 1 .goodTillCancel .sell 100 0] ∧
      TickersInRange 1 [.make .new 1 0 1 .goodTillCancel .sell 100 5,
        .make .cancel 1 0 1 .goodTillCancel .sell 100 0] ∧
      PricesInRange [.make .new 1 0 1 .goodTillCancel .sell 100 5,
        .make .cancel 1 0 1 .goodTillCancel .sell 100 0] ∧
      (MatchingEngine.run MapLevels ScanPool 1 4
        [.make .new 1 0 1 .goodTillCancel .sell 100 5,
          .make .cancel 1 0 1 .goodTillCancel .sell 100 0]).toOption.map
          (fun e => e.channel.responses.map fun r => (r.status, r.leavesQty)) =
        some [(.accepted, 5), (.canceled, 5)] ∧
      (MatchingEngine.run VectorLevels ScanPool 1 4
        [.make .new 1 0 1 .goodTillCancel .sell 100 5,
          .make .cancel 1 0 1 .goodTillCancel .sell 100 0]).toOption.map
          (fun e => e.channel.responses.map fun r => (r.status, r.leavesQty)) =
        some [(.accepted, 5), (.canceled, 0)] ∧
      (MatchingEngine.run MapLevels ScanPool 1 4
        [.make .new 1 0 1 .goodTillCancel .sell 100 5,
          .make .cancel 1 0 1 .goodTillCancel .sell 100 0]).toOption.map
          (fun e => e.channel.responses) ≠
        (MatchingEngine.run VectorLevels ScanPool 1 4
          [.make .new 1 0 1 .goodTillCancel .sell 100 5,
            .make .cancel 1 0 1 .goodTillCancel .sell 100 0]).toOption.map
            fun e => e.channel.responses := by
  decide

/-- A cancel of half of an order is answered alike. -/
theorem builds_answer_alike_iff_example :
    ∃ e e',
      MatchingEngine.run MapLevels ScanPool 1 4
        [.make .new 1 0 1 .goodTillCancel .sell 100 6,
          .make .cancel 1 0 1 .goodTillCancel .sell 100 3] = .ok e ∧
      MatchingEngine.run VectorLevels ScanPool 1 4
        [.make .new 1 0 1 .goodTillCancel .sell 100 6,
          .make .cancel 1 0 1 .goodTillCancel .sell 100 3] = .ok e' ∧
      (e.channel.responses = e'.channel.responses ↔
        Market.EachStep Ladder.SameResponses
          [.make .new 1 0 1 .goodTillCancel .sell 100 6,
            .make .cancel 1 0 1 .goodTillCancel .sell 100 3]) :=
  builds_answer_alike_iff ScanPool ScanPool 1 4 4 (by decide) (by decide)
    (by decide) (ne_error_of_isOk (by decide)) (ne_error_of_isOk (by decide))

/-- The TRADE update of a fill carries match id 1 from the map build, and none
from the vector build. -/
theorem builds_publish_trade_differently :
    FreshKeys [.make .new 1 0 1 .goodTillCancel .sell 100 5,
        .make .new 2 0 1 .goodTillCancel .buy 100 5] ∧
      TickersInRange 1 [.make .new 1 0 1 .goodTillCancel .sell 100 5,
        .make .new 2 0 1 .goodTillCancel .buy 100 5] ∧
      PricesInRange [.make .new 1 0 1 .goodTillCancel .sell 100 5,
        .make .new 2 0 1 .goodTillCancel .buy 100 5] ∧
      (MatchingEngine.run MapLevels ScanPool 1 4
        [.make .new 1 0 1 .goodTillCancel .sell 100 5,
          .make .new 2 0 1 .goodTillCancel .buy 100 5]).toOption.map
          (fun e => e.channel.updates.map fun u => (u.type, u.matchId)) =
        some [(.add, orderIdInvalid), (.trade, 1)] ∧
      (MatchingEngine.run VectorLevels ScanPool 1 4
        [.make .new 1 0 1 .goodTillCancel .sell 100 5,
          .make .new 2 0 1 .goodTillCancel .buy 100 5]).toOption.map
          (fun e => e.channel.updates.map fun u => (u.type, u.matchId)) =
        some [(.add, orderIdInvalid), (.trade, orderIdInvalid)] ∧
      (MatchingEngine.run MapLevels ScanPool 1 4
        [.make .new 1 0 1 .goodTillCancel .sell 100 5,
          .make .new 2 0 1 .goodTillCancel .buy 100 5]).toOption.map
          (fun e => e.channel.updates) ≠
        (MatchingEngine.run VectorLevels ScanPool 1 4
          [.make .new 1 0 1 .goodTillCancel .sell 100 5,
            .make .new 2 0 1 .goodTillCancel .buy 100 5]).toOption.map
            fun e => e.channel.updates := by
  decide

/-- A bid below the best ask does not trade, and is published alike. -/
theorem builds_publish_alike_example :
    ∃ e e',
      MatchingEngine.run MapLevels ScanPool 1 4
        [.make .new 1 0 1 .goodTillCancel .sell 100 6,
          .make .new 2 0 1 .goodTillCancel .buy 99 3] = .ok e ∧
      MatchingEngine.run VectorLevels ScanPool 1 4
        [.make .new 1 0 1 .goodTillCancel .sell 100 6,
          .make .new 2 0 1 .goodTillCancel .buy 99 3] = .ok e' ∧
      (Market.EachStep Ladder.SameUpdates
          [.make .new 1 0 1 .goodTillCancel .sell 100 6,
            .make .new 2 0 1 .goodTillCancel .buy 99 3] →
        e.channel.updates = e'.channel.updates) ∧
      ((e.channel.updates.filter fun u => u.type = .trade).length < 2 ^ 63 →
        e.channel.updates = e'.channel.updates →
          Market.EachStep Ladder.SameUpdates
            [.make .new 1 0 1 .goodTillCancel .sell 100 6,
              .make .new 2 0 1 .goodTillCancel .buy 99 3]) :=
  builds_publish_alike ScanPool ScanPool 1 4 4 (by decide) (by decide)
    (by decide) (ne_error_of_isOk (by decide)) (ne_error_of_isOk (by decide))

end NanoExchange
