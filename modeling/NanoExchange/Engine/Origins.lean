import NanoExchange.Engine.Custody
import NanoExchange.Engine.Streams

/-!
# Where orders and reports come from

A request that enters an order gives it the next market order id and reports
it under that id; everything else that is reported under an id is about a
resting order that the request fills or cancels.

An order that rests has been entered by one request of the run, and its
`initialQuantity_` is what the sweep on entry had left of it.  While the id
counter has not come round, the id tells which request that was.
-/

namespace NanoExchange

open Lib

namespace Event

/-- The market order ids and quantities that the responses to an event carry,
rejections apart. -/
def echoes : Event → List (OrderId × Quantity)
  | .accepted a | .modified a _ | .killed _ a _ =>
      [(a.marketOrderId, a.initialQuantity)]
  | .filled a o _ _ _ =>
      [(o.marketOrderId, o.initialQuantity),
        (a.marketOrderId, a.initialQuantity)]
  | .canceled _ o _ => [(o.marketOrderId, o.initialQuantity)]
  | .rested _ _ _ | .excessive _ _ | .unknown _ _ _ _ => []

/-- What the responses of the map book echo. -/
theorem echoes_eq (e : Event) :
    ((e.responses Dialect.map).filter fun x =>
        x.status ≠ .cancelRejected).map
      (fun x => (x.marketOrderId, x.qty)) = e.echoes := by
  cases e with
  | rested replacing => cases replacing <;> rfl
  | killed replacing => cases replacing <;> rfl
  | _ => rfl

end Event

namespace Ladder

/-- The request enters an order of side `s`. -/
def Enters (A : Ladder) (r : MEClientRequest) (s : Side) : Prop :=
  match r.action with
  | .new => s = r.side
  | .cancel => False
  | .modify => ∃ old, A.find? (r.clientId, r.clientOrderId) = some old ∧
      ¬ (r.newClientOrderId = 0 ∨ r.qty = 0) ∧ s = old.side

/-- The request is reported to the owner of the resting order `o`: it cancels
shares of it, or fills it. -/
def Reports (A : Ladder) (r : MEClientRequest) (o : OrderInfo) : Prop :=
  (r.action = .cancel ∧ A.find? (r.clientId, r.clientOrderId) = some o ∧
    canceledQty r o ≤ o.remainingQuantity) ∨
  ∃ s, A.Enters r s ∧
    Reached (s.crosses r.price) r.qty (A.side s.opposite) o

variable {A : Ladder} {r : MEClientRequest} {s : Side}

theorem Enters.unique {s' : Side} (h : A.Enters r s) (h' : A.Enters r s') :
    s = s' := by
  unfold Enters at h h'
  cases haction : r.action with
  | new =>
      simp only [haction] at h h'
      rw [h, h']
  | cancel => simp [haction] at h
  | modify =>
      simp only [haction] at h h'
      obtain ⟨old, hfind, -, rfl⟩ := h
      obtain ⟨old', hfind', -, rfl⟩ := h'
      obtain rfl := Option.some.inj (hfind.symm.trans hfind')
      rfl

/-- How an order of side `s` is entered: it is acknowledged by `e`, and the
order `a` is matched against what the request has left of the ladder, `B`. -/
structure EntersAs (A : Ladder) (n : OrderId) (r : MEClientRequest)
    (s : Side) (B : Ladder) (replacing : Bool) (a : OrderArgs) (e : Event) :
    Prop where
  side : a.side = s
  price : a.price = r.price
  quantity : a.initialQuantity = r.qty
  orderType : a.orderType = r.type
  marketOrderId : a.marketOrderId = A.nextMarketOrderId
  wf : B.WF
  trims : A.Trims B
  opposite : B.side s.opposite = A.side s.opposite
  next : B.nextMarketOrderId = (A.nextMarketOrderId + 1) % wordSize
  ack : e.echoes = [(a.marketOrderId, a.initialQuantity)]
  step : A.step n r = { B.enter n replacing a with
    events := e :: (B.enter n replacing a).events }

/-- **A request is turned down, or withdraws shares, or enters an order.** -/
theorem step_kinds (h : A.WF) (n : OrderId) (r : MEClientRequest) :
    (A.TurnsDown r ∧ ∃ e, e.echoes = [] ∧ A.step n r = ⟨A, n, [e]⟩) ∨
    (∃ o, r.action = .cancel ∧
      A.find? (r.clientId, r.clientOrderId) = some o ∧
      canceledQty r o ≤ o.remainingQuantity ∧
      A.step n r = ⟨A.withdraw o (canceledQty r o), n,
        [.canceled r.tickerId o (canceledQty r o)]⟩) ∨
    ∃ s B replacing a e, A.Enters r s ∧ A.EntersAs n r s B replacing a e := by
  have hself : A.Trims A := fun s => .refl (h.side_pos s)
  rcases A.step_shapes n r with
    ⟨e, hdown, heq, he⟩ | hcancel | ⟨haction, heq⟩ |
      ⟨old, haction, hfind, hgood, heq⟩
  · refine .inl ⟨hdown, e, ?_, heq⟩
    rcases he with rfl | ⟨o, -, rfl⟩
    · rfl
    · rfl
  · exact .inr (.inl hcancel)
  · refine .inr (.inr ⟨r.side, A.bump, false, A.newArgs r, _, ?_,
      { side := rfl, price := rfl, quantity := rfl, orderType := rfl
        marketOrderId := rfl, wf := (trims_bump h).wf h
        trims := trims_bump h, opposite := rfl, next := rfl, ack := rfl
        step := heq }⟩)
    simp only [Enters, haction]
  · have hmem := (mem_of_find? hfind).1
    have herase := trims_erase h old.key
    refine .inr (.inr ⟨old.side, (A.erase old.key).bump, true,
      A.replacementArgs r old.side, _, ?_,
      { side := rfl, price := rfl, quantity := rfl, orderType := rfl
        marketOrderId := rfl, wf := wf_erase_bump h old.key
        trims := herase.trans (trims_bump (herase.wf h))
        opposite := erase_side_opposite h hmem, next := rfl, ack := rfl
        step := heq }⟩)
    simp only [Enters, haction]
    exact ⟨old, hfind, hgood, rfl⟩

theorem not_enters_of_turnsDown (h : A.TurnsDown r) : ¬ A.Enters r s := by
  intro hs
  unfold TurnsDown at h
  unfold Enters at hs
  cases haction : r.action with
  | new => simp [haction] at h
  | cancel => simp [haction] at hs
  | modify =>
      simp only [haction] at h hs
      obtain ⟨old, hfind, hgood, -⟩ := hs
      exact hgood (h old hfind)

theorem not_reports_of_turnsDown (h : A.TurnsDown r) (o : OrderInfo) :
    ¬ A.Reports r o := by
  rintro (⟨haction, hfind, hle⟩ | ⟨s, hs, -⟩)
  · unfold TurnsDown at h
    simp only [haction] at h
    exact absurd (h o hfind) (not_lt.mpr hle)
  · exact not_enters_of_turnsDown h hs

section Entered

variable {n : OrderId} {B : Ladder} {replacing : Bool} {a : OrderArgs}
variable {e : Event}

theorem EntersAs.id
    (ha : A.EntersAs n r s B replacing a e) :
    (a.marketOrderId, a.initialQuantity) = (A.nextMarketOrderId, r.qty) := by
  rw [ha.marketOrderId, ha.quantity]

theorem EntersAs.sweepBy_eq
    (ha : A.EntersAs n r s B replacing a e) :
    B.sweepBy n a =
      sweep (s.crosses r.price) a n r.qty (A.side s.opposite) := by
  rw [sweepBy, ha.side, ha.price, ha.quantity, ha.opposite]

/-- A resting order that is reached is filled. -/
theorem EntersAs.fill
    (ha : A.EntersAs n r s B replacing a e) (h : A.WF) {o : OrderInfo}
    (ho : Reached (s.crosses r.price) r.qty (A.side s.opposite) o) :
    ∃ x fill remaining matchId,
      .filled a (o.withRemaining x) fill remaining matchId ∈
        (B.enter n replacing a).events := by
  obtain ⟨x, fill, remaining, matchId, hfill⟩ :=
    fill_of_reached (a := a) (n := n) (h.crossing_first s r.price) ho
  rw [← ha.sweepBy_eq] at hfill
  exact ⟨x, fill, remaining, matchId, B.fills_subset_enter n replacing a hfill⟩

/-- What is reported after the acknowledgement is about the order itself, or
about a resting order that is reached. -/
theorem EntersAs.echoes_cases
    (ha : A.EntersAs n r s B replacing a e) {e' : Event}
    (he : e' ∈ (B.enter n replacing a).events) {p : OrderId × Quantity}
    (hp : p ∈ e'.echoes) :
    p = (A.nextMarketOrderId, r.qty) ∨
      ∃ o, Reached (s.crosses r.price) r.qty (A.side s.opposite) o ∧
        p = (o.marketOrderId, o.initialQuantity) := by
  rcases mem_enter_events he with hfill | ⟨q, rfl⟩ | ⟨q, rfl⟩
  · rw [ha.sweepBy_eq] at hfill
    obtain ⟨o, hreached, x, fill, remaining, matchId, rfl⟩ :=
      reached_of_fill hfill
    rcases List.mem_cons.mp hp with rfl | hp
    · exact .inr ⟨o, hreached, rfl⟩
    · exact .inl ((List.mem_singleton.mp hp).trans ha.id)
  · cases hp
  · exact .inl ((List.mem_singleton.mp hp).trans ha.id)

end Entered

/-- **What a request is reported under**: the next market order id and its own
quantity, if it enters an order, and the resting orders that it fills or
cancels. -/
theorem forall_step_echoes
    (h : A.WF) (n : OrderId) (r : MEClientRequest)
    (Q : OrderId × Quantity → Prop) :
    (∀ e ∈ (A.step n r).events, ∀ p ∈ e.echoes, Q p) ↔
      (∀ s, A.Enters r s → Q (A.nextMarketOrderId, r.qty)) ∧
        ∀ o, A.Reports r o → Q (o.marketOrderId, o.initialQuantity) := by
  rcases step_kinds h n r with
    ⟨hdown, e, hnone, heq⟩ | ⟨o, haction, hfind, hle, heq⟩ |
      ⟨s, B, replacing, a, e, hs, ha⟩
  · rw [heq]
    refine iff_of_true ?_ ⟨fun s hs => ?_, fun o ho => ?_⟩
    · simp [hnone]
    · exact absurd hs (not_enters_of_turnsDown hdown)
    · exact absurd ho (not_reports_of_turnsDown hdown o)
  · have hno : ∀ s, ¬ A.Enters r s := fun s hs => by
      simp [Enters, haction] at hs
    rw [heq]
    simp only [List.mem_singleton, forall_eq, Event.echoes]
    constructor
    · intro hQ
      refine ⟨fun s hs => absurd hs (hno s), ?_⟩
      rintro o' (⟨-, hfind', -⟩ | ⟨s, hs, -⟩)
      · obtain rfl := Option.some.inj (hfind.symm.trans hfind')
        exact hQ
      · exact absurd hs (hno s)
    · exact fun hQ => hQ.2 o (.inl ⟨haction, hfind, hle⟩)
  · have hnotCancel : r.action ≠ .cancel := by
      intro haction
      simp [Enters, haction] at hs
    rw [ha.step]
    simp only [List.forall_mem_cons, ha.ack, ha.id, List.mem_singleton,
      forall_eq]
    constructor
    · rintro ⟨hown, hall⟩
      refine ⟨fun _ _ => hown, ?_⟩
      rintro o (⟨haction, -⟩ | ⟨s', hs', hreached⟩)
      · exact absurd haction hnotCancel
      · obtain rfl := hs.unique hs'
        obtain ⟨x, fill, remaining, matchId, hfill⟩ := ha.fill h hreached
        exact hall _ hfill _ List.mem_cons_self
    · rintro ⟨hown, hreported⟩
      refine ⟨hown s hs, fun e he p hp => ?_⟩
      rcases ha.echoes_cases he hp with rfl | ⟨o, hreached, rfl⟩
      · exact hown s hs
      · exact hreported o (.inr ⟨s, hs, hreached⟩)

/-- The request enters a GoodTillCancel order that finds less than it wants,
so that `q` shares of it come to rest. -/
def LetsRest (A : Ladder) (r : MEClientRequest) (s : Side) (q : Quantity) :
    Prop :=
  A.Enters r s ∧ r.type = .goodTillCancel ∧ q ≠ 0 ∧
    q = r.qty - A.available s r.price

/-- An order that rests after a request was resting before, or is what the
request lets rest. -/
theorem step_origin
    (h : A.WF) (n : OrderId) (r : MEClientRequest) {o : OrderInfo}
    (ho : o ∈ (A.step n r).ladder.orders) :
    (∃ o' ∈ A.orders, o.terms = o'.terms) ∨
      o.marketOrderId = A.nextMarketOrderId ∧
        ∃ s, A.LetsRest r s o.initialQuantity := by
  rcases step_kinds h n r with
    ⟨-, e, -, heq⟩ | ⟨o₁, -, hfind, -, heq⟩ |
      ⟨s, B, replacing, a, e, hs, ha⟩
  · rw [heq] at ho
    exact .inl ⟨o, ho, rfl⟩
  · rw [heq] at ho
    exact .inl ((trims_withdraw h (mem_of_find? hfind).1 _).terms ho)
  · rw [ha.step] at ho
    rcases enter_terms ha.wf ho with ⟨o', ho', hterms⟩ | ⟨htype, hrem, rfl⟩
    · obtain ⟨o'', ho'', hterms'⟩ := ha.trims.terms ho'
      exact .inl ⟨o'', ho'', hterms.trans hterms'⟩
    · have hleft : (B.sweepBy n a).remaining =
          r.qty - A.available s r.price := by
        rw [sweepBy_remaining ha.wf, ha.quantity, ha.side, ha.price, available,
          ha.opposite]
        rfl
      exact .inr ⟨ha.marketOrderId, s, hs, ha.orderType.symm.trans htype, hrem,
        hleft⟩

/-- Entering an order takes up an id. -/
theorem Enters.next
    (hs : A.Enters r s) (h : A.WF) (n : OrderId)
    (hbound : A.nextMarketOrderId + 1 < wordSize) :
    (A.step n r).ladder.nextMarketOrderId = A.nextMarketOrderId + 1 := by
  rcases step_kinds h n r with
    ⟨hdown, -⟩ | ⟨o, haction, -⟩ | ⟨s, B, replacing, a, e, -, ha⟩
  · exact absurd hs (not_enters_of_turnsDown hdown)
  · simp [Enters, haction] at hs
  · rw [ha.step]
    exact (enter_next B n replacing a).trans
      (ha.next.trans (Nat.mod_eq_of_lt hbound))

section Runs

variable {n : OrderId} {rs : List MEClientRequest}

theorem run_append (n : OrderId) (rs : List MEClientRequest)
    (r : MEClientRequest) :
    run n (rs ++ [r]) = (run n rs).next r := by
  simp [run]

/-- The events of a run are those of its requests. -/
theorem forall_events_run
    (n : OrderId) (Q : Event → Prop) (rs : List MEClientRequest) :
    (∀ e ∈ (run n rs).events, Q e) ↔
      Along (fun pre r => ∀ e ∈
        ((run n pre).ladder.step (run n pre).matchIds r).events, Q e) rs := by
  induction rs using List.reverseRecOn with
  | nil => exact iff_of_true (by simp [run, StepResult.start]) along_nil
  | append_singleton rs r ih =>
      have hevents : (run n (rs ++ [r])).events = (run n rs).events ++
          ((run n rs).ladder.step (run n rs).matchIds r).events := by
        rw [run_append]
        rfl
      rw [hevents, List.forall_mem_append, ih, along_concat]

theorem freshKeys_of_append
    {pre post : List MEClientRequest} (h : FreshKeys (pre ++ post)) :
    FreshKeys pre :=
  h.sublist ((List.sublist_append_left pre post).filterMap _)

/-- The id counter of a run. -/
theorem run_next_le (h : FreshKeys rs) :
    (run n rs).ladder.nextMarketOrderId ≤ rs.length + 1 := by
  induction rs using List.reverseRecOn with
  | nil => exact le_rfl
  | append_singleton rs r ih =>
      have hfresh := freshKeys_of_append h
      rw [run_append, List.length_append, List.length_singleton]
      exact (step_next_le (run_wf n hfresh) _ r).trans
        (Nat.succ_le_succ (ih hfresh))

/-- The id counter of a run that cannot wrap does not go back. -/
theorem run_next_mono
    {post : List MEClientRequest} (h : FreshKeys (rs ++ post))
    (hlen : (rs ++ post).length + 1 < wordSize) :
    (run n rs).ladder.nextMarketOrderId ≤
      (run n (rs ++ post)).ladder.nextMarketOrderId := by
  induction post using List.reverseRecOn with
  | nil => rw [List.append_nil]
  | append_singleton post r ih =>
      rw [← List.append_assoc] at h hlen ⊢
      have hfresh := freshKeys_of_append h
      rw [List.length_append, List.length_singleton] at hlen
      have hbound : (run n (rs ++ post)).ladder.nextMarketOrderId + 1 <
          wordSize :=
        lt_of_le_of_lt (Nat.succ_le_succ (run_next_le hfresh)) hlen
      rw [run_append]
      exact (ih hfresh ((Nat.lt_succ_self _).trans hlen)).trans
        (le_step_next (run_wf n hfresh) _ r hbound)

/-- The request that follows `pre` in the run enters an order under the
id `m`. -/
structure EntersUnder (n : OrderId) (rs : List MEClientRequest) (m : OrderId)
    (pre : List MEClientRequest) (r : MEClientRequest) (s : Side) : Prop where
  split : ∃ post, rs = pre ++ r :: post
  enters : (run n pre).ladder.Enters r s
  id : (run n pre).ladder.nextMarketOrderId = m

/-- An id that has been given out is below the counter. -/
theorem EntersUnder.lt_next
    {m : OrderId} {pre : List MEClientRequest} {r : MEClientRequest} {s : Side}
    (h : EntersUnder n rs m pre r s) (hfresh : FreshKeys rs)
    (hlen : rs.length + 1 < wordSize) :
    m < (run n rs).ladder.nextMarketOrderId := by
  obtain ⟨post, rfl⟩ := h.split
  rw [List.append_cons] at hfresh hlen ⊢
  have hpre := freshKeys_of_append (freshKeys_of_append hfresh)
  have hshort : pre.length + 1 + 1 < wordSize := by
    simp only [List.length_append, List.length_singleton] at hlen
    omega
  have hbound : (run n pre).ladder.nextMarketOrderId + 1 < wordSize :=
    lt_of_le_of_lt (Nat.succ_le_succ (run_next_le hpre)) hshort
  have hmono := run_next_mono (n := n) hfresh hlen
  rw [run_append] at hmono
  have hnext : ((run n pre).next r).ladder.nextMarketOrderId = m + 1 := by
    rw [← h.id]
    exact h.enters.next (run_wf n hpre) _ hbound
  rw [hnext] at hmono
  exact hmono

/-- An id is not given out a second time. -/
theorem EntersUnder.not_again
    {m : OrderId} {pre post : List MEClientRequest} {r r' : MEClientRequest}
    {s s' : Side} (h : EntersUnder n rs m pre r s) (hfresh : FreshKeys rs)
    (hlen : rs.length + 1 < wordSize) :
    ¬ EntersUnder n rs m (pre ++ r :: post) r' s' := by
  intro h'
  obtain ⟨rest, rfl⟩ := h'.split
  have hshort : (pre ++ r :: post).length + 1 < wordSize := by
    rw [List.length_append] at hlen
    omega
  have hunder : EntersUnder n (pre ++ r :: post) m pre r s :=
    ⟨⟨post, rfl⟩, h.enters, h.id⟩
  exact (hunder.lt_next (freshKeys_of_append hfresh) hshort).ne h'.id.symm

theorem EntersUnder.eq_of_append
    {m : OrderId} {pre t post post' : List MEClientRequest}
    {r r' : MEClientRequest} {s s' : Side} (h : EntersUnder n rs m pre r s)
    (h' : EntersUnder n rs m (pre ++ t) r' s') (hfresh : FreshKeys rs)
    (hlen : rs.length + 1 < wordSize) (hrest : r :: post = t ++ r' :: post') :
    pre = pre ++ t ∧ r = r' ∧ s = s' := by
  cases t with
  | nil =>
      rw [List.append_nil] at h' ⊢
      obtain ⟨rfl, -⟩ := List.cons.inj hrest
      exact ⟨rfl, rfl, h.enters.unique h'.enters⟩
  | cons x t =>
      obtain ⟨rfl, -⟩ := List.cons.inj hrest
      exact absurd h' (h.not_again hfresh hlen)

/-- **The id tells which request of the run has entered the order.** -/
theorem EntersUnder.unique
    {m : OrderId} {pre pre' : List MEClientRequest} {r r' : MEClientRequest}
    {s s' : Side} (h : EntersUnder n rs m pre r s)
    (h' : EntersUnder n rs m pre' r' s') (hfresh : FreshKeys rs)
    (hlen : rs.length + 1 < wordSize) :
    pre = pre' ∧ r = r' ∧ s = s' := by
  obtain ⟨post, hsplit⟩ := h.split
  obtain ⟨post', hsplit'⟩ := h'.split
  rcases List.append_eq_append_iff.mp (hsplit.symm.trans hsplit') with
    ⟨t, rfl, hrest⟩ | ⟨t, rfl, hrest⟩
  · exact h.eq_of_append h' hfresh hlen hrest
  · obtain ⟨hpre, hr, hs⟩ := h'.eq_of_append h hfresh hlen hrest
    exact ⟨hpre.symm, hr.symm, hs.symm⟩

/-- **Every resting order of a run is what some request has let rest.** -/
theorem run_origin (hfresh : FreshKeys rs) {o : OrderInfo}
    (ho : o ∈ (run n rs).ladder.orders) :
    ∃ pre r s, EntersUnder n rs o.marketOrderId pre r s ∧
      (run n pre).ladder.LetsRest r s o.initialQuantity := by
  induction rs using List.reverseRecOn generalizing o with
  | nil => cases ho
  | append_singleton rs r ih =>
      have hprefix := freshKeys_of_append hfresh
      rw [run_append] at ho
      rcases step_origin (run_wf n hprefix) _ r ho with
        ⟨o', ho', hterms⟩ | ⟨hid, s, hrest⟩
      · obtain ⟨pre, r', s, hunder, hrest⟩ := ih hprefix ho'
        obtain ⟨post, hsplit⟩ := hunder.split
        have hid : o.marketOrderId = o'.marketOrderId := by
          show o.terms.marketOrderId = o'.terms.marketOrderId
          rw [hterms]
        have hqty : o.initialQuantity = o'.initialQuantity := by
          show o.terms.initialQuantity = o'.terms.initialQuantity
          rw [hterms]
        refine ⟨pre, r', s, ⟨⟨post ++ [r], ?_⟩, hunder.enters, ?_⟩, ?_⟩
        · rw [hsplit, List.append_assoc, List.cons_append]
        · rw [hid]
          exact hunder.id
        · rwa [hqty]
      · exact ⟨rs, r, s, ⟨⟨[], rfl⟩, hrest.1, hid.symm⟩, hrest⟩

end Runs

end Ladder

end NanoExchange
