import NanoExchange.Engine.Custody
import NanoExchange.Engine.MatchingEngine

/-!
# Which prices circulate

The prices that the messages of the engine show are those of the request that
is answered and those of resting orders, and a resting order has the price of
the request that has brought it.  `Price_INVALID` stands in responses only, in
fields that no message shows.

`Event.Follows` says what the events of a request take from it and from the
resting orders.
-/

namespace NanoExchange

/-- The price that the OUCH message for a response shows, if it shows one. -/
def MEClientResponse.shownPrice (x : MEClientResponse) : Option Price :=
  match x.status with
  | .accepted | .modified => some x.price
  | .executed => some x.executionPrice
  | .canceled | .cancelRejected => none

/-- The price that the ITCH message for an update shows, if it shows one. -/
def MEMarketUpdate.shownPrice (u : MEMarketUpdate) : Option Price :=
  match u.type with
  | .add | .modify => some u.price
  | .cancel | .trade | .snapshotStart | .snapshotEnd | .clear => none

namespace Event

/-- The price that the messages about an event show, if they show one. -/
def shownPrice : Event → Option Price
  | .accepted a | .modified a _ | .rested _ a _ => some a.price
  | .filled _ o _ _ _ => some o.price
  | .killed _ _ _ | .canceled _ _ _ | .excessive _ _ | .unknown _ _ _ _ =>
      none

variable {e : Event} {d : Dialect}

/-- **Which event a response is about**, for the responses whose messages show
a price. -/
theorem of_mem_responses {x : MEClientResponse} (hx : x ∈ e.responses d) :
    (x.status = .accepted → ∃ a, e = .accepted a ∧ x = acceptedResponse a) ∧
    (x.status = .modified →
      ∃ a old, e = .modified a old ∧ x = modifiedResponse a) ∧
    (x.status = .executed → ∃ a o fill remaining matchId,
      e = .filled a o fill remaining matchId ∧
        (x = restingResponse a.tickerId o fill o.price matchId ∨
          x = aggressiveResponse a fill o.price remaining matchId)) := by
  cases e with
  | accepted a | modified a | canceled | excessive | unknown =>
      simp only [responses, outputs, List.filterMap_cons, List.filterMap_nil,
        Output.response?, List.mem_singleton] at hx
      subst hx
      simp [acceptedResponse, modifiedResponse, canceledResponse,
        excessiveResponse, rejectedResponse]
  | filled a o fill remaining matchId =>
      simp only [responses, outputs, List.filterMap_cons, List.filterMap_nil,
        Output.response?, List.mem_cons, List.not_mem_nil, or_false] at hx
      have hstatus : x.status = .executed := by
        rcases hx with rfl | rfl <;> rfl
      rw [hstatus]
      refine ⟨by simp, by simp, fun _ => ?_⟩
      exact ⟨a, o, fill, remaining, matchId, rfl, hx⟩
  | rested replacing => cases replacing <;> simp [responses, outputs] at hx
  | killed replacing a q =>
      obtain rfl := eq_killedResponse hx
      simp [killedResponse]

/-- **What an event takes from the request and from the ladder.** -/
def Follows (A : Ladder) (r : MEClientRequest) : Event → Prop
  | .accepted a => r.action = .new ∧ a = A.newArgs r
  | .modified a old => r.action = .modify ∧
      A.find? (r.clientId, r.clientOrderId) = some old ∧
      a = A.replacementArgs r old.side
  | .filled _ o _ _ _ => ∃ o' ∈ A.orders, o.terms = o'.terms
  | .rested _ a _ => a.price = r.price
  | .killed _ _ _ | .canceled _ _ _ | .excessive _ _ | .unknown _ _ _ _ =>
      True

end Event

namespace Ladder

variable {A : Ladder}

/-- Entering an order fills resting orders and lets the order rest. -/
theorem enter_follows
    {B : Ladder} {r : MEClientRequest} {n : OrderId} {replacing : Bool}
    {a : OrderArgs} (hB : ∀ s, B.side s ⊆ A.side s) (ha : a.price = r.price)
    {e : Event} (he : e ∈ (B.bump.enter n replacing a).events) :
    e.Follows A r := by
  rcases mem_enter_events he with he | ⟨q, rfl⟩ | ⟨q, rfl⟩
  · obtain ⟨o, ho, x, fill, remaining, matchId, rfl⟩ := sweep_fills_met he
    exact ⟨o, mem_orders_of_side (hB _ ho), rfl⟩
  · exact ha
  · trivial

/-- **The events of a request.** -/
theorem step_follows
    (n : OrderId) (r : MEClientRequest) {e : Event}
    (he : e ∈ (A.step n r).events) : e.Follows A r := by
  rcases A.step_shapes n r with
    ⟨e', -, heq, hkind⟩ | ⟨o, -, -, -, heq⟩ | ⟨haction, heq⟩ |
      ⟨old, haction, hfind, -, heq⟩
  · rw [heq] at he
    obtain rfl := List.mem_singleton.mp he
    rcases hkind with rfl | ⟨o, -, rfl⟩
    · trivial
    · trivial
  · rw [heq] at he
    obtain rfl := List.mem_singleton.mp he
    trivial
  · rw [heq] at he
    rcases List.mem_cons.mp he with rfl | he
    · exact ⟨haction, rfl⟩
    · exact enter_follows (fun s => List.Subset.refl _) rfl he
  · rw [heq] at he
    rcases List.mem_cons.mp he with rfl | he
    · exact ⟨haction, hfind, rfl⟩
    · refine enter_follows (fun s o ho => ?_) rfl he
      exact List.mem_of_mem_filter ho

end Ladder

/-- A shown price is that of the request or that of a resting order. -/
theorem Event.Follows.shownPrice
    {A : Ladder} {r : MEClientRequest} {e : Event} (h : e.Follows A r)
    {p : Price} (hp : e.shownPrice = some p) :
    p = r.price ∨ ∃ o ∈ A.orders, p = o.price := by
  cases e with
  | accepted a =>
      obtain ⟨-, rfl⟩ := h
      exact .inl (Option.some.inj hp).symm
  | modified a old =>
      obtain ⟨-, -, rfl⟩ := h
      exact .inl (Option.some.inj hp).symm
  | filled a o =>
      obtain ⟨o', ho', hterms⟩ := h
      obtain rfl := Option.some.inj hp
      exact .inr ⟨o', ho', OrderInfo.price_of_terms hterms⟩
  | rested replacing a =>
      exact .inl ((Option.some.inj hp).symm.trans h)
  | killed | canceled | excessive | unknown => cases hp

namespace Market

/-- The orders that rest after a request were resting before, or the request
brings them. -/
theorem terms_next
    {M : Market} {r : MEClientRequest} (hwf : (M.ladder r.tickerId).WF)
    {t : TickerId} {o : OrderInfo} (ho : o ∈ ((M.next r).ladder t).orders) :
    (∃ o' ∈ (M.ladder t).orders, o.terms = o'.terms) ∨
      t = r.tickerId ∧ r.Brings o := by
  by_cases ht : t = r.tickerId
  · subst ht
    rw [next_ladder_self] at ho
    exact (Ladder.step_terms hwf _ r ho).imp_right fun hnew => ⟨rfl, hnew⟩
  · rw [next_ladder_of_ne _ ht] at ho
    exact .inl ⟨o, ho, rfl⟩

variable {rs : List MEClientRequest}

/-- **Every resting order of a run has been brought by a request.** -/
theorem run_brings (hfresh : FreshKeys rs) {t : TickerId} {o : OrderInfo}
    (ho : o ∈ ((run rs).ladder t).orders) :
    ∃ r ∈ rs, r.Brings o ∧ r.tickerId = t := by
  have hall := run_induction (C := fun _ r => r ∈ rs)
    (fun M => ∀ t, ∀ o ∈ (M.ladder t).orders,
      ∃ r ∈ rs, r.Brings o ∧ r.tickerId = t) ?_ ?_ hfresh ?_
  · exact hall t o ho
  · intro t o ho
    cases ho
  · intro M r hwf _ hr hM t o ho
    rcases terms_next (hwf _) ho with ⟨o', ho', hterms⟩ | ⟨rfl, hbrings⟩
    · obtain ⟨r', hr', hbrings, ht⟩ := hM t o' ho'
      exact ⟨r', hr', hbrings.of_terms hterms, ht⟩
    · exact ⟨r, hr, hbrings, rfl⟩
  · rintro pre r post rfl
    exact List.mem_append_right _ List.mem_cons_self

end Market

end NanoExchange
