import NanoExchange.Engine.LadderInvariant
import NanoExchange.Engine.Reports

/-!
# Whose order it is

An order is known by its client, its client order id and its token, and it
keeps these three for as long as it rests.  A request brings at most one new
identity; every response carries the identity of an order that was resting, the
new one, or that of the request it turns down.

`step_touches` says what can happen to a resting order: a trade accounts for
it, or the request names it.
-/

namespace NanoExchange

/-- Client, client order id and token. -/
abbrev Identity := ClientId × OrderId × OrderToken

def OrderInfo.identity (o : OrderInfo) : Identity :=
  (o.clientId, o.clientOrderId, o.orderToken)

def OrderArgs.identity (a : OrderArgs) : Identity :=
  (a.clientId, a.clientOrderId, a.orderToken)

def MEClientResponse.identity (x : MEClientResponse) : Identity :=
  (x.clientId, x.clientOrderId, x.orderToken)

namespace MEClientRequest

/-- The identity that a request is known by itself. -/
def identity (r : MEClientRequest) : Identity :=
  (r.clientId, r.clientOrderId, r.orderToken)

/-- The identity of the order that a request brings. -/
def newIdentity (r : MEClientRequest) : Option Identity :=
  r.newKey.map fun k => (k.1, k.2, r.orderToken)

theorem newKey_of_newIdentity
    {r : MEClientRequest} {i : Identity} (h : r.newIdentity = some i) :
    r.newKey = some (i.1, i.2.1) ∧ i.2.2 = r.orderToken ∧
      i.1 = r.clientId := by
  unfold newIdentity newKey at *
  cases haction : r.action with
  | new =>
      simp only [haction, Option.map_some, Option.some.injEq] at h
      subst h
      exact ⟨rfl, rfl, rfl⟩
  | cancel => simp [haction] at h
  | modify =>
      simp only [haction, Option.map_some, Option.some.injEq] at h
      subst h
      exact ⟨rfl, rfl, rfl⟩

end MEClientRequest

/-- **The request brings the order**: under a new identity, and with its ticker
and price. -/
structure MEClientRequest.Brings (r : MEClientRequest) (o : OrderInfo) :
    Prop where
  identity : r.newIdentity = some o.identity
  tickerId : o.tickerId = r.tickerId
  price : o.price = r.price

theorem OrderInfo.Shrinks.terms
    {o o' : OrderInfo} (h : o.Shrinks o') : o'.terms = o.terms := by
  obtain ⟨x, -, -, rfl⟩ := h
  rfl

/-- An order is the same but for its remaining quantity. -/
theorem OrderInfo.identity_of_terms
    {o o' : OrderInfo} (h : o.terms = o'.terms) :
    o.identity = o'.identity := by
  show o.terms.identity = o'.terms.identity
  rw [h]

theorem OrderInfo.price_of_terms
    {o o' : OrderInfo} (h : o.terms = o'.terms) : o.price = o'.price := by
  show o.terms.price = o'.terms.price
  rw [h]

theorem MEClientRequest.Brings.of_terms
    {r : MEClientRequest} {o o' : OrderInfo} (h : r.Brings o')
    (hterms : o.terms = o'.terms) : r.Brings o where
  identity := by rw [OrderInfo.identity_of_terms hterms, h.identity]
  tickerId := by
    show o.terms.tickerId = r.tickerId
    rw [hterms]
    exact h.tickerId
  price := by rw [OrderInfo.price_of_terms hterms, h.price]

namespace Event

/-- The identities that the responses to an event carry. -/
def identities : Event → List Identity
  | .accepted a | .modified a _ | .killed _ a _ => [a.identity]
  | .filled a o _ _ _ => [o.identity, a.identity]
  | .rested _ _ _ => []
  | .canceled _ o _ | .excessive _ o => [o.identity]
  | .unknown _ c i t => [(c, i, t)]

/-- What is killed is reported in one way, if at all. -/
theorem eq_killedResponse
    {replacing : Bool} {a : OrderArgs} {q : Quantity} {d : Dialect}
    {x : MEClientResponse} (hx : x ∈ (Event.killed replacing a q).responses d) :
    x = killedResponse a q := by
  cases replacing with
  | false => simpa [responses, outputs] using hx
  | true =>
      cases hd : d.reportsKilledReplacement with
      | false => simp [responses, outputs, hd] at hx
      | true => simpa [responses, outputs, hd] using hx

theorem identity_of_mem_responses
    {e : Event} {d : Dialect} {x : MEClientResponse}
    (hx : x ∈ e.responses d) : x.identity ∈ e.identities := by
  cases e with
  | accepted | modified | canceled | excessive | unknown =>
      simp only [responses, outputs, List.filterMap_cons, List.filterMap_nil,
        Output.response?, List.mem_singleton] at hx
      subst hx
      exact List.mem_singleton_self _
  | filled a o =>
      simp only [responses, outputs, List.filterMap_cons, List.filterMap_nil,
        Output.response?, List.mem_cons, List.not_mem_nil, or_false] at hx
      rcases hx with rfl | rfl
      · exact List.mem_cons_self
      · exact List.mem_cons_of_mem _ List.mem_cons_self
  | rested replacing => cases replacing <;> simp [responses, outputs] at hx
  | killed replacing a q =>
      obtain rfl := eq_killedResponse hx
      exact List.mem_singleton_self _

/-- The events that are answered with CANCEL_REJECTED. -/
def Rejects : Event → Prop
  | .excessive _ _ | .unknown _ _ _ _ => True
  | _ => False

theorem rejects_of_cancelRejected
    {e : Event} {d : Dialect} {x : MEClientResponse}
    (hx : x ∈ e.responses d) :
    x.status = .cancelRejected ↔ e.Rejects := by
  cases e with
  | accepted | modified | canceled | excessive | unknown =>
      simp only [responses, outputs, List.filterMap_cons, List.filterMap_nil,
        Output.response?, List.mem_singleton] at hx
      subst hx
      simp [Rejects, acceptedResponse, modifiedResponse, canceledResponse,
        excessiveResponse, rejectedResponse]
  | filled =>
      simp only [responses, outputs, List.filterMap_cons, List.filterMap_nil,
        Output.response?, List.mem_cons, List.not_mem_nil, or_false] at hx
      rcases hx with rfl | rfl <;>
        simp [Rejects, restingResponse, aggressiveResponse]
  | rested replacing => cases replacing <;> simp [responses, outputs] at hx
  | killed replacing a q =>
      obtain rfl := eq_killedResponse hx
      simp [Rejects, killedResponse]

end Event

/-- A trade accounts for what has become of an order: a fill of it has
happened, and what the fill has left of it is there. -/
def OrderInfo.FilledIn (o : OrderInfo) (events : List Event)
    (left : List OrderInfo) : Prop :=
  ∃ a x fill remaining matchId,
    .filled a (o.withRemaining x) fill remaining matchId ∈ events ∧
    o.remainingQuantity = x + fill ∧ (x = 0 ∨ o.withRemaining x ∈ left)

theorem OrderInfo.FilledIn.mono
    {o : OrderInfo} {events events' : List Event}
    {left left' : List OrderInfo} (h : o.FilledIn events left)
    (hevents : events ⊆ events') (hleft : left ⊆ left') :
    o.FilledIn events' left' := by
  obtain ⟨a, x, fill, remaining, matchId, hmem, hqty, hx⟩ := h
  exact ⟨a, x, fill, remaining, matchId, hevents hmem, hqty,
    hx.imp_right fun h => hleft h⟩

section Sweeps

variable {R : Price → Prop} [DecidablePred R] {a : OrderArgs}

/-- A fill is about an order that was met. -/
theorem sweep_fills_met
    {n : OrderId} {q : Quantity} {l : List OrderInfo} {e : Event}
    (he : e ∈ (sweep R a n q l).fills) :
    ∃ o ∈ l, ∃ x fill remaining matchId,
      e = .filled a (o.withRemaining x) fill remaining matchId := by
  obtain ⟨o, hreached, hfill⟩ := reached_of_fill he
  exact ⟨o, hreached.mem, hfill⟩

/-- An order that a sweep does not leave as it was has been filled, and that is
all that has become of it. -/
theorem filled_of_swept
    {n : OrderId} {q : Quantity} {l : List OrderInfo} {o : OrderInfo}
    (ho : o ∈ l) (hgone : o ∉ (sweep R a n q l).resting) :
    o.FilledIn (sweep R a n q l).fills (sweep R a n q l).resting := by
  induction l generalizing n q with
  | nil => cases ho
  | cons o' l ih =>
      by_cases hq : q = 0
      · subst hq
        rw [sweep_zero] at hgone
        exact absurd ho hgone
      by_cases hreach : R o'.price
      · by_cases hle : o'.remainingQuantity ≤ q
        · rw [sweep_full hq hreach hle] at hgone ⊢
          rcases List.mem_cons.mp ho with rfl | ho
          · exact ⟨_, 0, _, _, _, List.mem_cons_self, (Nat.zero_add _).symm,
              .inl rfl⟩
          · exact (ih ho hgone).mono (List.subset_cons_self _ _)
              (List.Subset.refl _)
        · rw [sweep_part hq hreach hle] at hgone ⊢
          rcases List.mem_cons.mp ho with rfl | ho
          · exact ⟨_, _, _, _, _, List.mem_singleton_self _,
              (Nat.sub_add_cancel (Nat.le_of_not_le hle)).symm,
              .inr List.mem_cons_self⟩
          · exact absurd (List.mem_cons_of_mem _ ho) hgone
      · rw [sweep_stop n q l hreach] at hgone
        exact absurd ho hgone

end Sweeps

namespace Ladder

variable {A : Ladder}

/-- What is left after orders and shares have been taken out was there. -/
theorem Trims.terms
    {B : Ladder} (h : A.Trims B) {o : OrderInfo} (ho : o ∈ B.orders) :
    ∃ o' ∈ A.orders, o.terms = o'.terms := by
  obtain ⟨o', ho', hshrinks⟩ := h.orders.shrinks o ho
  exact ⟨o', ho', hshrinks.terms⟩

/-- The orders after an incoming one has been entered: those that were there,
and what the sweep has left of a GoodTillCancel order. -/
theorem enter_terms
    (h : A.WF) {n : OrderId} {replacing : Bool} {a : OrderArgs}
    {o : OrderInfo} (ho : o ∈ (A.enter n replacing a).ladder.orders) :
    (∃ o' ∈ A.orders, o.terms = o'.terms) ∨
      a.orderType = .goodTillCancel ∧ (A.sweepBy n a).remaining ≠ 0 ∧
        o = { a with
          initialQuantity := (A.sweepBy n a).remaining }.toInfo := by
  rcases mem_enter_orders.mp ho with ho | hnew
  · exact .inl ((trims_swept h n a).terms ho)
  · exact .inr hnew

/-- A NEW request brings the order that is entered, however much is left. -/
theorem brings_newArgs
    (A : Ladder) {r : MEClientRequest} (haction : r.action = .new)
    (q : Quantity) :
    r.Brings (OrderArgs.toInfo { A.newArgs r with initialQuantity := q }) := by
  refine ⟨?_, rfl, rfl⟩
  simp [MEClientRequest.newIdentity, MEClientRequest.newKey, haction,
    OrderInfo.identity, OrderArgs.toInfo, newArgs]

/-- A MODIFY request brings the replacement. -/
theorem brings_replacementArgs
    (A : Ladder) {r : MEClientRequest} (haction : r.action = .modify)
    (s : Side) (q : Quantity) :
    r.Brings
      (OrderArgs.toInfo { A.replacementArgs r s with initialQuantity := q }) := by
  refine ⟨?_, rfl, rfl⟩
  simp [MEClientRequest.newIdentity, MEClientRequest.newKey, haction,
    OrderInfo.identity, OrderArgs.toInfo, replacementArgs]

/-- **An order that rests after a request was resting before, or is the one
that the request brings.** -/
theorem step_terms
    (h : A.WF) (n : OrderId) (r : MEClientRequest) {o : OrderInfo}
    (ho : o ∈ (A.step n r).ladder.orders) :
    (∃ o' ∈ A.orders, o.terms = o'.terms) ∨ r.Brings o := by
  rcases A.step_shapes n r with
    ⟨e, -, heq, -⟩ | ⟨o₁, -, hfind, -, heq⟩ | ⟨haction, heq⟩ |
      ⟨old, haction, -, -, heq⟩
  · rw [heq] at ho
    exact .inl ⟨o, ho, rfl⟩
  · rw [heq] at ho
    exact .inl ((trims_withdraw h (mem_of_find? hfind).1 _).terms ho)
  · rw [heq] at ho
    rcases enter_terms ((trims_bump h).wf h) ho with hold | ⟨-, -, rfl⟩
    · exact .inl hold
    · exact .inr (brings_newArgs A haction _)
  · rw [heq] at ho
    rcases enter_terms (wf_erase_bump h old.key) ho with
      ⟨o', ho', hterms⟩ | ⟨-, -, rfl⟩
    · obtain ⟨o'', ho'', hterms'⟩ := (trims_erase h old.key).terms ho'
      exact .inl ⟨o'', ho'', hterms.trans hterms'⟩
    · exact .inr (brings_replacementArgs A haction old.side _)

/-- What entering an order makes happen is about resting orders and about the
order itself. -/
theorem enter_events_identity
    {n : OrderId} {replacing : Bool} {a : OrderArgs} {e : Event}
    (he : e ∈ (A.enter n replacing a).events) :
    ¬ e.Rejects ∧ ∀ i ∈ e.identities,
      (∃ o ∈ A.orders, i = o.identity) ∨ i = a.identity := by
  rcases mem_enter_events he with he | ⟨q, rfl⟩ | ⟨q, rfl⟩
  · obtain ⟨o, ho, x, fill, remaining, matchId, rfl⟩ := sweep_fills_met he
    refine ⟨id, fun i hi => ?_⟩
    rcases List.mem_cons.mp hi with rfl | hi
    · exact .inl ⟨o, mem_orders_of_side ho, rfl⟩
    · exact .inr (List.mem_singleton.mp hi)
  · exact ⟨id, nofun⟩
  · exact ⟨id, fun i hi => .inr (List.mem_singleton.mp hi)⟩

/-- Only a cancel can ask for more than there is. -/
theorem cancel_of_excessive
    {n : OrderId} {r : MEClientRequest} {t : TickerId} {o : OrderInfo}
    (h : (A.step n r).events = [.excessive t o]) :
    r.action = .cancel := by
  cases haction : r.action with
  | new => simp [step, haction] at h
  | cancel => rfl
  | modify =>
      simp only [step, haction] at h
      split at h
      · simp [rejection] at h
      · split_ifs at h
        · simp [rejection] at h
        · simp at h

/-- **Whom the responses to a request are about**: an order that was resting,
the order that it brings, or the request itself, if it is turned down. -/
theorem step_events_identity
    (n : OrderId) (r : MEClientRequest) {e : Event}
    (he : e ∈ (A.step n r).events) {i : Identity} (hi : i ∈ e.identities) :
    ((∃ o ∈ A.orders, i = o.identity) ∧ (e.Rejects → r.action = .cancel)) ∨
    (r.newIdentity = some i ∧ ¬ e.Rejects) ∨
    (i = r.identity ∧ e.Rejects ∧ r.action ≠ .new) := by
  rcases A.step_shapes n r with
    ⟨e', hdown, heq, he'⟩ | ⟨o, haction, hfind, -, heq⟩ | ⟨haction, heq⟩ |
      ⟨old, haction, hfind, -, heq⟩
  · rw [heq] at he
    obtain rfl := List.mem_singleton.mp he
    have hold : r.action ≠ .new := by
      intro hnew
      simp [TurnsDown, hnew] at hdown
    rcases he' with rfl | ⟨o, ho, rfl⟩
    · obtain rfl := List.mem_singleton.mp hi
      exact .inr (.inr ⟨rfl, trivial, hold⟩)
    · obtain rfl := List.mem_singleton.mp hi
      refine .inl ⟨⟨o, ho, rfl⟩, fun _ => ?_⟩
      exact cancel_of_excessive (by rw [heq])
  · rw [heq] at he
    obtain rfl := List.mem_singleton.mp he
    obtain rfl := List.mem_singleton.mp hi
    exact .inl ⟨⟨o, (mem_of_find? hfind).1, rfl⟩, False.elim⟩
  · have hnew : r.newIdentity = some (A.newArgs r).identity := by
      simp [MEClientRequest.newIdentity, MEClientRequest.newKey, haction,
        OrderArgs.identity, newArgs]
    rw [heq] at he
    rcases List.mem_cons.mp he with rfl | he
    · obtain rfl := List.mem_singleton.mp hi
      exact .inr (.inl ⟨hnew, id⟩)
    · obtain ⟨hrejects, hall⟩ := enter_events_identity he
      rcases hall i hi with hold | rfl
      · exact .inl ⟨hold, fun h => absurd h hrejects⟩
      · exact .inr (.inl ⟨hnew, hrejects⟩)
  · have hnew : r.newIdentity =
        some (A.replacementArgs r old.side).identity := by
      simp [MEClientRequest.newIdentity, MEClientRequest.newKey, haction,
        OrderArgs.identity, replacementArgs]
    rw [heq] at he
    rcases List.mem_cons.mp he with rfl | he
    · obtain rfl := List.mem_singleton.mp hi
      exact .inr (.inl ⟨hnew, id⟩)
    · obtain ⟨hrejects, hall⟩ := enter_events_identity he
      rcases hall i hi with ⟨o, ho, rfl⟩ | rfl
      · have ho' : o ∈ A.orders := by
          obtain ⟨s, hs⟩ := mem_orders.mp ho
          exact mem_orders_of_side (List.mem_of_mem_filter hs)
        exact .inl ⟨⟨o, ho', rfl⟩, fun h => absurd h hrejects⟩
      · exact .inr (.inl ⟨hnew, hrejects⟩)

/-- A replacement that is turned down changes nothing. -/
theorem step_rejected
    {n : OrderId} {r : MEClientRequest} {e : Event}
    (he : e ∈ (A.step n r).events) (haction : r.action = .modify)
    (hrejects : e.Rejects) : (A.step n r).ladder = A := by
  rcases A.step_shapes n r with
    ⟨e', -, heq, -⟩ | ⟨o, hcancel, -⟩ | ⟨hnew, -⟩ | ⟨old, -, -, -, heq⟩
  · rw [heq]
  · cases haction.symm.trans hcancel
  · cases haction.symm.trans hnew
  · rw [heq] at he
    rcases List.mem_cons.mp he with rfl | he
    · exact hrejects.elim
    · exact absurd hrejects (enter_events_identity he).1

/-- An order that is not left as it was by an incoming one has been filled. -/
theorem enter_touches
    {n : OrderId} {replacing : Bool} {a : OrderArgs} {o : OrderInfo}
    (ho : o ∈ A.orders) (hgone : o ∉ (A.enter n replacing a).ladder.orders) :
    o.FilledIn (A.enter n replacing a).events
      (A.enter n replacing a).ladder.orders := by
  have hkept : (A.swept n a).orders ⊆
      (A.enter n replacing a).ladder.orders := by
    intro o' ho'
    exact mem_enter_orders.mpr (.inl ho')
  obtain ⟨s, hs⟩ := mem_orders.mp ho
  have hside : s = a.side.opposite := by
    by_contra hne
    refine hgone (hkept (mem_orders.mpr ⟨s, ?_⟩))
    rwa [swept, A.setSide_side_of_ne hne]
  subst hside
  have hresting : (A.sweepBy n a).resting ⊆ (A.swept n a).orders := by
    intro o' ho'
    exact mem_orders.mpr ⟨_, by rwa [swept_side_opposite]⟩
  exact (filled_of_swept hs fun hmem => hgone (hkept (hresting hmem))).mono
    (A.fills_subset_enter n replacing a) (List.Subset.trans hresting hkept)

/-- Taking out one order, or shares of it, leaves the others. -/
theorem mem_erase_orders
    {k : ClientId × OrderId} {o : OrderInfo} :
    o ∈ (A.erase k).orders ↔ o ∈ A.orders ∧ o.key ≠ k := by
  simp only [mem_orders, erase, List.mem_filter, decide_eq_true_eq]
  constructor
  · rintro ⟨s, hs, hne⟩
    exact ⟨⟨s, hs⟩, hne⟩
  · rintro ⟨⟨s, hs⟩, hne⟩
    exact ⟨s, hs, hne⟩

theorem mem_withdraw_of_ne
    {o₁ o : OrderInfo} (qty : Quantity) (ho : o ∈ A.orders)
    (hne : o.key ≠ o₁.key) : o ∈ (A.withdraw o₁ qty).orders := by
  unfold withdraw
  split_ifs
  · exact mem_erase_orders.mpr ⟨ho, hne⟩
  · obtain ⟨s, hs⟩ := mem_orders.mp ho
    exact mem_orders.mpr ⟨s, List.mem_map.mpr ⟨o, hs, if_neg hne⟩⟩

/-- **What can happen to a resting order**: if it is not left as it was, it has
been filled, or the request names it. -/
theorem step_touches
    (n : OrderId) (r : MEClientRequest) {o : OrderInfo} (ho : o ∈ A.orders)
    (hgone : o ∉ (A.step n r).ladder.orders) :
    o.FilledIn (A.step n r).events (A.step n r).ladder.orders ∨
      r.action ≠ .new ∧ o.key = (r.clientId, r.clientOrderId) := by
  rcases A.step_shapes n r with
    ⟨e, -, heq, -⟩ | ⟨o₁, haction, hfind, -, heq⟩ | ⟨-, heq⟩ |
      ⟨old, haction, hfind, -, heq⟩
  · rw [heq] at hgone
    exact absurd ho hgone
  · rw [heq] at hgone
    have hkey := (mem_of_find? hfind).2
    refine .inr ⟨by rw [haction]; nofun, ?_⟩
    by_contra hne
    exact hgone (mem_withdraw_of_ne _ ho (hkey ▸ hne))
  · rw [heq] at hgone ⊢
    have hfilled := enter_touches (A := A.bump) ho hgone
    exact .inl (hfilled.mono (List.subset_cons_self _ _)
      (List.Subset.refl _))
  · rw [heq] at hgone ⊢
    have hkey := (mem_of_find? hfind).2
    by_cases hnamed : o.key = old.key
    · exact .inr ⟨by rw [haction]; nofun, hnamed.trans hkey⟩
    · have hfilled := enter_touches (A := (A.erase old.key).bump)
        (mem_erase_orders.mpr ⟨ho, hnamed⟩) hgone
      exact .inl (hfilled.mono (List.subset_cons_self _ _)
        (List.Subset.refl _))

end Ladder

end NanoExchange
