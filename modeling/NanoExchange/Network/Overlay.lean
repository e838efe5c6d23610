import NanoExchange.Network.Subscriber

/-!
# The feed and the books

A feed that is not in step with the books differs from them in two ways.  Orders
that still rest may have been delisted, and an entry may have a surplus of
shares that are not in the book any more.  The trades of an incoming order keep
it so: what they do to the quotes of the resting orders, they do to the feed
(`Ladder.swept_overlay`).
-/

namespace NanoExchange

open Lib ShadowBook

/-- The entry of an order that has a surplus. -/
def Quote.join : Option Quote → Option Quote → Option Quote :=
  Option.merge fun x y => { x with qty := x.qty + y.qty }

/-- The quotes `g` in a feed in which the orders `D` have been delisted, with
the surplus `S`. -/
def overlay (D : List OrderId) (S g : Quotes) : Quotes := fun m =>
  if m ∈ D then none else Quote.join (g m) (S m)

/-- A surplus has shares, and is one of the order it is added to. -/
structure SurplusFits (S : Quotes) (l : List OrderInfo) : Prop where
  positive : ∀ m y, S m = some y → 0 < y.qty
  same : ∀ o ∈ l, ∀ y, S o.marketOrderId = some y →
    y.side = o.side ∧ y.price = o.price

section Overlay

variable {D : List OrderId} {S g : Quotes} {m : OrderId}

@[simp] theorem Quote.join_none (v : Option Quote) : join v none = v := by
  cases v <;> rfl

@[simp] theorem Quote.none_join (v : Option Quote) : join none v = v := by
  cases v <;> rfl

/-- Shares of an order are taken off its entry, and the surplus stays. -/
theorem Quote.reduce_join
    {x : Quote} {v : Option Quote} {q : Quantity} (hq : q ≤ x.qty)
    (hv : ∀ y, v = some y → 0 < y.qty ∧ y.side = x.side ∧ y.price = x.price) :
    (join (some x) v).bind (fun z => z.reduce q) = join (x.reduce q) v := by
  cases v with
  | none => simp
  | some y =>
      obtain ⟨hpos, hside, hprice⟩ := hv y rfl
      obtain ⟨side, price, qty⟩ := x
      obtain ⟨side', price', qty'⟩ := y
      dsimp only at hpos hside hprice hq
      subst hside hprice
      have hleft : ¬ qty + qty' ≤ q := by lia
      have hsum : (join (some ⟨side', price', qty⟩)
          (some ⟨side', price', qty'⟩)).bind (fun z => z.reduce q) =
            some ⟨side', price', qty + qty' - q⟩ := if_neg hleft
      rw [hsum]
      unfold reduce
      by_cases hall : qty ≤ q
      · have hleft : qty + qty' - q = qty' := by lia
        rw [if_pos (by exact hall), none_join, hleft]
      · have hleft : qty + qty' - q = qty - q + qty' := by lia
        rw [if_neg (by exact hall), hleft]
        rfl

theorem overlay_update (v : Option Quote) :
    overlay D S (Function.update g m v) =
      Function.update (overlay D S g) m
        (if m ∈ D then none else Quote.join v (S m)) := by
  funext m'
  by_cases hm : m' = m
  · subst hm
    simp [overlay]
  · simp [overlay, hm]

/-- Shares that go from an entry to its surplus are not seen. -/
theorem overlay_update_update
    {v w : Option Quote} (h : Quote.join v w = Quote.join (g m) (S m)) :
    overlay D (Function.update S m w) (Function.update g m v) =
      overlay D S g := by
  funext m'
  by_cases hm : m' = m
  · subst hm
    simp only [overlay, Function.update_self, h]
  · simp only [overlay, Function.update_of_ne hm]

theorem shadowStep_trade
    {f : Quotes} {u : MEMarketUpdate} (htype : u.type = .trade) :
    shadowStep f u = Function.update f u.marketOrderId
      ((f u.marketOrderId).bind fun x => x.reduce u.qty) := by
  rw [shadowStep, quoteStep]
  simp only [htype]
  cases hx : f u.marketOrderId with
  | none =>
      have hself : Function.update f u.marketOrderId none = f := by
        rw [← hx, Function.update_eq_self]
      rw [Option.bind_none, hself]
      rfl
  | some x => rfl

/-- **A TRADE does to the feed what it does to the quotes**: an entry with a
surplus keeps it, and an order that has been delisted has no entry. -/
theorem shadowStep_overlay
    {l l' : List OrderInfo} (hfits : SurplusFits S l) {u : MEMarketUpdate}
    (htype : u.type = .trade)
    (hle : ∀ x, quotes l u.marketOrderId = some x → u.qty ≤ x.qty)
    (hstep : quoteStep (quotes l) u = some (quotes l')) :
    shadowStep (overlay D S (quotes l)) u = overlay D S (quotes l') := by
  simp only [quoteStep, htype] at hstep
  obtain ⟨x, hx, hl'⟩ := Option.map_eq_some_iff.mp hstep
  obtain ⟨o, hfind, rfl⟩ := Option.map_eq_some_iff.mp hx
  have hl' : Function.update (quotes l) u.marketOrderId
      (o.quote.reduce u.qty) = quotes l' := hl'
  have ho : o ∈ l := List.mem_of_find?_eq_some hfind
  have hid : o.marketOrderId = u.marketOrderId := by
    simpa using List.find?_some hfind
  rw [← hl', overlay_update, shadowStep_trade htype]
  congr 1
  unfold overlay
  by_cases hD : u.marketOrderId ∈ D
  · rw [if_pos hD, if_pos hD]
    rfl
  · rw [if_neg hD, if_neg hD, hx]
    refine Quote.reduce_join (hle _ hx) fun y hy => ⟨hfits.positive _ y hy, ?_⟩
    exact hfits.same o ho y (hid ▸ hy)

end Overlay

namespace SurplusFits

variable {S : Quotes} {l l' : List OrderInfo}

theorem of_terms
    (h : SurplusFits S l)
    (hterms : ∀ o' ∈ l', ∃ o ∈ l, o.terms = o'.terms) :
    SurplusFits S l' where
  positive := h.positive
  same o' ho' y hy := by
    obtain ⟨o, ho, heq⟩ := hterms o' ho'
    have hsame : S o.terms.marketOrderId = some y →
        y.side = o.terms.side ∧ y.price = o.terms.price := h.same o ho y
    rw [heq] at hsame
    exact hsame hy

theorem perm (h : SurplusFits S l) (hperm : l.Perm l') : SurplusFits S l' :=
  h.of_terms fun o ho => ⟨o, hperm.mem_iff.mpr ho, rfl⟩

/-- A replacement that has come in: all its shares are on the list, and none
of them rests so far. -/
theorem update
    (h : SurplusFits S l) {a : OrderArgs} (hqty : a.initialQuantity ≠ 0)
    (hnew : ∀ o ∈ l, o.marketOrderId ≠ a.marketOrderId) :
    SurplusFits (Function.update S a.marketOrderId (some a.toInfo.quote))
      l where
  positive m y hy := by
    by_cases hm : m = a.marketOrderId
    · subst hm
      rw [Function.update_self] at hy
      obtain rfl := Option.some.inj hy
      exact Nat.pos_of_ne_zero hqty
    · rw [Function.update_of_ne hm] at hy
      exact h.positive m y hy
  same o ho y hy := by
    rw [Function.update_of_ne (hnew o ho)] at hy
    exact h.same o ho y hy

end SurplusFits

namespace Ladder

variable {A : Ladder} {D : List OrderId} {S : Quotes}

/-- The trades of a sweep, in the feed. -/
theorem sweep_overlay
    {reach : Price → Prop} [DecidablePred reach] (a : OrderArgs)
    (n : OrderId) (q : Quantity) {l c : List OrderInfo}
    (hnodup : ((l ++ c).map OrderInfo.marketOrderId).Nodup)
    (hfits : SurplusFits S (l ++ c)) :
    (published (sweep reach a n q l).fills).foldl shadowStep
        (overlay D S (quotes (l ++ c))) =
      overlay D S (quotes ((sweep reach a n q l).resting ++ c)) := by
  have hall := sweep_invariant (R := reach) (a := a)
    (fun es _ l' =>
      (published es).foldl shadowStep (overlay D S (quotes (l ++ c))) =
        overlay D S (quotes (l' ++ c)) ∧
      ((l' ++ c).map OrderInfo.marketOrderId).Nodup ∧ SurplusFits S (l' ++ c))
    ?_ ?_ [] n (q := q) (l := l) ⟨rfl, hnodup, hfits⟩
  · exact hall.1
  · rintro es n q o l' - - ⟨h, hnodup, hfits⟩
    rw [List.cons_append] at h hnodup hfits
    refine ⟨?_, (List.nodup_cons.mp hnodup).2, hfits.of_terms fun x hx =>
      ⟨x, List.mem_cons_of_mem _ hx, rfl⟩⟩
    rw [published_append, List.foldl_append, h, updates_filled]
    refine shadowStep_overlay hfits rfl ?_
      (quoteStep_trade_full a.tickerId n hnodup)
    intro x hx
    have hself : quotes (o :: (l' ++ c)) o.marketOrderId = some o.quote := by
      simp [quotes]
    rw [Option.some.inj (hx.symm.trans hself)]
    exact Nat.le_refl _
  · rintro es n q o l' - hlt ⟨h, hnodup, hfits⟩
    rw [List.cons_append] at h hnodup hfits
    refine ⟨?_, hnodup, hfits.of_terms ?_⟩
    · rw [published_append, List.foldl_append, h, updates_filled]
      refine shadowStep_overlay hfits rfl ?_
        (quoteStep_trade_part a.tickerId n hlt)
      intro x hx
      have hself : quotes (o :: (l' ++ c)) o.marketOrderId =
          some o.quote := by
        simp [quotes]
      rw [Option.some.inj (hx.symm.trans hself)]
      exact hlt.le
    · intro x hx
      rcases List.mem_cons.mp hx with rfl | hx
      · exact ⟨o, List.mem_cons_self, rfl⟩
      · exact ⟨x, List.mem_cons_of_mem _ hx, rfl⟩

/-- The trades of an incoming order. -/
theorem swept_overlay
    (hwf : A.WF) (hnodup : (A.orders.map OrderInfo.marketOrderId).Nodup)
    (hfits : SurplusFits S A.orders) (n : OrderId) (a : OrderArgs) :
    (published (A.sweepBy n a).fills).foldl shadowStep
        (overlay D S (quotes A.orders)) =
      overlay D S (quotes (A.swept n a).orders) := by
  have hperm := A.orders_perm a.side
  have hperm' := (A.swept n a).orders_perm a.side
  have hnodup' := (trims_swept hwf n a).nodup_ids hnodup
  rw [swept_side_opposite, swept_side_self] at hperm'
  rw [quotes_perm hperm hnodup, quotes_perm hperm' hnodup']
  exact sweep_overlay a n a.initialQuantity
    ((hperm.map _).nodup_iff.mp hnodup) (hfits.perm hperm)

end Ladder

end NanoExchange
