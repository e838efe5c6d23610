import NanoExchange.Engine.Capacity
import NanoExchange.Engine.Fills
import NanoExchange.Engine.Prices
import NanoExchange.Lib.Lists

/-!
# No order is overtaken

Price-time priority, said of runs.  Once an order stands ahead of another on
its side of the book, it stays ahead as long as both rest (`Market.run_ahead`):
requests take orders out, or put one in, but never move any.  And a sweep eats
from the front: if it trades with the order behind, it has traded all that was
left of the order ahead (`Ladder.step_fills_ahead`).

So an order gets its fill only when the orders that were ahead of it have left
the book (`MatchingEngine.run_no_overtaking`).
-/

namespace NanoExchange

open Lib

/-- The last fill of `x` has happened before `e`. -/
def FilledBefore (events : List Event) (x : OrderInfo) (e : Event) : Prop :=
  ∃ a remaining matchId u v,
    events = u ++ .filled a (x.withRemaining 0) x.remainingQuantity remaining
      matchId :: v ∧ e ∈ v

namespace FilledBefore

variable {events : List Event} {x : OrderInfo} {e : Event}

theorem append_left
    (h : FilledBefore events x e) (before : List Event) :
    FilledBefore (before ++ events) x e := by
  obtain ⟨a, remaining, matchId, u, v, rfl, he⟩ := h
  exact ⟨a, remaining, matchId, before ++ u, v,
    (List.append_assoc _ _ _).symm, he⟩

theorem append_right
    (h : FilledBefore events x e) (after : List Event) :
    FilledBefore (events ++ after) x e := by
  obtain ⟨a, remaining, matchId, u, v, rfl, he⟩ := h
  refine ⟨a, remaining, matchId, u, v ++ after, ?_,
    List.mem_append_left _ he⟩
  rw [List.append_assoc, List.cons_append]

end FilledBefore

/-- **A sweep that trades with the order behind has traded all that was left
of the order ahead.** -/
theorem sweep_fills_ahead
    {R : Price → Prop} [DecidablePred R] {a a' : OrderArgs} {n : OrderId}
    {q : Quantity} {l : List OrderInfo} {k : ClientId × OrderId}
    {o : OrderInfo} {fill remaining : Quantity} {matchId : OrderId}
    (hkeys : (l.map OrderInfo.key).Nodup)
    (hahead : [k, o.key].Sublist (l.map OrderInfo.key))
    (he : .filled a' o fill remaining matchId ∈ (sweep R a n q l).fills) :
    (∃ x ∈ l, x.key = k ∧ FilledBefore (sweep R a n q l).fills x
      (.filled a' o fill remaining matchId)) ∧
    ∀ x ∈ (sweep R a n q l).resting, x.key ≠ k := by
  induction l generalizing n q with
  | nil => cases he
  | cons y l ih =>
      rw [List.map_cons, List.nodup_cons] at hkeys
      obtain ⟨hy, hkeys⟩ := hkeys
      have hbehind : o.key ∈ l.map OrderInfo.key := by
        rw [List.map_cons] at hahead
        cases hahead with
        | cons _ h => exact h.subset (List.mem_cons_of_mem _ List.mem_cons_self)
        | cons_cons _ h => exact h.subset List.mem_cons_self
      have hoy : o.key ≠ y.key := by
        intro heq
        exact hy (heq ▸ hbehind)
      by_cases hq : q = 0
      · rw [hq, sweep_zero] at he
        cases he
      by_cases hreach : R y.price
      · by_cases hle : y.remainingQuantity ≤ q
        · rw [sweep_full hq hreach hle] at he ⊢
          have he' := (List.mem_cons.mp he).resolve_left (by
            intro heq
            obtain ⟨-, rfl, -⟩ := Event.filled.inj heq
            exact hoy rfl)
          by_cases hk : y.key = k
          · constructor
            · exact ⟨y, List.mem_cons_self, hk, a, q - y.remainingQuantity, n,
                [], _, rfl, he'⟩
            · intro x hx hxk
              have hsub := (map_sweep_resting (R := R) (a := a) OrderInfo.key
                (fun _ _ => rfl) ((n + 1) % wordSize) (q - y.remainingQuantity)
                l).subset (List.mem_map_of_mem hx)
              rw [hxk, ← hk] at hsub
              exact hy hsub
          · have hahead' : [k, o.key].Sublist (l.map OrderInfo.key) := by
              rw [List.map_cons] at hahead
              cases hahead with
              | cons _ h => exact h
              | cons_cons _ _ => exact absurd rfl hk
            obtain ⟨⟨x, hx, hxk, hbefore⟩, hgone⟩ := ih hkeys hahead' he'
            exact ⟨⟨x, List.mem_cons_of_mem y hx, hxk,
              hbefore.append_left [_]⟩, hgone⟩
        · rw [sweep_part hq hreach hle] at he
          obtain ⟨-, rfl, -⟩ := Event.filled.inj (List.mem_singleton.mp he)
          exact absurd rfl hoy
      · rw [sweep_stop n q l hreach] at he
        cases he

namespace Ladder

/-- On the side `s`, the order of the key `k` stands ahead of that of `k'`. -/
def Ahead (A : Ladder) (s : Side) (k k' : ClientId × OrderId) : Prop :=
  [k, k'].Sublist ((A.side s).map OrderInfo.key)

/-- Some resting order has the key `k`. -/
def Has (A : Ladder) (k : ClientId × OrderId) : Prop :=
  ∃ o ∈ A.orders, o.key = k

variable {A A' : Ladder} {s : Side} {k k' : ClientId × OrderId}

namespace Ahead

theorem mem_left (h : A.Ahead s k k') : ∃ o ∈ A.side s, o.key = k :=
  List.mem_map.mp (h.subset List.mem_cons_self)

theorem mem_right (h : A.Ahead s k k') : ∃ o ∈ A.side s, o.key = k' :=
  List.mem_map.mp (h.subset (List.mem_cons_of_mem _ List.mem_cons_self))

end Ahead

/-- An order with the key of an order of a side rests on that side. -/
theorem WF.side_eq
    (hA : A.WF) {o o' : OrderInfo} (ho : o ∈ A.side s) {s' : Side}
    (ho' : o' ∈ A.side s') (hkey : o'.key = o.key) : s' = s := by
  have heq := hA.key_unique (mem_orders_of_side ho') (mem_orders_of_side ho)
    hkey
  rw [← hA.placed s o ho, ← hA.placed s' o' ho', heq]

/-- The keys of a side are apart. -/
theorem WF.side_keys (hA : A.WF) (s : Side) :
    ((A.side s).map OrderInfo.key).Nodup := by
  refine hA.keys.sublist (List.Sublist.map _ ?_)
  cases s with
  | buy => exact List.sublist_append_left _ _
  | sell => exact List.sublist_append_right _ _

/-- Taking orders and shares out moves no order. -/
theorem Ahead.trims
    (h : A.Ahead s k k') (hA : A.WF) (htrims : A.Trims A')
    (hk : A'.Has k) (hk' : A'.Has k') :
    A'.Ahead s k k' := by
  have hstays : ∀ {x : ClientId × OrderId}, (∃ o ∈ A.side s, o.key = x) →
      A'.Has x → x ∈ (A'.side s).map OrderInfo.key := by
    rintro x ⟨o, ho, rfl⟩ ⟨o', ho', hkey⟩
    obtain ⟨s', hs'⟩ := mem_orders.mp ho'
    obtain ⟨o₁, ho₁, q, -, -, rfl⟩ := (htrims s').shrinks o' hs'
    obtain rfl := hA.side_eq ho ho₁ hkey
    exact List.mem_map.mpr ⟨_, hs', hkey⟩
  exact pair_sublist_of_sublist ((htrims s).map_sublist _ fun _ _ => rfl)
    (hA.side_keys s) h (hstays h.mem_left hk) (hstays h.mem_right hk')

/-- Letting an order rest moves no other. -/
theorem Ahead.insert (h : A.Ahead s k k') (o : OrderInfo) :
    (A.insert o).Ahead s k k' := by
  by_cases hs : s = o.side
  · subst hs
    unfold Ahead
    rw [insert_side_self]
    exact h.trans ((List.sublist_orderedInsert o (A.side o.side)).map _)
  · unfold Ahead
    rwa [A.insert_side_of_ne hs]

/-- **A request moves no order**: the one that stands ahead still does. -/
theorem Ahead.step
    (h : A.Ahead s k k') (hA : A.WF) (n : OrderId) {r : MEClientRequest}
    (hfresh : A.Fresh r) (hk : (A.step n r).ladder.Has k)
    (hk' : (A.step n r).ladder.Has k') :
    (A.step n r).ladder.Ahead s k k' := by
  rcases step_cases hA n r with
    ⟨htrims, -⟩ | ⟨A₁, a, htrims, -, heq, -, -, -, hnew, -⟩
  · exact h.trims hA htrims hk hk'
  · have hstays : ∀ {x : ClientId × OrderId}, (∃ o ∈ A.side s, o.key = x) →
        (A.step n r).ladder.Has x → A₁.Has x := by
      rintro x ⟨o, ho, rfl⟩ ⟨o', ho', hkey⟩
      rw [heq] at ho'
      rcases mem_insert_orders.mp ho' with rfl | hold
      · exact absurd hkey.symm
          (hfresh _ hnew o (mem_orders_of_side ho))
      · exact ⟨o', hold, hkey⟩
    have h₁ := h.trims hA htrims (hstays h.mem_left hk)
      (hstays h.mem_right hk')
    rw [heq]
    exact h₁.insert _

/-- What an incoming order trades with rests on the opposite side. -/
theorem enter_fill_met
    {n : OrderId} {replacing : Bool} {a a' : OrderArgs} {o : OrderInfo}
    {fill remaining : Quantity} {matchId : OrderId}
    (he : .filled a' o fill remaining matchId ∈
      (A.enter n replacing a).events) :
    .filled a' o fill remaining matchId ∈ (A.sweepBy n a).fills ∧
      ∃ o₁ ∈ A.side a.side.opposite, o₁.key = o.key := by
  have hfill : .filled a' o fill remaining matchId ∈ (A.sweepBy n a).fills := by
    rcases mem_enter_events he with he | ⟨q, heq⟩ | ⟨q, heq⟩
    · exact he
    · cases heq
    · cases heq
  obtain ⟨o₁, ho₁, q, fill', remaining', matchId', heq⟩ :=
    sweep_fills_met hfill
  obtain ⟨-, rfl, -⟩ := Event.filled.inj heq
  exact ⟨hfill, o₁, ho₁, rfl⟩

/-- **Entering an order** that trades with the order behind. -/
theorem enter_fills_ahead
    (hA : A.WF) {n : OrderId} {replacing : Bool} {a a' : OrderArgs}
    {o : OrderInfo} {fill remaining : Quantity} {matchId : OrderId}
    (hahead : A.Ahead s k o.key)
    (hnew : (a.clientId, a.clientOrderId) ≠ k)
    (he : .filled a' o fill remaining matchId ∈
      (A.enter n replacing a).events) :
    (∃ x ∈ A.side s, x.key = k ∧
      FilledBefore (A.enter n replacing a).events x
        (.filled a' o fill remaining matchId)) ∧
    ¬ (A.enter n replacing a).ladder.Has k := by
  obtain ⟨hfill, o₁, ho₁, hkey₁⟩ := enter_fill_met he
  obtain ⟨y, hy, hyk⟩ := hahead.mem_right
  obtain rfl : s = a.side.opposite :=
    hA.side_eq ho₁ hy (hyk.trans hkey₁.symm)
  obtain ⟨⟨x, hx, hxk, hbefore⟩, hgone⟩ :=
    sweep_fills_ahead (hA.side_keys _) hahead hfill
  constructor
  · refine ⟨x, hx, hxk, ?_⟩
    rcases A.enter_cases n replacing a with
      ⟨-, heq⟩ | ⟨-, -, heq⟩ | ⟨-, -, heq⟩
    · rw [heq]
      exact hbefore
    · rw [heq]
      exact hbefore.append_right _
    · rw [heq]
      exact hbefore.append_right _
  · rintro ⟨x', hx', hxk'⟩
    rcases mem_enter_orders.mp hx' with hold | ⟨-, -, rfl⟩
    · obtain ⟨s', hs'⟩ := mem_orders.mp hold
      obtain ⟨x₁, hx₁, q', -, -, rfl⟩ := (trims_swept hA n a s').shrinks x' hs'
      obtain rfl := hA.side_eq hx hx₁ (hxk'.trans hxk.symm)
      rw [swept_side_opposite] at hs'
      exact hgone _ hs' hxk'
    · exact hnew hxk'

/-- **A request that trades with the order behind has traded all that was left
of the order ahead**, and reported it before. -/
theorem step_fills_ahead
    (hA : A.WF) (n : OrderId) {r : MEClientRequest} (hfresh : A.Fresh r)
    {a : OrderArgs} {o : OrderInfo} {fill remaining : Quantity}
    {matchId : OrderId} (hahead : A.Ahead s k o.key)
    (he : .filled a o fill remaining matchId ∈ (A.step n r).events) :
    (∃ x ∈ A.side s, x.key = k ∧ FilledBefore (A.step n r).events x
      (.filled a o fill remaining matchId)) ∧
    ¬ (A.step n r).ladder.Has k := by
  obtain ⟨x, hx, hxk⟩ := hahead.mem_left
  rcases A.step_shapes n r with
    ⟨e, -, heq, hdown⟩ | ⟨o₁, -, -, -, heq⟩ | ⟨haction, heq⟩ |
      ⟨old, haction, hfind, -, heq⟩
  · rw [heq] at he
    rcases hdown with rfl | ⟨o₁, -, rfl⟩
    · cases List.mem_singleton.mp he
    · cases List.mem_singleton.mp he
  · rw [heq] at he
    cases List.mem_singleton.mp he
  · rw [heq] at he ⊢
    have hnew : (r.clientId, r.clientOrderId) ∈ r.newKey := by
      simp [MEClientRequest.newKey, haction]
    have he' := (List.mem_cons.mp he).resolve_left (by simp)
    obtain ⟨⟨x', hx', hxk', hbefore⟩, hgone⟩ := enter_fills_ahead
      ((trims_bump hA).wf hA) (A := A.bump) (s := s) hahead
      (fun hk => hfresh _ hnew x (mem_orders_of_side hx)
        (hxk.trans hk.symm)) he'
    exact ⟨⟨x', hx', hxk', hbefore.append_left [_]⟩, hgone⟩
  · rw [heq] at he ⊢
    have hnew : (r.clientId, r.newClientOrderId) ∈ r.newKey := by
      simp [MEClientRequest.newKey, haction]
    have he' := (List.mem_cons.mp he).resolve_left (by simp)
    obtain ⟨hold, -⟩ := mem_of_find? hfind
    -- the order that is replaced rests on the other side
    have hother : ∀ y ∈ A.side s, y.key ≠ old.key := by
      obtain ⟨-, o₁, ho₁, hkey₁⟩ := enter_fill_met he'
      obtain ⟨y, hy, hyk⟩ := hahead.mem_right
      have hs : old.side.opposite = s :=
        hA.side_eq hy (List.mem_of_mem_filter ho₁) (hkey₁.trans hyk.symm)
      intro z hz hzold
      have hside := hA.placed s z hz
      rw [hA.key_unique (mem_orders_of_side hz) hold hzold, ← hs] at hside
      exact old.side.ne_opposite hside
    have hwf := wf_erase_bump hA old.key
    have htrims : A.Trims (A.erase old.key).bump :=
      (trims_erase hA old.key).trans
        (trims_bump ((trims_erase hA old.key).wf hA))
    have hstays : ∀ y ∈ A.side s, (A.erase old.key).bump.Has y.key :=
      fun y hy => ⟨y, mem_erase_orders.mpr
        ⟨mem_orders_of_side hy, hother y hy⟩, rfl⟩
    obtain ⟨y, hy, hyk⟩ := hahead.mem_right
    have hahead₁ := hahead.trims hA htrims (hxk ▸ hstays x hx)
      (hyk ▸ hstays y hy)
    obtain ⟨⟨x', hx', hxk', hbefore⟩, hgone⟩ := enter_fills_ahead hwf hahead₁
      (fun hk => hfresh _ hnew x (mem_orders_of_side hx)
        (hxk.trans hk.symm)) he'
    exact ⟨⟨x', List.mem_of_mem_filter hx', hxk', hbefore.append_left [_]⟩,
      hgone⟩

/-- What trades with a resting order is the order that the request brings. -/
theorem step_fill_met
    {n : OrderId} {r : MEClientRequest} {a : OrderArgs} {o : OrderInfo}
    {fill remaining : Quantity} {matchId : OrderId}
    (he : .filled a o fill remaining matchId ∈ (A.step n r).events) :
    a.tickerId = r.tickerId ∧ r.newKey = some (a.clientId, a.clientOrderId) ∧
      A.Has o.key := by
  rcases A.step_shapes n r with
    ⟨e, -, heq, hdown⟩ | ⟨o₁, -, -, -, heq⟩ | ⟨haction, heq⟩ |
      ⟨old, haction, -, -, heq⟩
  · rw [heq] at he
    rcases hdown with rfl | ⟨o₁, -, rfl⟩
    · cases List.mem_singleton.mp he
    · cases List.mem_singleton.mp he
  · rw [heq] at he
    cases List.mem_singleton.mp he
  · rw [heq] at he
    have he' := (List.mem_cons.mp he).resolve_left (by simp)
    obtain ⟨hfill, y, hy, hyk⟩ := enter_fill_met he'
    obtain ⟨o₁, fill', remaining', matchId', hev⟩ := mem_sweep_fills hfill
    obtain ⟨rfl, -⟩ := Event.filled.inj hev
    exact ⟨rfl, by simp [MEClientRequest.newKey, haction, newArgs],
      y, mem_orders_of_side hy, hyk⟩
  · rw [heq] at he
    have he' := (List.mem_cons.mp he).resolve_left (by simp)
    obtain ⟨hfill, y, hy, hyk⟩ := enter_fill_met he'
    obtain ⟨o₁, fill', remaining', matchId', hev⟩ := mem_sweep_fills hfill
    obtain ⟨rfl, -⟩ := Event.filled.inj hev
    exact ⟨rfl, by simp [MEClientRequest.newKey, haction, replacementArgs],
      y, mem_orders_of_side (List.mem_of_mem_filter hy), hyk⟩

end Ladder

namespace Market

variable {pre mid : List MEClientRequest} {r : MEClientRequest} {t : TickerId}
  {k k' : ClientId × OrderId}

/-- An order that has rested, and rests after one more request, has rested
before it: no key comes twice. -/
theorem has_of_has
    (hfresh : FreshKeys (pre ++ (mid ++ [r])))
    (hpre : ((run pre).ladder t).Has k)
    (hlast : ((run (pre ++ (mid ++ [r]))).ladder t).Has k) :
    ((run (pre ++ mid)).ladder t).Has k := by
  obtain ⟨o₀, ho₀, hk₀⟩ := hpre
  obtain ⟨o, ho, hk⟩ := hlast
  have hunused : r.newKey ≠ some k := by
    intro hnew
    have hadmits := (run_ready hfresh).admits t
    refine hadmits.unused k ?_ o₀ ho₀ hk₀
    exact List.mem_filterMap.mpr ⟨r, by simp, hnew⟩
  rw [← List.append_assoc, run_append] at ho
  rw [← List.append_assoc] at hfresh
  by_cases ht : t = r.tickerId
  · subst ht
    rw [next_ladder_self] at ho
    rcases Ladder.step_keys ((run_ready hfresh).wf r.tickerId) _ r ho with
      ⟨o', ho', hkey⟩ | hnew
    · exact ⟨o', ho', hkey.trans hk⟩
    · exact absurd (hk ▸ hnew) hunused
  · rw [next_ladder_of_ne _ ht] at ho
    exact ⟨o, ho, hk⟩

/-- **In every run an order stays ahead of another as long as both rest.** -/
theorem run_ahead
    {s : Side} (hfresh : FreshKeys (pre ++ mid))
    (hahead : ((run pre).ladder t).Ahead s k k')
    (hk : ((run (pre ++ mid)).ladder t).Has k)
    (hk' : ((run (pre ++ mid)).ladder t).Has k') :
    ((run (pre ++ mid)).ladder t).Ahead s k k' := by
  obtain ⟨x, hx, hxk⟩ := hahead.mem_left
  obtain ⟨y, hy, hyk⟩ := hahead.mem_right
  induction mid using List.reverseRecOn with
  | nil =>
      rw [List.append_nil]
      exact hahead
  | append_singleton mid r ih =>
      have hpre : FreshKeys (pre ++ mid) := by
        rw [← List.append_assoc] at hfresh
        exact hfresh.sublist
          ((List.sublist_append_left (pre ++ mid) [r]).filterMap _)
      have hbefore := ih hpre
        (has_of_has hfresh ⟨x, Ladder.mem_orders_of_side hx, hxk⟩ hk)
        (has_of_has hfresh ⟨y, Ladder.mem_orders_of_side hy, hyk⟩ hk')
      rw [← List.append_assoc] at hfresh hk hk' ⊢
      rw [run_append] at hk hk' ⊢
      by_cases ht : t = r.tickerId
      · subst ht
        have hready := run_ready hfresh
        rw [next_ladder_self] at hk hk' ⊢
        exact hbefore.step (hready.wf _) _ (hready.admits _).head hk hk'
      · rwa [next_ladder_of_ne _ ht]

/-- **In every run, a request trades with the order behind only if the order
ahead is gone by then.** -/
theorem run_fills_ahead
    {s : Side} {a : OrderArgs} {o : OrderInfo} {fill remaining : Quantity}
    {matchId : OrderId} (hfresh : FreshKeys (pre ++ (mid ++ [r])))
    (hahead : ((run pre).ladder r.tickerId).Ahead s k o.key)
    (he : .filled a o fill remaining matchId ∈
      ((run (pre ++ mid)).respond r).events) :
    (∀ x ∈ ((run (pre ++ mid)).ladder r.tickerId).orders, x.key = k →
      FilledBefore ((run (pre ++ mid)).respond r).events x
        (.filled a o fill remaining matchId)) ∧
    ¬ ((run (pre ++ (mid ++ [r]))).ladder r.tickerId).Has k := by
  obtain ⟨x₀, hx₀, hxk₀⟩ := hahead.mem_left
  have hfresh₃ : FreshKeys (pre ++ mid ++ [r]) := by
    rwa [List.append_assoc]
  have hfresh₂ : FreshKeys (pre ++ mid) :=
    hfresh₃.sublist ((List.sublist_append_left (pre ++ mid) [r]).filterMap _)
  by_cases hk : ((run (pre ++ mid)).ladder r.tickerId).Has k
  · have hready := run_ready hfresh₃
    have hwf := hready.wf r.tickerId
    have hahead₂ := run_ahead hfresh₂ hahead hk
      (Ladder.step_fill_met he).2.2
    obtain ⟨⟨x, hx, hxk, hbefore⟩, hgone⟩ :=
      Ladder.step_fills_ahead hwf _ (hready.admits _).head hahead₂ he
    constructor
    · intro x' hx' hxk'
      rw [hwf.key_unique hx' (Ladder.mem_orders_of_side hx)
        (hxk'.trans hxk.symm)]
      exact hbefore
    · rw [← List.append_assoc, run_append, next_ladder_self]
      exact hgone
  · refine ⟨fun x hx hxk => absurd ⟨x, hx, hxk⟩ hk, fun hlast => hk ?_⟩
    exact has_of_has hfresh ⟨x₀, Ladder.mem_orders_of_side hx₀, hxk₀⟩ hlast

end Market

/-- What a fill is reported with comes before what is reported later. -/
theorem FilledBefore.responses
    {events : List Event} {x : OrderInfo} {e : Event}
    (h : FilledBefore events x e) (d : Dialect) {m : MEClientResponse}
    (hm : m ∈ e.responses d) :
    ∃ u v mx, events.flatMap (Event.responses d) = u ++ mx :: v ∧ m ∈ v ∧
      mx.status = .executed ∧ (mx.clientId, mx.clientOrderId) = x.key ∧
      mx.executedQty = x.remainingQuantity ∧ mx.leavesQty = 0 := by
  obtain ⟨a, remaining, matchId, u, v, rfl, he⟩ := h
  refine ⟨u.flatMap (Event.responses d),
    aggressiveResponse a x.remainingQuantity x.price remaining matchId ::
      v.flatMap (Event.responses d),
    restingResponse a.tickerId (x.withRemaining 0) x.remainingQuantity x.price
      matchId, ?_, ?_, rfl, rfl, rfl, rfl⟩
  · rw [List.flatMap_append, List.flatMap_cons]
    rfl
  · exact List.mem_cons_of_mem _ (List.mem_flatMap.mpr ⟨e, he, hm⟩)

namespace MatchingEngine

variable {Lv : Type} [LevelTable Lv] [LawfulLevels Lv] [BookImpl Lv]
variable [LawfulBook Lv] [ThriftyBook Lv] {P : Type} [ObjectPool P]
  [BoundedPool P] {n size : Nat}

/-- **No order is overtaken.** Let `x` stand ahead of `y` at some time of a
run.  When, after any requests, one more request trades with `y`, then `x` does
not rest any more; and if it was that request that found `x` resting, all that
was left of `x` has been executed, and reported before. -/
theorem run_no_overtaking
    {pre mid : List MEClientRequest} {r : MEClientRequest}
    (hfresh : FreshKeys (pre ++ mid ++ [r])) {e₁ e₂ e₃ : MatchingEngine Lv P}
    (h₁ : run Lv P n size pre = .ok e₁)
    (h₂ : run Lv P n size (pre ++ mid) = .ok e₂)
    (h₃ : run Lv P n size (pre ++ mid ++ [r]) = .ok e₃)
    {t : TickerId} {b₁ b₂ b₃ : OrderBook Lv P}
    (hb₁ : e₁.tickerOrderBook[t]? = some b₁)
    (hb₂ : e₂.tickerOrderBook[t]? = some b₂)
    (hb₃ : e₃.tickerOrderBook[t]? = some b₃)
    {s : Side} {l₁ l₂ l₃ : List OrderInfo} (hl₁ : b₁.Lists s l₁)
    (hl₂ : b₂.Lists s l₂) (hl₃ : b₃.Lists s l₃)
    {x y : OrderInfo} (hahead : [x, y].Sublist l₁)
    {new : List MEClientResponse}
    (hnew : e₃.channel.responses = e₂.channel.responses ++ new)
    {m : MEClientResponse} (hm : m ∈ new) (hexec : m.status = .executed)
    (hticker : m.tickerId = t)
    (hclient : (m.clientId, m.clientOrderId) = y.key) :
    (∀ o ∈ l₃, o.key ≠ x.key) ∧
    ∀ o ∈ l₂, o.key = x.key → ∃ u v mx, new = u ++ mx :: v ∧ m ∈ v ∧
      mx.status = .executed ∧ (mx.clientId, mx.clientOrderId) = x.key ∧
      mx.executedQty = o.remainingQuantity ∧ mx.leavesQty = 0 := by
  have hfresh₂ : FreshKeys (pre ++ mid) :=
    hfresh.sublist ((List.sublist_append_left (pre ++ mid) [r]).filterMap _)
  have hfresh₁ : FreshKeys pre :=
    hfresh₂.sublist ((List.sublist_append_left pre mid).filterMap _)
  have hrep₁ := (run_holds hfresh₁ h₁).represents.book t b₁ hb₁
  have hheld₂ := (run_holds hfresh₂ h₂).represents
  have hrep₂ := hheld₂.book t b₂ hb₂
  have hheld₃ := (run_holds hfresh h₃).represents
  have hrep₃ := hheld₃.book t b₃ hb₃
  obtain rfl := hl₁.unique (hrep₁.lists s)
  obtain rfl := hl₂.unique (hrep₂.lists s)
  obtain rfl := hl₃.unique (hrep₃.lists s)
  have hevents : new = ((Market.run (pre ++ mid)).respond r).events.flatMap
      (Event.responses (LawfulBook.dialect Lv)) := by
    rw [hheld₂.sent, hheld₃.sent, Market.run_append, Market.sent_responses,
      Market.sent_responses, Market.next, List.flatMap_append] at hnew
    exact (List.append_cancel_left hnew).symm
  rw [hevents] at hm
  obtain ⟨e, he, hme⟩ := List.mem_flatMap.mp hm
  obtain ⟨a, o, fill, remaining, matchId, rfl, hresponse⟩ :=
    (Event.of_mem_responses hme).2.2 hexec
  obtain ⟨hargs, hbrings, -⟩ := Ladder.step_fill_met he
  have ht : r.tickerId = t := by
    rw [← hticker, ← hargs]
    rcases hresponse with rfl | rfl
    · rfl
    · rfl
  subst ht
  have hahead₁ : ((Market.run pre).ladder r.tickerId).Ahead s x.key y.key :=
    hahead.map OrderInfo.key
  have hfresh' : FreshKeys (pre ++ (mid ++ [r])) := by
    rwa [← List.append_assoc]
  have hok : o.key = y.key := by
    rcases hresponse with rfl | rfl
    · exact hclient
    · -- the incoming order is new, and `y` has been resting
      exfalso
      have hbrought : r.newKey = some y.key := hbrings.trans (congrArg _ hclient)
      obtain ⟨y', hy', hyk'⟩ := hahead₁.mem_right
      refine ((Market.run_ready hfresh').admits r.tickerId).unused y.key ?_ y'
        (Ladder.mem_orders_of_side hy') hyk'
      exact List.mem_filterMap.mpr ⟨r, by simp, hbrought⟩
  rw [← hok] at hahead₁
  obtain ⟨hbefore, hgone⟩ := Market.run_fills_ahead hfresh' hahead₁ he
  rw [← List.append_assoc] at hgone
  constructor
  · intro o' ho' hk'
    exact hgone ⟨o', Ladder.mem_orders_of_side ho', hk'⟩
  · intro o' ho' hk'
    rw [hevents, ← hk']
    exact (hbefore o' (Ladder.mem_orders_of_side ho') hk').responses _ hme

/-- Two asks at one price, and a bid for all of the first and a part of the
second. -/
theorem run_no_overtaking_example :
    ∃ e₂ e₃ b₃ new,
      run MapLevels ScanPool 1 4
        [.make .new 1 0 1 .goodTillCancel .sell 100 5,
          .make .new 2 0 1 .goodTillCancel .sell 100 5] = .ok e₂ ∧
      run MapLevels ScanPool 1 4
        [.make .new 1 0 1 .goodTillCancel .sell 100 5,
          .make .new 2 0 1 .goodTillCancel .sell 100 5,
          .make .new 3 0 1 .goodTillCancel .buy 100 7] = .ok e₃ ∧
      e₃.tickerOrderBook[0]? = some b₃ ∧
      e₃.channel.responses = e₂.channel.responses ++ new ∧
      (∀ l, b₃.Lists .sell l → ∀ o ∈ l, o.key ≠ (1, 1)) ∧
      ∃ u v mx, new = u ++ mx :: v ∧ (mx.clientId, mx.clientOrderId) = (1, 1) ∧
        mx.executedQty = 5 ∧ mx.leavesQty = 0 := by
  obtain ⟨e₂, e₃, b₂, b₃, m, h₂, h₃, hb₂, hb₃, hnew, hm, hexec, hticker,
      hclient⟩ : ∃ e₂ e₃ b₂ b₃ m,
      run MapLevels ScanPool 1 4
        [.make .new 1 0 1 .goodTillCancel .sell 100 5,
          .make .new 2 0 1 .goodTillCancel .sell 100 5] = .ok e₂ ∧
      run MapLevels ScanPool 1 4
        [.make .new 1 0 1 .goodTillCancel .sell 100 5,
          .make .new 2 0 1 .goodTillCancel .sell 100 5,
          .make .new 3 0 1 .goodTillCancel .buy 100 7] = .ok e₃ ∧
      e₂.tickerOrderBook[0]? = some b₂ ∧ e₃.tickerOrderBook[0]? = some b₃ ∧
      e₃.channel.responses =
        e₂.channel.responses ++ e₃.channel.responses.drop 2 ∧
      m ∈ e₃.channel.responses.drop 2 ∧ m.status = .executed ∧
      m.tickerId = 0 ∧ (m.clientId, m.clientOrderId) = (2, 1) :=
    ⟨_, _, _, _, restingResponse 0 ⟨2, 1, 2, 100, 0, 5, 3, .goodTillCancel,
      .sell, OrderToken.zero⟩ 2 100 2, rfl, rfl, rfl, rfl, rfl, by decide, rfl,
      rfl, rfl⟩
  have hfresh : FreshKeys ([.make .new 1 0 1 .goodTillCancel .sell 100 5,
        .make .new 2 0 1 .goodTillCancel .sell 100 5] ++ [] ++
      [.make .new 3 0 1 .goodTillCancel .buy 100 7]) := by
    decide
  have hrep₂ := (run_holds (by decide) h₂).represents.book 0 b₂ hb₂
  have hrep₃ := (run_holds hfresh h₃).represents.book 0 b₃ hb₃
  obtain ⟨hgone, hdone⟩ := run_no_overtaking hfresh h₂ h₂ h₃ hb₂ hb₂
    hb₃ (hrep₂.lists .sell) (hrep₂.lists .sell) (hrep₃.lists .sell)
    (x := ⟨1, 1, 1, 100, 0, 5, 5, .goodTillCancel, .sell, OrderToken.zero⟩)
    (y := ⟨2, 1, 2, 100, 0, 5, 5, .goodTillCancel, .sell, OrderToken.zero⟩)
    (by decide) hnew hm hexec hticker hclient
  refine ⟨e₂, e₃, b₃, _, h₂, h₃, hb₃, hnew, ?_, ?_⟩
  · intro l hl
    rw [hl.unique (hrep₃.lists .sell)]
    exact hgone
  · obtain ⟨u, v, mx, hsplit, -, -, hkey, hqty, hleaves⟩ :=
      hdone ⟨1, 1, 1, 100, 0, 5, 5, .goodTillCancel, .sell, OrderToken.zero⟩
        (by decide) rfl
    exact ⟨u, v, mx, hsplit, hkey, hqty, hleaves⟩

end MatchingEngine

end NanoExchange
