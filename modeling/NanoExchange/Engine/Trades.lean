import NanoExchange.Engine.Custody

/-!
# What a request trades

A fill takes shares of a resting order for the incoming one.  `Trades` reads
the fills off the orders that rest before and afterwards: each fill has met an
order that was resting and has left the rest of it, no order is met twice, and
nothing else has happened to the orders, but for those that the request names,
which no fill has met.

A sweep trades so with the orders at the front of its list (`sweep_split`), and
so does every request (`Ladder.step_trades`).
-/

namespace NanoExchange

open Lib

/-- A fill: the incoming order takes `shares` of a resting order, which is shown
as it is left. -/
structure Fill where
  incoming : OrderArgs
  resting : OrderInfo
  shares : Quantity
  matchId : OrderId
deriving DecidableEq

/-- The resting order before the fill. -/
def Fill.met (f : Fill) : OrderInfo :=
  f.resting.withRemaining (f.resting.remainingQuantity + f.shares)

@[simp] theorem Fill.met_key (f : Fill) : f.met.key = f.resting.key := by
  rfl

/-- The fill that has happened. -/
def Event.fill? : Event → Option Fill
  | .filled a o fill _ matchId => some ⟨a, o, fill, matchId⟩
  | _ => none

theorem Event.fillId_eq (e : Event) :
    e.fillId = e.fill?.map Fill.matchId := by
  cases e <;> rfl

/-- The fills among some events. -/
def fillsOf (es : List Event) : List Fill :=
  es.filterMap Event.fill?

theorem fillsOf_append (es es' : List Event) :
    fillsOf (es ++ es') = fillsOf es ++ fillsOf es' :=
  List.filterMap_append

/-- **The fills account for what is traded**, from the orders that rest before
and afterwards. -/
structure Trades (before after named : OrderInfo → Prop) (fs : List Fill) :
    Prop where
  /-- Each fill has met an order that was resting, and not one that is named. -/
  met : ∀ f ∈ fs, before f.met ∧ ¬ named f.met
  /-- What it has left of the order rests afterwards. -/
  left : ∀ f ∈ fs, f.resting.remainingQuantity ≠ 0 → after f.resting
  gone : ∀ f ∈ fs, f.resting.remainingQuantity = 0 →
    ∀ o, after o → o.key ≠ f.resting.key
  /-- No order is met twice. -/
  once : (fs.map fun f => f.resting.key).Nodup
  /-- The other orders rest as before, unless they are named. -/
  others : ∀ o, before o → ¬ after o → named o ∨ ∃ f ∈ fs, f.met = o

namespace Trades

variable {before before' after after' named named' : OrderInfo → Prop}
variable {fs : List Fill}

theorem nil (h : ∀ o, before o → ¬ after o → named o) :
    Trades before after named [] where
  met := nofun
  left := nofun
  gone := nofun
  once := List.nodup_nil
  others o ho hgone := .inl (h o ho hgone)

theorem congr
    (h : Trades before after named fs) (hbefore : ∀ o, before' o ↔ before o)
    (hafter : ∀ o, after' o ↔ after o) :
    Trades before' after' named fs := by
  rwa [funext fun o => propext (hbefore o),
    funext fun o => propext (hafter o)]

/-- An order with a new key comes to rest. -/
theorem insert
    (h : Trades before after named fs) {x : OrderInfo}
    (hnew : ∀ o, before o → o.key ≠ x.key) :
    Trades before (fun o => after o ∨ o = x) named fs where
  met := h.met
  left f hf hne := .inl (h.left f hf hne)
  gone f hf hzero o ho := by
    rcases ho with ho | rfl
    · exact h.gone f hf hzero o ho
    · exact fun heq => hnew f.met (h.met f hf).1 (f.met_key.trans heq.symm)
  once := h.once
  others o ho hgone := h.others o ho fun hafter => hgone (.inl hafter)

/-- Orders that the request names are taken out first. -/
theorem named_out
    (h : Trades before after named fs)
    (hbefore : ∀ o, before o → before' o)
    (hnamed : ∀ o, before' o → ¬ before o → named' o)
    (hsame : ∀ o, named o → named' o)
    (hapart : ∀ o, before o → ¬ named' o) :
    Trades before' after named' fs where
  met f hf := ⟨hbefore _ (h.met f hf).1, hapart _ (h.met f hf).1⟩
  left := h.left
  gone := h.gone
  once := h.once
  others o ho hgone := by
    by_cases hold : before o
    · exact (h.others o hold hgone).imp_left (hsame o)
    · exact .inl (hnamed o ho hold)

end Trades

section Sweeps

variable {R : Price → Prop} [DecidablePred R] {a : OrderArgs}

/-- **A sweep trades with the orders at the front**, and takes out those that
it leaves without shares. -/
theorem sweep_split (n : OrderId) (q : Quantity) (l : List OrderInfo) :
    ∃ t, l = (fillsOf (sweep R a n q l).fills).map Fill.met ++ t ∧
      (sweep R a n q l).resting =
        ((fillsOf (sweep R a n q l).fills).map Fill.resting).filter
          (fun o => o.remainingQuantity ≠ 0) ++ t := by
  induction l generalizing n q with
  | nil => exact ⟨[], rfl, rfl⟩
  | cons o l ih =>
      by_cases hq : q = 0
      · subst hq
        rw [sweep_zero]
        exact ⟨o :: l, rfl, rfl⟩
      by_cases ho : R o.price
      · by_cases hle : o.remainingQuantity ≤ q
        · rw [sweep_full hq ho hle]
          obtain ⟨t, hl, hresting⟩ :=
            ih ((n + 1) % wordSize) (q - o.remainingQuantity)
          have hmet : Fill.met ⟨a, o.withRemaining 0, o.remainingQuantity, n⟩ =
              o := by
            simp [Fill.met, OrderInfo.withRemaining]
          refine ⟨t, ?_, ?_⟩
          · show o :: l = Fill.met _ :: _
            rw [hmet]
            exact congrArg (o :: ·) hl
          · exact hresting
        · rw [sweep_part hq ho hle]
          have hsum : o.remainingQuantity - q + q = o.remainingQuantity :=
            Nat.sub_add_cancel (Nat.le_of_not_le hle)
          have hmet : Fill.met
              ⟨a, o.withRemaining (o.remainingQuantity - q), q, n⟩ = o := by
            simp [Fill.met, OrderInfo.withRemaining, hsum]
          have hleft : o.remainingQuantity - q ≠ 0 :=
            Nat.sub_ne_zero_of_lt (Nat.lt_of_not_le hle)
          refine ⟨l, ?_, ?_⟩
          · show o :: l = Fill.met _ :: l
            rw [hmet]
          · simp [fillsOf, Event.fill?, hleft]
      · rw [sweep_stop n q l ho]
        exact ⟨o :: l, rfl, rfl⟩

/-- A sweep of orders with keys that are apart, beside others. -/
theorem sweep_trades
    (n : OrderId) (q : Quantity) {l c : List OrderInfo}
    (hkeys : ((l ++ c).map OrderInfo.key).Nodup) :
    Trades (· ∈ l ++ c) (· ∈ (sweep R a n q l).resting ++ c)
      (fun _ => False) (fillsOf (sweep R a n q l).fills) := by
  obtain ⟨t, hl, hresting⟩ := sweep_split (R := R) (a := a) n q l
  set fs := fillsOf (sweep R a n q l).fills
  have hkeysMet : (fs.map Fill.met).map OrderInfo.key =
      fs.map fun f => f.resting.key := by
    rw [List.map_map]
    rfl
  rw [hl, List.append_assoc, List.map_append, hkeysMet] at hkeys
  obtain ⟨honce, -, hapart⟩ := List.nodup_append.mp hkeys
  rw [hresting, hl]
  constructor
  · intro f hf
    refine ⟨List.mem_append_left _ (List.mem_append_left _ ?_), id⟩
    exact List.mem_map_of_mem hf
  · intro f hf hne
    refine List.mem_append_left _ (List.mem_append_left _ ?_)
    exact List.mem_filter.mpr ⟨List.mem_map_of_mem hf, decide_eq_true hne⟩
  · intro f hf hzero o ho heq
    rw [List.append_assoc] at ho
    rcases List.mem_append.mp ho with ho | ho
    · -- it is what another fill has left
      obtain ⟨ho, hne⟩ := List.mem_filter.mp ho
      obtain ⟨f', hf', rfl⟩ := List.mem_map.mp ho
      obtain rfl := List.inj_on_of_nodup_map honce hf' hf heq
      exact of_decide_eq_true hne hzero
    · exact hapart _ (List.mem_map_of_mem hf) _ (List.mem_map_of_mem ho)
        heq.symm
  · exact honce
  · intro o ho hgone
    rw [List.append_assoc] at ho hgone
    rcases List.mem_append.mp ho with ho | ho
    · exact .inr (List.mem_map.mp ho)
    · exact absurd (List.mem_append_right _ ho) hgone

end Sweeps

namespace Ladder

variable {A : Ladder} {a : OrderArgs}

/-- What is traded by entering an order is traded by its sweep. -/
theorem fillsOf_enter (A : Ladder) (n : OrderId) (replacing : Bool)
    (a : OrderArgs) :
    fillsOf (A.enter n replacing a).events = fillsOf (A.sweepBy n a).fills := by
  rcases A.enter_cases n replacing a with
    ⟨-, heq⟩ | ⟨-, -, heq⟩ | ⟨-, -, heq⟩
  · rw [heq]
  · rw [heq, fillsOf_append]
    exact List.append_nil _
  · rw [heq, fillsOf_append]
    exact List.append_nil _

/-- The fills of an incoming order are fills of it. -/
theorem incoming_of_enter
    {n : OrderId} {replacing : Bool} {f : Fill}
    (hf : f ∈ fillsOf (A.enter n replacing a).events) : f.incoming = a := by
  rw [fillsOf_enter] at hf
  obtain ⟨e, he, hfill⟩ := List.mem_filterMap.mp hf
  obtain ⟨o, fill, remaining, matchId, rfl⟩ := mem_sweep_fills he
  obtain rfl := Option.some.inj hfill
  rfl

/-- **An incoming order** trades, and what is left of it may come to rest. -/
theorem enter_trades
    (hA : A.WF) (n : OrderId) (replacing : Bool)
    (hnew : ∀ o ∈ A.orders, o.key ≠ (a.clientId, a.clientOrderId)) :
    Trades (· ∈ A.orders) (· ∈ (A.enter n replacing a).ladder.orders)
      (fun _ => False) (fillsOf (A.enter n replacing a).events) := by
  have hperm := A.orders_perm a.side
  have hperm' := (A.swept n a).orders_perm a.side
  rw [swept_side_opposite, swept_side_self] at hperm'
  have hswept : Trades (· ∈ A.orders) (· ∈ (A.swept n a).orders)
      (fun _ => False) (fillsOf (A.sweepBy n a).fills) :=
    (sweep_trades n a.initialQuantity
      ((hperm.map OrderInfo.key).nodup_iff.mp hA.keys)).congr
        (fun o => hperm.mem_iff) fun o => hperm'.mem_iff
  rw [fillsOf_enter]
  by_cases hrests : a.orderType = .goodTillCancel ∧
      (A.sweepBy n a).remaining ≠ 0
  · have hkey : ∀ o ∈ A.orders, o.key ≠ (OrderArgs.toInfo { a with
        initialQuantity := (A.sweepBy n a).remaining }).key := hnew
    refine (hswept.insert hkey).congr (fun _ => Iff.rfl) fun o => ?_
    rw [mem_enter_orders]
    simp [hrests.1, hrests.2]
  · refine hswept.congr (fun _ => Iff.rfl) fun o => ?_
    rw [mem_enter_orders]
    exact or_iff_left fun h => hrests ⟨h.1, h.2.1⟩

end Ladder

/-- The request is about the order, to cancel or to replace it. -/
def MEClientRequest.Names (r : MEClientRequest) (o : OrderInfo) : Prop :=
  r.action ≠ .new ∧ o.key = (r.clientId, r.clientOrderId)

namespace Ladder

variable {A : Ladder} {r : MEClientRequest}

/-- **What a request trades.** -/
theorem step_trades (hA : A.WF) (n : OrderId) (hfresh : A.Fresh r) :
    Trades (· ∈ A.orders) (· ∈ (A.step n r).ladder.orders) r.Names
      (fillsOf (A.step n r).events) := by
  rcases A.step_shapes n r with
    ⟨e, -, heq, he⟩ | ⟨o₁, haction, hfind, -, heq⟩ | ⟨haction, heq⟩ |
      ⟨old, haction, hfind, -, heq⟩
  · have hnone : fillsOf [e] = [] := by
      rcases he with rfl | ⟨o, -, rfl⟩ <;> rfl
    rw [heq, hnone]
    exact .nil fun o ho hgone => absurd ho hgone
  · have hkey := (mem_of_find? hfind).2
    rw [heq]
    refine .nil fun o ho hgone => ⟨by simp [haction], ?_⟩
    by_contra hne
    exact hgone (mem_withdraw_of_ne _ ho (hkey ▸ hne))
  · have hnew : ∀ o ∈ A.bump.orders, o.key ≠ (r.clientId, r.clientOrderId) :=
      hfresh _ (by simp [MEClientRequest.newKey, haction])
    rw [heq]
    exact (enter_trades ((trims_bump hA).wf hA) n false hnew).named_out
      (fun _ => id) (fun _ ho hgone => absurd ho hgone) (fun _ => False.elim)
        fun _ _ hnamed => hnamed.1 haction
  · have hkey := (mem_of_find? hfind).2
    have hold : ∀ o ∈ (A.erase old.key).bump.orders, o ∈ A.orders :=
      fun o ho => (mem_erase_orders.mp ho).1
    have hnew : ∀ o ∈ (A.erase old.key).bump.orders,
        o.key ≠ (r.clientId, r.newClientOrderId) := fun o ho =>
      hfresh _ (by simp [MEClientRequest.newKey, haction]) o (hold o ho)
    rw [heq]
    refine (enter_trades (a := A.replacementArgs r old.side)
      (wf_erase_bump hA old.key) n true hnew).named_out hold ?_
        (fun _ => False.elim) ?_
    · intro o ho hgone
      refine ⟨by simp [haction], ?_⟩
      by_contra hne
      exact hgone (mem_erase_orders.mpr ⟨ho, hkey ▸ hne⟩)
    · intro o ho hnamed
      exact (mem_erase_orders.mp ho).2 (hnamed.2.trans hkey.symm)

/-- The fills of a request are fills of the order that it brings. -/
theorem brings_of_step
    {n : OrderId} {f : Fill} (hf : f ∈ fillsOf (A.step n r).events) :
    r.Brings f.incoming.toInfo := by
  rcases A.step_shapes n r with
    ⟨e, -, heq, he⟩ | ⟨o₁, -, -, -, heq⟩ | ⟨haction, heq⟩ |
      ⟨old, haction, -, -, heq⟩
  · rw [heq] at hf
    rcases he with rfl | ⟨o, -, rfl⟩ <;> cases hf
  · rw [heq] at hf
    cases hf
  · rw [heq] at hf
    rw [incoming_of_enter hf]
    exact brings_newArgs A haction _
  · rw [heq] at hf
    rw [incoming_of_enter hf]
    exact brings_replacementArgs A haction old.side _

end Ladder

end NanoExchange
