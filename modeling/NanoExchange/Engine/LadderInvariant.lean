import NanoExchange.Engine.Sweep

/-!
# Invariants of a ladder

`Ladder.WF` is what holds of the resting orders after every request, and
`Ladder.Ids` what holds of their market order ids as long as the id counter
has not wrapped.

A request changes the resting orders in one of two ways
(`Ladder.step_cases`): it only takes orders or shares away (`Ladder.Trims`),
or it does so and then lets one new order come to rest.  Both invariants are
kept by each of the two, and hence by every request.
-/

namespace NanoExchange

open Lib

/-- The pair of ids under which a request wants a new order to be indexed. -/
def MEClientRequest.newKey (r : MEClientRequest) :
    Option (ClientId × OrderId) :=
  match r.action with
  | .new => some (r.clientId, r.clientOrderId)
  | .cancel => none
  | .modify => some (r.clientId, r.newClientOrderId)

namespace OrderInfo

/-- All of an order but its remaining quantity. -/
def terms (o : OrderInfo) : OrderInfo :=
  o.withRemaining 0

/-- `o'` is `o` with some of its shares, but not none, left. -/
def Shrinks (o o' : OrderInfo) : Prop :=
  ∃ x, 0 < x ∧ x ≤ o.remainingQuantity ∧ o' = o.withRemaining x

theorem Shrinks.refl {o : OrderInfo} (h : 0 < o.remainingQuantity) :
    o.Shrinks o :=
  ⟨o.remainingQuantity, h, le_rfl, rfl⟩

theorem Shrinks.trans
    {o₁ o₂ o₃ : OrderInfo} (h₁ : o₁.Shrinks o₂) (h₂ : o₂.Shrinks o₃) :
    o₁.Shrinks o₃ := by
  obtain ⟨x, -, hx, rfl⟩ := h₁
  obtain ⟨y, hy, hyx, rfl⟩ := h₂
  exact ⟨y, hy, le_trans hyx hx, rfl⟩

end OrderInfo

/-- `l'` is what is left of `l` after orders and shares have been taken out. -/
structure Trims (l l' : List OrderInfo) : Prop where
  sub : (l'.map OrderInfo.terms).Sublist (l.map OrderInfo.terms)
  shrinks : ∀ o' ∈ l', ∃ o ∈ l, o.Shrinks o'

namespace Trims

theorem refl {l : List OrderInfo} (h : ∀ o ∈ l, 0 < o.remainingQuantity) :
    Trims l l where
  sub := List.Sublist.refl _
  shrinks o ho := ⟨o, ho, .refl (h o ho)⟩

theorem trans
    {l₁ l₂ l₃ : List OrderInfo} (h₁ : Trims l₁ l₂) (h₂ : Trims l₂ l₃) :
    Trims l₁ l₃ where
  sub := h₂.sub.trans h₁.sub
  shrinks o₃ ho₃ := by
    obtain ⟨o₂, ho₂, h32⟩ := h₂.shrinks o₃ ho₃
    obtain ⟨o₁, ho₁, h21⟩ := h₁.shrinks o₂ ho₂
    exact ⟨o₁, ho₁, h21.trans h32⟩

theorem filter
    {l : List OrderInfo} (h : ∀ o ∈ l, 0 < o.remainingQuantity)
    (p : OrderInfo → Bool) :
    Trims l (l.filter p) where
  sub := List.filter_sublist.map _
  shrinks o ho := by
    have hmem := List.mem_of_mem_filter ho
    exact ⟨o, hmem, .refl (h o hmem)⟩

theorem sweep
    {R : Price → Prop} [DecidablePred R] {l : List OrderInfo}
    (h : ∀ o ∈ l, 0 < o.remainingQuantity) (a : OrderArgs) (n : OrderId)
    (q : Quantity) :
    Trims l (NanoExchange.sweep R a n q l).resting where
  sub := (map_sweep_resting OrderInfo.terms (fun _ _ => rfl) n q l).sublist
  shrinks o ho := by
    rcases mem_sweep_resting ho with ho | ⟨o', ho', x, hx, hlt, rfl⟩
    · exact ⟨o, ho, .refl (h o ho)⟩
    · exact ⟨o', ho', x, hx, hlt.le, rfl⟩

/-- Seen through anything that does not read the remaining quantity, trimming
takes orders out. -/
theorem map_sublist
    {l l' : List OrderInfo} (h : Trims l l') {β : Type*} (f : OrderInfo → β)
    (hf : ∀ o x, f (o.withRemaining x) = f o) :
    (l'.map f).Sublist (l.map f) := by
  have hcomp : f ∘ OrderInfo.terms = f := funext fun o => hf o 0
  have hsub := h.sub.map f
  rwa [List.map_map, List.map_map, hcomp] at hsub

/-- A relation between orders that does not read the remaining quantities
holds along the list that is left. -/
theorem pairwise
    {l l' : List OrderInfo} (h : Trims l l')
    {r : OrderInfo → OrderInfo → Prop}
    (hr : ∀ o o', r o.terms o'.terms ↔ r o o') (hl : l.Pairwise r) :
    l'.Pairwise r := by
  have hl' : (l.map OrderInfo.terms).Pairwise r := by
    rw [List.pairwise_map]
    exact hl.imp fun {o o'} => (hr o o').mpr
  have h' := hl'.sublist h.sub
  rw [List.pairwise_map] at h'
  exact h'.imp fun {o o'} => (hr o o').mp

end Trims

namespace Ladder

theorem mem_orders {A : Ladder} {o : OrderInfo} :
    o ∈ A.orders ↔ ∃ s, o ∈ A.side s := by
  simp only [orders, List.mem_append]
  constructor
  · rintro (h | h)
    · exact ⟨_, h⟩
    · exact ⟨_, h⟩
  · rintro ⟨s, h⟩
    cases s with
    | buy => exact .inl h
    | sell => exact .inr h

theorem mem_orders_of_side
    {A : Ladder} {s : Side} {o : OrderInfo} (h : o ∈ A.side s) :
    o ∈ A.orders :=
  mem_orders.mpr ⟨s, h⟩

theorem find?_eq_none {A : Ladder} {k : ClientId × OrderId} :
    A.find? k = none ↔ ∀ o ∈ A.orders, o.key ≠ k := by
  simp [find?]

theorem mem_of_find?
    {A : Ladder} {k : ClientId × OrderId} {o : OrderInfo}
    (h : A.find? k = some o) :
    o ∈ A.orders ∧ o.key = k :=
  ⟨List.mem_of_find?_eq_some h, by simpa using List.find?_some h⟩

@[simp] theorem setSide_side_self (A : Ladder) (s : Side)
    (l : List OrderInfo) :
    (A.setSide s l).side s = l := by
  simp [setSide]

theorem setSide_side_of_ne
    (A : Ladder) {s s' : Side} (h : s' ≠ s) (l : List OrderInfo) :
    (A.setSide s l).side s' = A.side s' := by
  simp [setSide, h]

theorem insert_side_self (A : Ladder) (o : OrderInfo) :
    (A.insert o).side o.side =
      place o.side.precedes OrderInfo.price o (A.side o.side) :=
  A.setSide_side_self _ _

theorem insert_side_of_ne
    (A : Ladder) {o : OrderInfo} {s : Side} (h : s ≠ o.side) :
    (A.insert o).side s = A.side s :=
  A.setSide_side_of_ne h _

theorem mem_insert
    {A : Ladder} {o o' : OrderInfo} {s : Side} :
    o' ∈ (A.insert o).side s ↔ (o' = o ∧ s = o.side) ∨ o' ∈ A.side s := by
  by_cases hs : s = o.side
  · subst hs
    rw [insert_side_self, mem_place]
    simp
  · rw [A.insert_side_of_ne hs]
    simp [hs]

theorem mem_insert_orders {A : Ladder} {o o' : OrderInfo} :
    o' ∈ (A.insert o).orders ↔ o' = o ∨ o' ∈ A.orders := by
  simp only [mem_orders, mem_insert]
  constructor
  · rintro ⟨s, ⟨rfl, -⟩ | h⟩
    · exact .inl rfl
    · exact .inr ⟨s, h⟩
  · rintro (rfl | ⟨s, h⟩)
    · exact ⟨o'.side, .inl ⟨rfl, rfl⟩⟩
    · exact ⟨s, .inr h⟩

theorem insert_orders_perm (A : Ladder) (o : OrderInfo) :
    (A.insert o).orders.Perm (o :: A.orders) := by
  have hperm :
      (place o.side.precedes OrderInfo.price o (A.side o.side)).Perm
        (o :: A.side o.side) :=
    place_perm o (A.side o.side)
  cases ho : o.side with
  | buy =>
      rw [ho] at hperm
      have hself := A.insert_side_self o
      have hother := A.insert_side_of_ne (o := o) (s := .sell) (by simp [ho])
      rw [ho] at hself
      rw [orders, orders, hself, hother, ← List.cons_append]
      exact hperm.append_right _
  | sell =>
      rw [ho] at hperm
      have hself := A.insert_side_self o
      have hother := A.insert_side_of_ne (o := o) (s := .buy) (by simp [ho])
      rw [ho] at hself
      rw [orders, orders, hself, hother]
      exact (hperm.append_left _).trans List.perm_middle

theorem orders_perm (A : Ladder) (s : Side) :
    A.orders.Perm (A.side s.opposite ++ A.side s) := by
  cases s with
  | buy => exact List.perm_append_comm
  | sell => exact List.Perm.refl _

/-- What holds of the resting orders after every request. -/
structure WF (A : Ladder) : Prop where
  placed : ∀ s, ∀ o ∈ A.side s, o.side = s
  sorted : ∀ s, InPriority s.precedes OrderInfo.price (A.side s)
  quantity : ∀ o ∈ A.orders,
    0 < o.remainingQuantity ∧ o.remainingQuantity ≤ o.initialQuantity
  orderType : ∀ o ∈ A.orders, o.orderType = .goodTillCancel
  keys : (A.orders.map OrderInfo.key).Nodup
  uncrossed : ∀ o ∈ A.side .buy, ∀ o' ∈ A.side .sell, o.price < o'.price

/-- What holds of market order ids while the counter has not wrapped. -/
structure Ids (A : Ladder) : Prop where
  nodup : (A.orders.map OrderInfo.marketOrderId).Nodup
  below : ∀ o ∈ A.orders, o.marketOrderId < A.nextMarketOrderId
  fifo : ∀ s, (A.side s).Pairwise fun o o' =>
    o.price = o'.price → o.marketOrderId < o'.marketOrderId

/-- `A'` is `A` after orders and shares have been taken out. -/
def Trims (A A' : Ladder) : Prop :=
  ∀ s, NanoExchange.Trims (A.side s) (A'.side s)

/-- No resting order has the key that the request brings. -/
def Fresh (A : Ladder) (r : MEClientRequest) : Prop :=
  ∀ k ∈ r.newKey, ∀ o ∈ A.orders, o.key ≠ k

namespace WF

variable {A A' : Ladder}

theorem empty : Ladder.empty.WF := by
  constructor <;> simp [Ladder.empty, Ladder.orders, InPriority]

theorem side_pos (h : A.WF) (s : Side) :
    ∀ o ∈ A.side s, 0 < o.remainingQuantity :=
  fun o ho => (h.quantity o (mem_orders_of_side ho)).1

/-- On a side in priority order, the orders that a limit crosses come
first. -/
theorem crossing_first (h : A.WF) (s : Side) (price : Price) :
    (A.side s.opposite).Pairwise fun x y =>
      s.crosses price y.price → s.crosses price x.price :=
  (h.sorted s.opposite).imp fun hxy hy =>
    Side.crosses_of_not_precedes hy hxy

theorem side_nodup (h : A.WF) (s : Side) : (A.side s).Nodup := by
  refine List.Nodup.of_map OrderInfo.key (h.keys.sublist ?_)
  refine List.Sublist.map _ ?_
  cases s with
  | buy => exact List.sublist_append_left _ _
  | sell => exact List.sublist_append_right _ _

/-- Two resting orders with the same key are the same order. -/
theorem key_unique
    (h : A.WF) {o o' : OrderInfo} (ho : o ∈ A.orders) (ho' : o' ∈ A.orders)
    (hkey : o.key = o'.key) :
    o = o' :=
  List.inj_on_of_nodup_map h.keys ho ho' hkey

end WF

theorem Ids.empty : Ladder.empty.Ids := by
  constructor <;> simp [Ladder.empty, Ladder.orders]

namespace Trims

variable {A A' : Ladder}

theorem orders (h : A.Trims A') : NanoExchange.Trims A.orders A'.orders where
  sub := by
    rw [Ladder.orders, Ladder.orders, List.map_append, List.map_append]
    exact (h .buy).sub.append (h .sell).sub
  shrinks o ho := by
    obtain ⟨s, hs⟩ := mem_orders.mp ho
    obtain ⟨o', ho', hshrink⟩ := (h s).shrinks o hs
    exact ⟨o', mem_orders_of_side ho', hshrink⟩

theorem trans {A₁ A₂ A₃ : Ladder} (h₁ : A₁.Trims A₂) (h₂ : A₂.Trims A₃) :
    A₁.Trims A₃ :=
  fun s => (h₁ s).trans (h₂ s)

/-- **Taking orders or shares away keeps a ladder well formed.** -/
theorem wf (h : A.Trims A') (hA : A.WF) : A'.WF where
  placed s o ho := by
    obtain ⟨o', ho', x, -, -, rfl⟩ := (h s).shrinks o ho
    exact hA.placed s o' ho'
  sorted s := by
    have hpair := (h s).pairwise (fun _ _ => Iff.rfl) (hA.sorted s)
    exact hpair
  quantity o ho := by
    obtain ⟨o', ho', x, hx, hle, rfl⟩ := h.orders.shrinks o ho
    exact ⟨hx, hle.trans (hA.quantity o' ho').2⟩
  orderType o ho := by
    obtain ⟨o', ho', x, -, -, rfl⟩ := h.orders.shrinks o ho
    exact hA.orderType o' ho'
  keys := hA.keys.sublist (h.orders.map_sublist _ fun _ _ => rfl)
  uncrossed o ho o' ho' := by
    obtain ⟨x, hx, q, -, -, rfl⟩ := (h .buy).shrinks o ho
    obtain ⟨y, hy, q', -, -, rfl⟩ := (h .sell).shrinks o' ho'
    exact hA.uncrossed x hx y hy

theorem ids
    (h : A.Trims A') (hnext : A.nextMarketOrderId ≤ A'.nextMarketOrderId)
    (hA : A.Ids) :
    A'.Ids where
  nodup := hA.nodup.sublist (h.orders.map_sublist _ fun _ _ => rfl)
  below o ho := by
    obtain ⟨o', ho', x, -, -, rfl⟩ := h.orders.shrinks o ho
    exact lt_of_lt_of_le (hA.below o' ho') hnext
  fifo s := (h s).pairwise (fun _ _ => Iff.rfl) (hA.fifo s)

/-- An id that no order has is not had by an order that is left. -/
theorem ids_ne
    (h : A.Trims A') {m : OrderId}
    (hall : ∀ o ∈ A.orders, o.marketOrderId ≠ m) :
    ∀ o ∈ A'.orders, o.marketOrderId ≠ m := by
  intro o ho
  obtain ⟨o', ho', x, -, -, rfl⟩ := h.orders.shrinks o ho
  exact hall o' ho'

theorem nodup_ids
    (h : A.Trims A') (hnodup : (A.orders.map OrderInfo.marketOrderId).Nodup) :
    (A'.orders.map OrderInfo.marketOrderId).Nodup :=
  hnodup.sublist (h.orders.map_sublist _ fun _ _ => rfl)

end Trims

/-- **Letting an uncrossed order rest keeps a ladder well formed.** -/
theorem WF.insert
    {A : Ladder} (h : A.WF) {o : OrderInfo}
    (hqty : 0 < o.remainingQuantity)
    (hle : o.remainingQuantity ≤ o.initialQuantity)
    (htype : o.orderType = .goodTillCancel)
    (hkey : ∀ o' ∈ A.orders, o'.key ≠ o.key)
    (hcross : ∀ o' ∈ A.side o.side.opposite,
      ¬ o.side.crosses o.price o'.price) :
    (A.insert o).WF where
  placed s o' ho' := by
    rcases mem_insert.mp ho' with ⟨rfl, hs⟩ | ho'
    · exact hs.symm
    · exact h.placed s o' ho'
  sorted s := by
    by_cases hs : s = o.side
    · subst hs
      rw [insert_side_self]
      exact inPriority_place (h.sorted o.side)
    · rw [A.insert_side_of_ne hs]
      exact h.sorted s
  quantity o' ho' := by
    rcases mem_insert_orders.mp ho' with rfl | ho'
    · exact ⟨hqty, hle⟩
    · exact h.quantity o' ho'
  orderType o' ho' := by
    rcases mem_insert_orders.mp ho' with rfl | ho'
    · exact htype
    · exact h.orderType o' ho'
  keys := by
    have hperm := (A.insert_orders_perm o).map OrderInfo.key
    rw [hperm.nodup_iff, List.map_cons, List.nodup_cons]
    refine ⟨?_, h.keys⟩
    rintro hmem
    obtain ⟨o', ho', heq⟩ := List.mem_map.mp hmem
    exact hkey o' ho' heq
  uncrossed x hx y hy := by
    rcases mem_insert.mp hx with ⟨hxo, hs⟩ | hx'
    · rcases mem_insert.mp hy with ⟨-, hs'⟩ | hy'
      · rw [← hs] at hs'
        cases hs'
      · rw [← hs] at hcross
        rw [hxo]
        exact lt_of_not_ge fun hge => hcross y hy' (not_lt.mpr hge)
    · rcases mem_insert.mp hy with ⟨hyo, hs⟩ | hy'
      · rw [← hs] at hcross
        rw [hyo]
        exact lt_of_not_ge fun hge => hcross x hx' (not_lt.mpr hge)
      · exact h.uncrossed x hx' y hy'

theorem Ids.insert
    {A : Ladder} (h : A.Ids) {o : OrderInfo}
    (hsorted : InPriority o.side.precedes OrderInfo.price (A.side o.side))
    (hnew : ∀ o' ∈ A.orders, o'.marketOrderId < o.marketOrderId)
    (hnext : o.marketOrderId < A.nextMarketOrderId) :
    (A.insert o).Ids where
  nodup := by
    have hperm := (A.insert_orders_perm o).map OrderInfo.marketOrderId
    rw [hperm.nodup_iff, List.map_cons, List.nodup_cons]
    refine ⟨?_, h.nodup⟩
    intro hmem
    obtain ⟨o', ho', heq⟩ := List.mem_map.mp hmem
    exact (hnew o' ho').ne heq
  below o' ho' := by
    rcases mem_insert_orders.mp ho' with rfl | ho'
    · exact hnext
    · exact h.below o' ho'
  fifo s := by
    by_cases hs : s = o.side
    · subst hs
      rw [insert_side_self]
      refine pairwise_place (h.fifo o.side) ?_ ?_ hsorted
      · intro o' ho' _ _
        exact hnew o' (mem_orders_of_side ho')
      · intro o' _ hbefore heq
        exact absurd hbefore (heq ▸ irrefl_of o.side.precedes o.price)
    · rw [A.insert_side_of_ne hs]
      exact h.fifo s

section Steps

variable {A : Ladder}

/-- The orders around one of them, before and after it is taken out or
changed. -/
theorem orders_split (hwf : A.WF) {o : OrderInfo} (ho : o ∈ A.orders) :
    ∃ l₁ l₂, A.orders = l₁ ++ o :: l₂ ∧
      (A.erase o.key).orders = l₁ ++ l₂ ∧
      ∀ q, (A.setRemaining o.key q).orders =
        l₁ ++ o.withRemaining q :: l₂ := by
  obtain ⟨l₁, l₂, heq⟩ := List.append_of_mem ho
  have hkeys := hwf.keys
  rw [heq, List.map_append, List.map_cons, List.nodup_middle,
    List.nodup_cons, ← List.map_append] at hkeys
  have hne : ∀ x ∈ l₁ ++ l₂, x.key ≠ o.key :=
    fun x hx hkey => hkeys.1 (List.mem_map.mpr ⟨x, hx, hkey⟩)
  have herase : (A.erase o.key).orders =
      A.orders.filter fun x => x.key ≠ o.key := by
    simp [orders, erase]
  have hset : ∀ q, (A.setRemaining o.key q).orders =
      A.orders.map fun x => if x.key = o.key then x.withRemaining q else x := by
    simp [orders, setRemaining]
  refine ⟨l₁, l₂, heq, ?_, fun q => ?_⟩
  · rw [herase, heq, List.filter_append,
      List.filter_cons_of_neg (by simp), ← List.filter_append]
    exact List.filter_eq_self.mpr fun x hx => by simpa using hne x hx
  · have hkept : ∀ l ⊆ l₁ ++ l₂,
        (l.map fun x => if x.key = o.key then x.withRemaining q else x) =
          l := by
      intro l hl
      conv_rhs => rw [← List.map_id l]
      exact List.map_congr_left fun x hx => if_neg (hne x (hl hx))
    rw [hset, heq, List.map_append, List.map_cons, if_pos rfl,
      hkept l₁ (List.subset_append_left _ _),
      hkept l₂ (List.subset_append_right _ _)]

theorem trims_bump (h : A.WF) : A.Trims A.bump :=
  fun s => .refl (h.side_pos s)

theorem trims_erase (h : A.WF) (k : ClientId × OrderId) :
    A.Trims (A.erase k) :=
  fun s => .filter (h.side_pos s) _

theorem wf_erase_bump (h : A.WF) (k : ClientId × OrderId) :
    (A.erase k).bump.WF := by
  have herase := (trims_erase h k).wf h
  exact (trims_bump herase).wf herase

theorem trims_setRemaining
    (h : A.WF) {o : OrderInfo} (ho : o ∈ A.orders) {q : Quantity}
    (hq : 0 < q) (hle : q ≤ o.remainingQuantity) :
    A.Trims (A.setRemaining o.key q) := by
  intro s
  constructor
  · have hterms : ((A.setRemaining o.key q).side s).map OrderInfo.terms =
        (A.side s).map OrderInfo.terms := by
      simp only [setRemaining, List.map_map]
      refine List.map_congr_left fun x _ => ?_
      by_cases hx : x.key = o.key
      · simp [hx, OrderInfo.terms, OrderInfo.withRemaining]
      · simp [hx]
    rw [hterms]
  · intro o' ho'
    obtain ⟨x, hx, rfl⟩ := List.mem_map.mp ho'
    refine ⟨x, hx, ?_⟩
    by_cases hkey : x.key = o.key
    · rw [if_pos hkey, h.key_unique (mem_orders_of_side hx) ho hkey]
      exact ⟨q, hq, hle, rfl⟩
    · rw [if_neg hkey]
      exact .refl (h.side_pos s x hx)

theorem trims_withdraw
    (h : A.WF) {o : OrderInfo} (ho : o ∈ A.orders) (qty : Quantity) :
    A.Trims (A.withdraw o qty) := by
  unfold withdraw
  split_ifs with hleft
  · exact trims_erase h o.key
  · exact trims_setRemaining h ho (Nat.pos_of_ne_zero hleft) (Nat.sub_le _ _)

/-- The sweep of an incoming order. -/
abbrev sweepBy (A : Ladder) (n : OrderId) (a : OrderArgs) : Sweep :=
  sweep (a.side.crosses a.price) a n a.initialQuantity
    (A.side a.side.opposite)

/-- The ladder after the sweep of an incoming order. -/
def swept (A : Ladder) (n : OrderId) (a : OrderArgs) : Ladder :=
  A.setSide a.side.opposite (A.sweepBy n a).resting

theorem swept_side_opposite (A : Ladder) (n : OrderId) (a : OrderArgs) :
    (A.swept n a).side a.side.opposite = (A.sweepBy n a).resting :=
  A.setSide_side_self _ _

theorem swept_side_self (A : Ladder) (n : OrderId) (a : OrderArgs) :
    (A.swept n a).side a.side = A.side a.side :=
  A.setSide_side_of_ne a.side.ne_opposite _

theorem trims_swept (h : A.WF) (n : OrderId) (a : OrderArgs) :
    A.Trims (A.swept n a) := by
  intro s
  by_cases hs : s = a.side.opposite
  · subst hs
    rw [swept_side_opposite]
    exact .sweep (h.side_pos _) a n _
  · rw [swept, A.setSide_side_of_ne hs]
    exact .refl (h.side_pos s)

/-- An incoming order that is not filled has swept all that it crosses. -/
theorem swept_uncrossed
    (h : A.WF) {n : OrderId} {a : OrderArgs}
    (hrem : (A.sweepBy n a).remaining ≠ 0) :
    ∀ o ∈ (A.swept n a).side a.side.opposite,
      ¬ a.side.crosses a.price o.price := by
  have hwf := (trims_swept h n a).wf h
  have hsorted := hwf.sorted a.side.opposite
  intro o ho hcross
  rw [swept_side_opposite] at ho hsorted
  cases hl : (A.sweepBy n a).resting with
  | nil =>
      rw [hl] at ho
      cases ho
  | cons x t =>
      rw [hl] at ho hsorted
      have hx : ¬ a.side.crosses a.price x.price := sweep_exhausts hrem hl
      rcases List.mem_cons.mp ho with rfl | ho
      · exact hx hcross
      · exact hx (Side.crosses_of_not_precedes hcross
          ((List.pairwise_cons.mp hsorted).1 o ho))

/-- **What becomes of an incoming order**: it is filled, or what is left of it
rests, or what is left of it is dropped. -/
theorem enter_cases (A : Ladder) (n : OrderId) (replacing : Bool)
    (a : OrderArgs) :
    ((A.sweepBy n a).remaining = 0 ∧
      A.enter n replacing a =
        ⟨A.swept n a, (A.sweepBy n a).matchIds, (A.sweepBy n a).fills⟩) ∨
    ((A.sweepBy n a).remaining ≠ 0 ∧ a.orderType = .goodTillCancel ∧
      A.enter n replacing a =
        ⟨(A.swept n a).insert { a with
            initialQuantity := (A.sweepBy n a).remaining }.toInfo,
          (A.sweepBy n a).matchIds,
          (A.sweepBy n a).fills ++
            [.rested replacing a (A.sweepBy n a).remaining]⟩) ∨
    ((A.sweepBy n a).remaining ≠ 0 ∧ a.orderType = .fillAndKill ∧
      A.enter n replacing a =
        ⟨A.swept n a, (A.sweepBy n a).matchIds,
          (A.sweepBy n a).fills ++
            [.killed replacing a (A.sweepBy n a).remaining]⟩) := by
  by_cases hrem : (A.sweepBy n a).remaining = 0
  · refine .inl ⟨hrem, ?_⟩
    simp [enter, hrem, swept]
  · cases htype : a.orderType with
    | goodTillCancel =>
        refine .inr (.inl ⟨hrem, rfl, ?_⟩)
        simp [enter, hrem, htype, swept]
    | fillAndKill =>
        refine .inr (.inr ⟨hrem, rfl, ?_⟩)
        simp [enter, hrem, htype, swept]

/-- What entering an order makes happen: fills of it, then at most one event
about its remainder. -/
theorem mem_enter_events
    {n : OrderId} {replacing : Bool} {a : OrderArgs} {e : Event}
    (he : e ∈ (A.enter n replacing a).events) :
    e ∈ (A.sweepBy n a).fills ∨ (∃ q, e = .rested replacing a q) ∨
      ∃ q, e = .killed replacing a q := by
  rcases A.enter_cases n replacing a with
    ⟨-, heq⟩ | ⟨-, -, heq⟩ | ⟨-, -, heq⟩
  · rw [heq] at he
    exact .inl he
  · rw [heq] at he
    exact (List.mem_append.mp he).imp id fun h =>
      .inl ⟨_, List.mem_singleton.mp h⟩
  · rw [heq] at he
    exact (List.mem_append.mp he).imp id fun h =>
      .inr ⟨_, List.mem_singleton.mp h⟩

theorem fills_subset_enter (A : Ladder) (n : OrderId) (replacing : Bool)
    (a : OrderArgs) :
    (A.sweepBy n a).fills ⊆ (A.enter n replacing a).events := by
  intro e he
  rcases A.enter_cases n replacing a with
    ⟨-, heq⟩ | ⟨-, -, heq⟩ | ⟨-, -, heq⟩ <;> rw [heq]
  · exact he
  · exact List.mem_append_left _ he
  · exact List.mem_append_left _ he

/-- What rests after an order has been entered: what the sweep has left
resting, and the remainder of a GoodTillCancel order. -/
theorem mem_enter_orders
    {n : OrderId} {replacing : Bool} {a : OrderArgs} {o : OrderInfo} :
    o ∈ (A.enter n replacing a).ladder.orders ↔
      o ∈ (A.swept n a).orders ∨
        a.orderType = .goodTillCancel ∧ (A.sweepBy n a).remaining ≠ 0 ∧
          o = { a with
            initialQuantity := (A.sweepBy n a).remaining }.toInfo := by
  rcases A.enter_cases n replacing a with
    ⟨hrem, heq⟩ | ⟨hrem, htype, heq⟩ | ⟨-, htype, heq⟩
  · rw [heq]
    simp [hrem]
  · rw [heq, mem_insert_orders, or_comm]
    simp [hrem, htype]
  · rw [heq]
    simp [htype]

theorem enter_next (A : Ladder) (n : OrderId) (replacing : Bool)
    (a : OrderArgs) :
    (A.enter n replacing a).ladder.nextMarketOrderId =
      A.nextMarketOrderId := by
  rcases A.enter_cases n replacing a with
    ⟨-, heq⟩ | ⟨-, -, heq⟩ | ⟨-, -, heq⟩ <;>
  · rw [heq]
    rfl

/-- The request cannot be performed: it names no order, more shares than
there are, or a replacement without an id or without shares. -/
def TurnsDown (A : Ladder) (r : MEClientRequest) : Prop :=
  match r.action with
  | .new => False
  | .cancel => ∀ o, A.find? (r.clientId, r.clientOrderId) = some o →
      o.remainingQuantity < canceledQty r o
  | .modify => ∀ o, A.find? (r.clientId, r.clientOrderId) = some o →
      r.newClientOrderId = 0 ∨ r.qty = 0

/-- **The four kinds of request**: turned down, a withdrawal of shares, a new
order, a replacement. -/
theorem step_shapes (A : Ladder) (n : OrderId) (r : MEClientRequest) :
    (∃ e, A.TurnsDown r ∧ A.step n r = ⟨A, n, [e]⟩ ∧
      (e = rejection r ∨ ∃ o ∈ A.orders, e = .excessive r.tickerId o)) ∨
    (∃ o, r.action = .cancel ∧
      A.find? (r.clientId, r.clientOrderId) = some o ∧
      canceledQty r o ≤ o.remainingQuantity ∧
      A.step n r = ⟨A.withdraw o (canceledQty r o), n,
        [.canceled r.tickerId o (canceledQty r o)]⟩) ∨
    (r.action = .new ∧
      A.step n r = { A.bump.enter n false (A.newArgs r) with
        events := .accepted (A.newArgs r) ::
          (A.bump.enter n false (A.newArgs r)).events }) ∨
    (∃ old, r.action = .modify ∧
      A.find? (r.clientId, r.clientOrderId) = some old ∧
      ¬ (r.newClientOrderId = 0 ∨ r.qty = 0) ∧
      A.step n r =
        { (A.erase old.key).bump.enter n true (A.replacementArgs r old.side)
          with events := .modified (A.replacementArgs r old.side) old ::
            ((A.erase old.key).bump.enter n true
              (A.replacementArgs r old.side)).events }) := by
  cases haction : r.action with
  | new =>
      refine .inr (.inr (.inl ⟨rfl, ?_⟩))
      simp only [step, haction]
  | cancel =>
      cases hfind : A.find? (r.clientId, r.clientOrderId) with
      | none =>
          refine .inl ⟨rejection r, ?_, ?_, .inl rfl⟩
          · simp [TurnsDown, haction, hfind]
          · simp only [step, haction, hfind]
      | some o =>
          by_cases hqty : canceledQty r o > o.remainingQuantity
          · refine .inl ⟨.excessive r.tickerId o, ?_, ?_,
              .inr ⟨o, (mem_of_find? hfind).1, rfl⟩⟩
            · simp only [TurnsDown, haction, hfind, Option.some.injEq,
                forall_eq']
              exact hqty
            · simp only [step, haction, hfind, if_pos hqty]
          · refine .inr (.inl ⟨o, rfl, rfl, not_lt.mp hqty, ?_⟩)
            simp only [step, haction, hfind, if_neg hqty]
  | modify =>
      cases hfind : A.find? (r.clientId, r.clientOrderId) with
      | none =>
          refine .inl ⟨rejection r, ?_, ?_, .inl rfl⟩
          · simp [TurnsDown, haction, hfind]
          · simp only [step, haction, hfind]
      | some old =>
          by_cases hbad : r.newClientOrderId = 0 ∨ r.qty = 0
          · refine .inl ⟨rejection r, ?_, ?_, .inl rfl⟩
            · simp only [TurnsDown, haction]
              exact fun _ _ => hbad
            · simp only [step, haction, hfind, if_pos hbad]
          · refine .inr (.inr (.inr ⟨old, rfl, rfl, hbad, ?_⟩))
            simp only [step, haction, hfind, if_neg hbad]

/-- What entering an incoming order does to the resting orders: `B` is what
the request has left of the ladder `A`. -/
theorem enter_ladder_cases
    {B : Ladder} (h : A.WF) (hB : A.Trims B)
    (hnext : B.nextMarketOrderId = A.nextMarketOrderId) (n : OrderId)
    (replacing : Bool) (a : OrderArgs)
    (hid : a.marketOrderId = A.nextMarketOrderId) :
    (A.Trims (B.bump.enter n replacing a).ladder ∧
      (B.bump.enter n replacing a).ladder.nextMarketOrderId =
        (A.nextMarketOrderId + 1) % wordSize) ∨
    ∃ A₁ a', A.Trims A₁ ∧
      A₁.nextMarketOrderId = (A.nextMarketOrderId + 1) % wordSize ∧
      (B.bump.enter n replacing a).ladder = A₁.insert (OrderArgs.toInfo a') ∧
      a'.marketOrderId = A.nextMarketOrderId ∧ 0 < a'.initialQuantity ∧
      a'.orderType = .goodTillCancel ∧
      a'.toInfo.key = (a.clientId, a.clientOrderId) ∧
      ∀ o ∈ A₁.side a'.side.opposite,
        ¬ a'.side.crosses a'.price o.price := by
  have hwf := hB.wf h
  have hbump := (trims_bump hwf).wf hwf
  have htrims : A.Trims (B.bump.swept n a) :=
    (hB.trans (trims_bump hwf)).trans (trims_swept hbump n a)
  have hnext' : (B.bump.swept n a).nextMarketOrderId =
      (A.nextMarketOrderId + 1) % wordSize := by
    rw [← hnext]
    rfl
  rcases B.bump.enter_cases n replacing a with
    ⟨-, heq⟩ | ⟨hrem, htype, heq⟩ | ⟨-, -, heq⟩
  · rw [heq]
    exact .inl ⟨htrims, hnext'⟩
  · rw [heq]
    exact .inr ⟨B.bump.swept n a, _, htrims, hnext', rfl, hid,
      Nat.pos_of_ne_zero hrem, htype, rfl, swept_uncrossed hbump hrem⟩
  · rw [heq]
    exact .inl ⟨htrims, hnext'⟩

/-- **What a request does to the resting orders**: it takes orders or shares
away, and at most lets one new order rest. -/
theorem step_cases (h : A.WF) (n : OrderId) (r : MEClientRequest) :
    (A.Trims (A.step n r).ladder ∧
      ((A.step n r).ladder.nextMarketOrderId = A.nextMarketOrderId ∨
        (A.step n r).ladder.nextMarketOrderId =
          (A.nextMarketOrderId + 1) % wordSize)) ∨
    ∃ A₁ a, A.Trims A₁ ∧
      A₁.nextMarketOrderId = (A.nextMarketOrderId + 1) % wordSize ∧
      (A.step n r).ladder = A₁.insert (OrderArgs.toInfo a) ∧
      a.marketOrderId = A.nextMarketOrderId ∧ 0 < a.initialQuantity ∧
      a.orderType = .goodTillCancel ∧ r.newKey = some a.toInfo.key ∧
      ∀ o ∈ A₁.side a.side.opposite, ¬ a.side.crosses a.price o.price := by
  have hself : A.Trims A := fun s => .refl (h.side_pos s)
  rcases A.step_shapes n r with
    ⟨e, -, heq, -⟩ | ⟨o, -, hfind, -, heq⟩ | ⟨haction, heq⟩ |
      ⟨old, haction, -, -, heq⟩
  · rw [heq]
    exact .inl ⟨hself, .inl rfl⟩
  · rw [heq]
    refine .inl ⟨trims_withdraw h (mem_of_find? hfind).1 _, .inl ?_⟩
    dsimp only [withdraw]
    split_ifs <;> rfl
  · have hkey : r.newKey = some (r.clientId, r.clientOrderId) := by
      simp [MEClientRequest.newKey, haction]
    rw [heq, hkey]
    rcases enter_ladder_cases h hself rfl n false (A.newArgs r) rfl with
      ⟨htrims, hnext⟩ | ⟨A₁, a, htrims, hnext, hins, hid, hpos, htype, hk, hx⟩
    · exact .inl ⟨htrims, .inr hnext⟩
    · exact .inr ⟨A₁, a, htrims, hnext, hins, hid, hpos, htype,
        congrArg some hk.symm, hx⟩
  · have hkey : r.newKey = some (r.clientId, r.newClientOrderId) := by
      simp [MEClientRequest.newKey, haction]
    rw [heq, hkey]
    rcases enter_ladder_cases h (trims_erase h old.key) rfl n true
        (A.replacementArgs r old.side) rfl with
      ⟨htrims, hnext⟩ | ⟨A₁, a, htrims, hnext, hins, hid, hpos, htype, hk, hx⟩
    · exact .inl ⟨htrims, .inr hnext⟩
    · exact .inr ⟨A₁, a, htrims, hnext, hins, hid, hpos, htype,
        congrArg some hk.symm, hx⟩

/-- **Every request keeps a ladder well formed.** -/
theorem step_wf
    (h : A.WF) (n : OrderId) {r : MEClientRequest} (hfresh : A.Fresh r) :
    (A.step n r).ladder.WF := by
  rcases step_cases h n r with
    ⟨htrims, -⟩ | ⟨A₁, a, htrims, -, heq, -, hqty, htype, hkey, hcross⟩
  · exact htrims.wf h
  · rw [heq]
    refine (htrims.wf h).insert hqty le_rfl htype ?_ hcross
    intro o ho
    obtain ⟨o', ho', x, -, -, rfl⟩ := htrims.orders.shrinks o ho
    exact hfresh _ hkey o' ho'

/-- The id counter after a request. -/
theorem step_next_le (h : A.WF) (n : OrderId) (r : MEClientRequest) :
    (A.step n r).ladder.nextMarketOrderId ≤ A.nextMarketOrderId + 1 := by
  have hmod : (A.nextMarketOrderId + 1) % wordSize ≤
      A.nextMarketOrderId + 1 := Nat.mod_le _ _
  rcases step_cases h n r with
    ⟨-, heq | heq⟩ | ⟨A₁, a, -, hnext, heq, -⟩
  · rw [heq]
    exact Nat.le_succ _
  · rw [heq]
    exact hmod
  · rw [heq]
    exact hnext.le.trans hmod

/-- The id counter grows until it wraps. -/
theorem le_step_next
    (h : A.WF) (n : OrderId) (r : MEClientRequest)
    (hbound : A.nextMarketOrderId + 1 < wordSize) :
    A.nextMarketOrderId ≤ (A.step n r).ladder.nextMarketOrderId := by
  have hmod : (A.nextMarketOrderId + 1) % wordSize =
      A.nextMarketOrderId + 1 := Nat.mod_eq_of_lt hbound
  rcases step_cases h n r with
    ⟨-, heq | heq⟩ | ⟨A₁, a, -, hnext, heq, -⟩
  · rw [heq]
  · rw [heq, hmod]
    exact Nat.le_succ _
  · rw [heq]
    show _ ≤ A₁.nextMarketOrderId
    rw [hnext, hmod]
    exact Nat.le_succ _

/-- **Every request keeps the ids apart, until the counter wraps.** -/
theorem step_ids
    (h : A.WF) (hids : A.Ids) (n : OrderId) (r : MEClientRequest)
    (hbound : A.nextMarketOrderId + 1 < wordSize) :
    (A.step n r).ladder.Ids := by
  have hmod : (A.nextMarketOrderId + 1) % wordSize =
      A.nextMarketOrderId + 1 := Nat.mod_eq_of_lt hbound
  have hle := le_step_next h n r hbound
  rcases step_cases h n r with
    ⟨htrims, -⟩ | ⟨A₁, a, htrims, hnext, heq, hid, -⟩
  · exact htrims.ids hle hids
  · rw [hmod] at hnext
    have hids₁ := htrims.ids (by rw [hnext]; exact Nat.le_succ _) hids
    rw [heq]
    refine hids₁.insert ((htrims.wf h).sorted _) ?_ ?_
    · intro o ho
      obtain ⟨o', ho', x, -, -, rfl⟩ := htrims.orders.shrinks o ho
      show o'.marketOrderId < a.marketOrderId
      rw [hid]
      exact hids.below o' ho'
    · show a.marketOrderId < _
      rw [hid, hnext]
      exact Nat.lt_succ_self _

end Steps

end Ladder

end NanoExchange
