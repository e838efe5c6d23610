import NanoExchange.Engine.Custody
import NanoExchange.Engine.Equivalence

/-!
# Cancels are exact, rejections are atomic

What `cancelOrder` and the rejecting paths of `cancelOrder` and `replaceOrder`
do to a book in memory: its queues, its open levels, its client index and its
counters.

A level is open if it is in the map, or on the chain of the vector book; that
is `OpenLevels.IsOpen`.
-/

namespace NanoExchange

open Lib

namespace OrderInfo

/-- What a cancel of `q` shares of the order `o` makes of an order `x`. -/
def afterCancel (o : OrderInfo) (q : Quantity) (x : OrderInfo) :
    Option OrderInfo :=
  if x.key = o.key then
    if q = o.remainingQuantity then none
    else some (x.withRemaining (o.remainingQuantity - q))
  else some x

theorem afterCancel_price
    {o x y : OrderInfo} {q : Quantity} (h : o.afterCancel q x = some y) :
    y.price = x.price := by
  unfold afterCancel at h
  split_ifs at h <;> obtain rfl := Option.some.inj h <;> rfl

theorem afterCancel_key
    {o x y : OrderInfo} {q : Quantity} (h : o.afterCancel q x = some y) :
    y.key = x.key := by
  unfold afterCancel at h
  split_ifs at h <;> obtain rfl := Option.some.inj h <;> rfl

theorem afterCancel_eq_none {o x : OrderInfo} {q : Quantity} :
    o.afterCancel q x = none ↔ x.key = o.key ∧ q = o.remainingQuantity := by
  unfold afterCancel
  by_cases hkey : x.key = o.key <;> by_cases hq : q = o.remainingQuantity <;>
    simp [hkey, hq]

end OrderInfo

namespace Ladder

variable {A : Ladder} {o : OrderInfo} {q : Quantity}

/-- A cancel goes through each side, and changes the one order. -/
theorem withdraw_side (A : Ladder) (hle : q ≤ o.remainingQuantity) (s : Side) :
    (A.withdraw o q).side s = (A.side s).filterMap (o.afterCancel q) := by
  by_cases hq : q = o.remainingQuantity
  · subst hq
    rw [withdraw, if_pos (Nat.sub_self _), erase, ← List.filterMap_eq_filter]
    refine List.filterMap_congr fun x _ => ?_
    by_cases hx : x.key = o.key <;> simp [OrderInfo.afterCancel, hx]
  · have hleft : o.remainingQuantity - q ≠ 0 := by lia
    rw [withdraw, if_neg hleft, setRemaining, ← List.filterMap_eq_map]
    refine List.filterMap_congr fun x _ => ?_
    by_cases hx : x.key = o.key <;> simp [OrderInfo.afterCancel, hx, hq]

theorem queueAt_withdraw
    (A : Ladder) (hle : q ≤ o.remainingQuantity) (s : Side) (k : Price) :
    queueAt OrderInfo.price ((A.withdraw o q).side s) k =
      (queueAt OrderInfo.price (A.side s) k).filterMap (o.afterCancel q) := by
  rw [A.withdraw_side hle]
  exact queueAt_filterMap (fun _ _ => OrderInfo.afterCancel_price) _ k

theorem mem_withdraw
    (A : Ladder) (hle : q ≤ o.remainingQuantity) {x : OrderInfo} :
    x ∈ (A.withdraw o q).orders ↔
      ∃ y ∈ A.orders, o.afterCancel q y = some x := by
  simp only [mem_orders, A.withdraw_side hle, List.mem_filterMap]
  constructor
  · rintro ⟨s, y, hy, hx⟩
    exact ⟨y, ⟨s, hy⟩, hx⟩
  · rintro ⟨y, ⟨s, hy⟩, hx⟩
    exact ⟨s, y, hy, hx⟩

theorem find?_withdraw
    (hwf : A.WF) (ho : o ∈ A.orders) (hle : q ≤ o.remainingQuantity)
    {k : ClientId × OrderId} {x : OrderInfo} :
    (A.withdraw o q).find? k = some x ↔
      ∃ y, A.find? k = some y ∧ o.afterCancel q y = some x := by
  have hwf' := (trims_withdraw hwf ho q).wf hwf
  constructor
  · intro hfind
    obtain ⟨hx, rfl⟩ := mem_of_find? hfind
    obtain ⟨y, hy, hyx⟩ := (A.mem_withdraw hle).mp hx
    refine ⟨y, ?_, hyx⟩
    rw [OrderInfo.afterCancel_key hyx]
    exact find?_of_mem hy fun y' hy' => hwf.key_unique hy' hy
  · rintro ⟨y, hfind, hyx⟩
    obtain ⟨hy, rfl⟩ := mem_of_find? hfind
    have hx := (A.mem_withdraw hle).mpr ⟨y, hy, hyx⟩
    rw [← OrderInfo.afterCancel_key hyx]
    exact find?_of_mem hx fun x' hx' => hwf'.key_unique hx' hx

/-- A client loses its last order exactly if that is the one withdrawn. -/
theorem client_withdraw
    (hwf : A.WF) (ho : o ∈ A.orders) (hle : q ≤ o.remainingQuantity)
    {c : ClientId} :
    (∀ x ∈ (A.withdraw o q).orders, x.clientId ≠ c) ↔
      (∀ x ∈ A.orders, x.clientId ≠ c) ∨
        c = o.clientId ∧ q = o.remainingQuantity ∧
          ∀ x ∈ A.orders, x.clientId = c → x = o := by
  constructor
  · intro hnone
    by_cases hc : ∀ x ∈ A.orders, x.clientId ≠ c
    · exact .inl hc
    have hgone : ∀ y ∈ A.orders, y.clientId = c →
        y.key = o.key ∧ q = o.remainingQuantity := by
      intro y hy hyc
      rw [← OrderInfo.afterCancel_eq_none]
      refine Option.eq_none_iff_forall_ne_some.mpr fun x hyx => ?_
      refine hnone x ((A.mem_withdraw hle).mpr ⟨y, hy, hyx⟩) ?_
      rw [← hyc]
      exact congrArg Prod.fst (OrderInfo.afterCancel_key hyx)
    simp only [not_forall, not_not] at hc
    obtain ⟨y, hy, hyc⟩ := hc
    obtain ⟨hkey, hq⟩ := hgone y hy hyc
    refine .inr ⟨?_, hq, fun x hx hxc => ?_⟩
    · rw [← hyc]
      exact congrArg Prod.fst hkey
    · exact hwf.key_unique hx ho (hgone x hx hxc).1
  · intro hc x hx hxc
    obtain ⟨y, hy, hyx⟩ := (A.mem_withdraw hle).mp hx
    have hyc : y.clientId = c := by
      rw [← hxc]
      exact (congrArg Prod.fst (OrderInfo.afterCancel_key hyx)).symm
    rcases hc with hnone | ⟨-, hq, hall⟩
    · exact hnone y hy hyc
    · obtain rfl := hall y hy hyc
      rw [OrderInfo.afterCancel_eq_none.mpr ⟨rfl, hq⟩] at hyx
      cases hyx

/-- A queue becomes empty exactly if it held the withdrawn order alone. -/
theorem queue_withdraw_eq_nil
    (hwf : A.WF) (ho : o ∈ A.orders) {s : Side} {k : Price} :
    (queueAt OrderInfo.price (A.side s) k).filterMap (o.afterCancel q) ≠ [] ↔
      queueAt OrderInfo.price (A.side s) k ≠ [] ∧
        ¬ (q = o.remainingQuantity ∧
          queueAt OrderInfo.price (A.side s) k = [o]) := by
  have hmem : ∀ x ∈ queueAt OrderInfo.price (A.side s) k, x ∈ A.orders :=
    fun x hx => mem_orders_of_side (List.mem_of_mem_filter hx)
  have hnodup : (queueAt OrderInfo.price (A.side s) k).Nodup :=
    (hwf.side_nodup s).filter _
  generalize queueAt OrderInfo.price (A.side s) k = l at hmem hnodup ⊢
  rw [ne_eq, List.filterMap_eq_nil_iff]
  simp only [OrderInfo.afterCancel_eq_none]
  constructor
  · intro hne
    refine ⟨fun hnil => hne (by simp [hnil]), ?_⟩
    rintro ⟨hq, rfl⟩
    exact hne (by simpa using hq)
  · rintro ⟨hne, hnot⟩ hall
    obtain ⟨y, hy⟩ := List.exists_mem_of_ne_nil _ hne
    refine hnot ⟨(hall y hy).2, ?_⟩
    have heq : ∀ x ∈ l, x = o :=
      fun x hx => hwf.key_unique (hmem x hx) ho (hall x hx).1
    cases l with
    | nil => exact absurd rfl hne
    | cons x l =>
        obtain rfl := heq x List.mem_cons_self
        cases l with
        | nil => rfl
        | cons z l =>
            obtain rfl := heq z (by simp)
            simp at hnodup

end Ladder

/-- A level table that tells which levels are open. -/
class OpenLevels (Lv : Type) [LevelTable Lv] [LawfulLevels Lv] where
  IsOpen : Lv → Side → Price → Prop
  isOpen_iff : ∀ {lv : Lv} {E : Contents}, LawfulLevels.Abs lv E →
    ∀ s k, IsOpen lv s k ↔ (E s k).isSome

/-- A level of the map book is open while its price is in the map. -/
instance : OpenLevels MapLevels where
  IsOpen lv s k := ((lv.side s).find? k).isSome
  isOpen_iff {lv E} h s k := by
    have hholds : MapLevels.Holds lv E := h
    rw [← hholds s k, Option.isSome_map]

/-- A level of the vector book is open while the chain that starts at the best
level comes to it. -/
instance : OpenLevels VectorLevels where
  IsOpen lv s k :=
    ∃ c, Walk (fun p => some (lv.array s p).next) (lv.bestPtr s) c ∧ k ∈ c
  isOpen_iff {lv E} h s k := by
    obtain ⟨c, hc⟩ : ∃ c, VectorLevels.Chain s (lv.array s) (lv.bestPtr s)
      (E s) c := h s
    have hwalk : Walk (fun p => some (lv.array s p).next) (lv.bestPtr s) c := by
      rw [hc.best]
      exact Walk.forward hc.linked fun _ _ => rfl
    rw [← hc.mem k]
    constructor
    · rintro ⟨c', hc', hk⟩
      rwa [hc'.unique hwalk] at hk
    · exact fun hk => ⟨c, hwalk, hk⟩

namespace OrderBook

variable {Lv P : Type} [LevelTable Lv]

/-- The order `o` rests, and is the one that the request names. -/
def Named (b : OrderBook Lv P) (r : MEClientRequest) (o : OrderInfo) : Prop :=
  ∃ s k, b.Rests s k o ∧ o.key = (r.clientId, r.clientOrderId)

/-- The CANCEL or MODIFY request names no resting order of its client, or more
shares than that order has left, or a replacement without id or shares. -/
def MustReject (b : OrderBook Lv P) (r : MEClientRequest) : Prop :=
  (∀ o, ¬ b.Named r o) ∨
  (r.action = .cancel ∧ ∃ o, b.Named r o ∧ o.remainingQuantity < r.qty) ∨
  (r.action = .modify ∧ (r.newClientOrderId = 0 ∨ r.qty = 0))

variable [LawfulLevels Lv] [OpenLevels Lv]

/-- There is a level at this price. -/
def LevelOpen (b : OrderBook Lv P) (s : Side) (k : Price) : Prop :=
  OpenLevels.IsOpen b.levels s k

/-- The book `b'` is the book `b` after `q` shares of the order `o` have been
withdrawn, and nothing else. -/
structure CancelsOnly (b b' : OrderBook Lv P) (o : OrderInfo) (q : Quantity) :
    Prop where
  /-- In every queue the other orders stay as they are and where they are, and
  `o` keeps its place while shares of it are left. -/
  queues : ∀ s k os, b.Fifo s k os →
    b'.Fifo s k (os.filterMap (o.afterCancel q))
  /-- The index follows. -/
  index : ∀ c i x, b'.Indexes c i x ↔
    ∃ y, b.Indexes c i y ∧ o.afterCancel q y = some x
  /-- A client entry goes with the last order of the client. -/
  clients : ∀ c, b'.orders.lookup c = none ↔
    b.orders.lookup c = none ∨ c = o.clientId ∧ q = o.remainingQuantity ∧
      ∀ s k x, b.Rests s k x → x.clientId = c → x = o
  /-- A level goes with its last order. -/
  levels : ∀ s k, b'.LevelOpen s k ↔
    b.LevelOpen s k ∧ ¬ (q = o.remainingQuantity ∧ b.Fifo s k [o])
  counter : b'.nextMarketOrderId = b.nextMarketOrderId

end OrderBook

section Views

variable {Lv P : Type} [LevelTable Lv] [LawfulLevels Lv] [ObjectPool P]
variable {b b' : OrderBook Lv P} {A : Ladder}

namespace Rep

theorem named_iff
    (h : Rep b A) (hwf : A.WF) {r : MEClientRequest} {o : OrderInfo} :
    b.Named r o ↔ A.find? (r.clientId, r.clientOrderId) = some o := by
  constructor
  · rintro ⟨s, k, ho, hkey⟩
    have hmem := Ladder.mem_orders_of_side (h.mem_of_rests ho).1
    rw [← hkey]
    exact Ladder.find?_of_mem hmem fun o' ho' => hwf.key_unique ho' hmem
  · intro hfind
    obtain ⟨ho, hkey⟩ := Ladder.mem_of_find? hfind
    obtain ⟨s, hs⟩ := Ladder.mem_orders.mp ho
    exact ⟨s, o.price, h.rests_iff.mpr ⟨hs, rfl⟩, hkey⟩

theorem mustReject_iff
    (h : Rep b A) (hwf : A.WF) {r : MEClientRequest}
    (hnew : r.action ≠ .new) :
    b.MustReject r ↔ A.TurnsDown r := by
  simp only [OrderBook.MustReject, h.named_iff hwf]
  unfold Ladder.TurnsDown
  cases hfind : A.find? (r.clientId, r.clientOrderId) with
  | none =>
      cases haction : r.action with
      | new => exact absurd haction hnew
      | cancel | modify => simp
  | some o =>
      cases haction : r.action with
      | new => exact absurd haction hnew
      | cancel =>
          by_cases hqty : r.qty = 0 <;> simp [Ladder.canceledQty, hqty]
      | modify => simp

/-- A level is open while orders of the ladder have its price. -/
theorem levelOpen_iff
    [OpenLevels Lv] (h : Rep b A) (s : Side) (k : Price) :
    b.LevelOpen s k ↔ queueAt OrderInfo.price (A.side s) k ≠ [] := by
  obtain ⟨L, hL, hA, -⟩ := h
  have hopen : b.LevelOpen s k ↔ (L.contents s k).isSome :=
    OpenLevels.isOpen_iff hL.levels s k
  rw [hopen, ← Option.ne_none_iff_isSome, Located.contents, ne_eq, ne_eq,
    not_iff_not, Located.ends_eq_none, hA s, Located.ptrs, queueAt, queueAt,
    List.filter_map, List.map_eq_nil_iff, List.map_eq_nil_iff]
  rfl

/-- **What a cancel does to a book in memory.** -/
theorem cancelsOnly
    [OpenLevels Lv] (h : Rep b A) (hwf : A.WF) {o : OrderInfo} {q : Quantity}
    (ho : o ∈ A.orders) (hle : q ≤ o.remainingQuantity)
    (h' : Rep b' (A.withdraw o q)) :
    b.CancelsOnly b' o q where
  queues s k os hos := by
    obtain ⟨l, ⟨level, hfetch, -⟩, -⟩ := id hos
    rw [h.eq_queueAt hos, ← A.queueAt_withdraw hle]
    exact h'.fifo s (LawfulLevels.valid_of_fetch hfetch)
  index c i x := by
    simp only [h.indexes_iff, h'.indexes_iff]
    exact Ladder.find?_withdraw hwf ho hle
  clients c := by
    rw [h.lookup_eq_none_iff, h'.lookup_eq_none_iff,
      Ladder.client_withdraw hwf ho hle]
    refine or_congr_right (and_congr_right fun _ => and_congr_right fun _ => ?_)
    constructor
    · exact fun hall s k x hx => hall x
        (Ladder.mem_orders_of_side (h.mem_of_rests hx).1)
    · intro hall x hx
      obtain ⟨s, hs⟩ := Ladder.mem_orders.mp hx
      exact hall s x.price x (h.rests_iff.mpr ⟨hs, rfl⟩)
  levels s k := by
    rw [h.levelOpen_iff, h'.levelOpen_iff, A.queueAt_withdraw hle,
      Ladder.queue_withdraw_eq_nil hwf ho]
    refine and_congr_right fun hne => not_congr (and_congr_right fun _ => ?_)
    constructor
    · exact fun hq => hq ▸ h.fifo_of_ne_nil hne
    · exact fun hos => (h.eq_queueAt hos).symm
  counter := by
    rw [h.next, h'.next, Ladder.withdraw]
    split_ifs <;> rfl

end Rep

end Views

/-- The request has been answered with one CANCEL_REJECTED response, and
nothing else has happened. -/
def Refused {Lv P : Type} (b : OrderBook Lv P) (ch : Channel)
    (x : Except Fault (OrderBook Lv P × Channel)) : Prop :=
  ∃ response, response.status = .cancelRejected ∧
    x = .ok (b, ch.sendClientResponse response)

namespace Rep

variable {Lv P : Type} [LevelTable Lv] [LawfulLevels Lv] [ObjectPool P]
variable {b : OrderBook Lv P} {A : Ladder}

theorem cancelWith_refused
    (h : Rep b A) (leaves : Quantity → Quantity → Quantity) (ch : Channel)
    {r : MEClientRequest} (haction : r.action = .cancel)
    (hdown : A.TurnsDown r) :
    Refused b ch (b.cancelWith leaves ch r.tickerId r.clientId
      r.clientOrderId r.qty r.orderToken) := by
  simp only [Ladder.TurnsDown, haction] at hdown
  rcases h.lookup_cases r.clientId r.clientOrderId with
    ⟨hc, -⟩ | ⟨m, hc, hi, -⟩ | ⟨m, p, mo, hc, hi, -, hmo, hfind⟩
  · exact ⟨rejectedResponse r.tickerId r.clientId r.clientOrderId
      r.orderToken, rfl, by simp only [OrderBook.cancelWith, hc]⟩
  · exact ⟨rejectedResponse r.tickerId r.clientId r.clientOrderId
      r.orderToken, rfl, by simp only [OrderBook.cancelWith, hc, hi]⟩
  · have hqty := hdown _ hfind
    unfold Ladder.canceledQty at hqty
    refine ⟨excessiveResponse r.tickerId r.clientId r.clientOrderId mo.info,
      rfl, ?_⟩
    simp only [OrderBook.cancelWith, hc, hi, Heap.read_ok hmo, ok_bind,
      gt_iff_lt, if_pos hqty]

theorem replaceWith_refused
    (h : Rep b A)
    (k : OrderArgs → OrderBook Lv P × Channel × Quantity →
      Except Fault (OrderBook Lv P × Channel))
    (ch : Channel) {r : MEClientRequest} (haction : r.action = .modify)
    (hdown : A.TurnsDown r) :
    Refused b ch (b.replaceWith k ch r.tickerId r.clientId r.clientOrderId
      r.newClientOrderId r.type r.price r.qty r.orderToken) := by
  simp only [Ladder.TurnsDown, haction] at hdown
  rcases h.lookup_cases r.clientId r.clientOrderId with
    ⟨hc, -⟩ | ⟨m, hc, hi, -⟩ | ⟨m, p, mo, hc, hi, -, -, hfind⟩
  · exact ⟨rejectedResponse r.tickerId r.clientId r.clientOrderId
      r.orderToken, rfl, by simp only [OrderBook.replaceWith, hc]⟩
  · exact ⟨rejectedResponse r.tickerId r.clientId r.clientOrderId
      r.orderToken, rfl, by simp only [OrderBook.replaceWith, hc, hi]⟩
  · refine ⟨rejectedResponse r.tickerId r.clientId r.clientOrderId
      r.orderToken, rfl, ?_⟩
    simp only [OrderBook.replaceWith, hc, hi, if_pos (hdown _ hfind)]

end Rep

section Outcomes

variable {Lv P : Type} [LevelTable Lv] [LawfulLevels Lv] [OpenLevels Lv]

/-- What a CANCEL or MODIFY request does to a book, where it is rejected or
cancels shares. -/
structure Exact (b : OrderBook Lv P) (ch : Channel) (r : MEClientRequest)
    (b' : OrderBook Lv P) (ch' : Channel) : Prop where
  /-- It is rejected exactly if it has to be. -/
  rejected : (∃ sent x, ch'.outputs = ch.outputs ++ sent ∧
    .response x ∈ sent ∧ x.status = .cancelRejected) ↔ b.MustReject r
  /-- A rejected request changes nothing, and is answered once. -/
  atomic : b.MustReject r → b' = b ∧ ∃ x, x.status = .cancelRejected ∧
    ch' = ch.sendClientResponse x
  /-- An accepted cancel takes its shares from the order it names, and is
  reported once to the client and once to the public. -/
  canceled : r.action = .cancel → ¬ b.MustReject r → ∃ o q leaves,
    b.Named r o ∧ (q = if r.qty = 0 then o.remainingQuantity else r.qty) ∧
      q ≤ o.remainingQuantity ∧ b.CancelsOnly b' o q ∧
      ch' = (ch.sendMarketUpdate (cancelUpdate r.tickerId o.marketOrderId
        o.side o.price q)).sendClientResponse
          (canceledResponse r.tickerId o.clientId o.clientOrderId o leaves)

namespace Ladder

/-- A rejection is reported only for a request that is turned down. -/
theorem turnsDown_of_rejects
    {A : Ladder} {n : OrderId} {r : MEClientRequest} {e : Event}
    (he : e ∈ (A.step n r).events) (hrejects : e.Rejects) :
    A.TurnsDown r := by
  rcases A.step_shapes n r with
    ⟨e', hdown, -⟩ | ⟨o, -, -, -, heq⟩ | ⟨-, heq⟩ | ⟨old, -, -, -, heq⟩
  · exact hdown
  · rw [heq] at he
    obtain rfl := List.mem_singleton.mp he
    exact hrejects.elim
  · rw [heq] at he
    rcases List.mem_cons.mp he with rfl | he
    · exact hrejects.elim
    · exact absurd hrejects (enter_events_identity he).1
  · rw [heq] at he
    rcases List.mem_cons.mp he with rfl | he
    · exact hrejects.elim
    · exact absurd hrejects (enter_events_identity he).1

end Ladder

variable [ObjectPool P] [BookImpl Lv] {b : OrderBook Lv P} {A : Ladder}

/-- A refused request is handled exactly. -/
theorem Refused.exact
    (h : Rep b A) (hwf : A.WF) {ch : Channel} {r : MEClientRequest}
    (hnew : r.action ≠ .new) (hdown : A.TurnsDown r)
    (hrefused : Refused b ch (b.processRequest ch r)) :
    SucceedsWith (b.processRequest ch r) fun s => Exact b ch r s.1 s.2 := by
  have hmust := (h.mustReject_iff hwf hnew).mpr hdown
  obtain ⟨x, hx, hresult⟩ := hrefused
  refine .inr ⟨_, hresult, ⟨fun _ => hmust, fun _ => ?_⟩,
    fun _ => ⟨rfl, x, hx, rfl⟩, fun _ hnot => absurd hmust hnot⟩
  exact ⟨[.response x], x, rfl, List.mem_singleton_self _, hx⟩

/-- **Cancels are exact and rejections are atomic**, for every implementation
that performs requests as the ladder does and refuses them at once. -/
theorem Rep.exact
    {d : Dialect} (h : Rep b A) (hwf : A.WF) {ch : Channel}
    {r : MEClientRequest} (hnew : r.action ≠ .new)
    (hrefuse : A.TurnsDown r → Refused b ch (b.processRequest ch r))
    (hperf : ¬ A.TurnsDown r →
      Performs d ch (b.processRequest ch r) (A.step ch.matchIds r)) :
    SucceedsWith (b.processRequest ch r) fun s => Exact b ch r s.1 s.2 := by
  by_cases hdown : A.TurnsDown r
  · exact (hrefuse hdown).exact h hwf hnew hdown
  have hmust : ¬ b.MustReject r :=
    fun hmust => hdown ((h.mustReject_iff hwf hnew).mp hmust)
  rcases hperf hdown with hfull | ⟨b', hb', hrep⟩
  · exact .inl hfull
  refine .inr ⟨_, hb', ⟨?_, fun hmust' => absurd hmust' hmust⟩,
    fun hmust' => absurd hmust' hmust, fun haction _ => ?_⟩
  · rintro ⟨sent, x, hsent, hx, hstatus⟩
    obtain rfl := List.append_cancel_left hsent
    obtain ⟨e, he, hxe⟩ := List.mem_flatMap.mp hx
    have hresponse : x ∈ e.responses d :=
      List.mem_filterMap.mpr ⟨_, hxe, rfl⟩
    exact absurd (Ladder.turnsDown_of_rejects he
      ((Event.rejects_of_cancelRejected hresponse).mp hstatus)) hdown
  · rcases A.step_shapes ch.matchIds r with
      ⟨e, hdown', -⟩ | ⟨o, -, hfind, hle, heq⟩ | ⟨haction', -⟩ |
        ⟨old, haction', -⟩
    · exact absurd hdown' hdown
    · rw [heq] at hrep ⊢
      refine ⟨o, Ladder.canceledQty r o,
        d.cancelLeaves (Ladder.canceledQty r o)
          (o.remainingQuantity - Ladder.canceledQty r o),
        (h.named_iff hwf).mpr hfind, rfl, hle,
        h.cancelsOnly hwf (Ladder.mem_of_find? hfind).1 hle hrep, ?_⟩
      simp [Channel.report, Channel.sendMarketUpdate,
        Channel.sendClientResponse, Event.outputs]
    · exact absurd (haction.symm.trans haction') (by decide)
    · exact absurd (haction.symm.trans haction') (by decide)

end Outcomes

namespace Ladder

/-- A request that brings a new key is new to the ladder of the run. -/
theorem run_fresh
    (n : OrderId) {rs : List MEClientRequest} {r : MEClientRequest}
    (h : FreshKeys (rs ++ [r])) :
    (run n rs).ladder.Fresh r := by
  have hinv := foldl_invariant (g := StepResult.next)
    (fun t l => t.ladder.WF ∧ t.ladder.Admits (l ++ [r])) ?_
    (t := StepResult.start n) (l := rs) ⟨WF.empty, Admits.empty h⟩
  · exact hinv.2.head
  · rintro t r' l ⟨hwf, hadm⟩
    exact ⟨step_wf hwf _ hadm.head, hadm.step hwf _⟩

/-- An accepted CANCEL or MODIFY brings no key that the ladder of the run
has. -/
theorem run_fresh_of_accepted
    (n : OrderId) {rs : List MEClientRequest} {r : MEClientRequest}
    (hnew : r.action ≠ .new)
    (h : r.newClientOrderId ≠ 0 → FreshKeys (rs ++ [r]))
    (hdown : ¬ (run n rs).ladder.TurnsDown r) :
    (run n rs).ladder.Fresh r := by
  cases haction : r.action with
  | new => exact absurd haction hnew
  | cancel => simp [Fresh, MEClientRequest.newKey, haction]
  | modify =>
      simp only [TurnsDown, haction, not_forall, not_or] at hdown
      obtain ⟨o, -, hid, -⟩ := hdown
      exact run_fresh n (h hid)

end Ladder

/-- **Cancels are exact and rejections are atomic** in every book that a run
leads to, map or vector.  A replacement without an id need not be new. -/
theorem cancels_exact_rejections_atomic
    (P : Type) [ObjectPool P] (size : Nat) (n : OrderId)
    {rs : List MEClientRequest} (hfresh : FreshKeys rs)
    {r : MEClientRequest} (hnew : r.action ≠ .new)
    (hr : r.newClientOrderId ≠ 0 → FreshKeys (rs ++ [r])) :
    (∀ b ch, OrderBook.run MapLevels P size n rs = .ok (b, ch) →
      SucceedsWith (b.processRequest ch r) fun s => Exact b ch r s.1 s.2) ∧
    (PricesInRange (rs ++ [r]) →
      ∀ b ch, OrderBook.run VectorLevels P size n rs = .ok (b, ch) →
        SucceedsWith (b.processRequest ch r)
          fun s => Exact b ch r s.1 s.2) := by
  have hwf := Ladder.run_wf n hfresh
  have hfresh' := Ladder.run_fresh_of_accepted n hnew hr
  constructor
  · intro b ch hrun
    obtain ⟨hrep, -⟩ := (MapBook.run_refines P size n hfresh).of_ok hrun
    refine hrep.exact hwf hnew (fun hdown => ?_) fun hdown =>
      hrep.processRequest hwf ch (fun _ => trivial) (hfresh' hdown)
    cases haction : r.action with
    | new => exact absurd haction hnew
    | cancel =>
        simp only [OrderBook.processRequest, haction, BookImpl.cancelOrder,
          MapBook.cancelOrder_eq]
        exact hrep.cancelWith_refused _ ch haction hdown
    | modify =>
        simp only [OrderBook.processRequest, haction, BookImpl.replaceOrder,
          MapBook.replaceOrder_eq]
        exact hrep.replaceWith_refused _ ch haction hdown
  · intro hprice b ch hrun
    have hprices : PricesInRange rs :=
      fun r' hr' => hprice r' (List.mem_append_left _ hr')
    obtain ⟨hrep, -⟩ :=
      (VectorBook.run_refines P size n hfresh hprices).of_ok hrun
    refine hrep.exact hwf hnew (fun hdown => ?_) fun hdown =>
      hrep.processRequest hwf ch (hprice r (by simp)) (hfresh' hdown)
    cases haction : r.action with
    | new => exact absurd haction hnew
    | cancel =>
        simp only [OrderBook.processRequest, haction, BookImpl.cancelOrder,
          VectorBook.cancelOrder_eq]
        exact hrep.cancelWith_refused _ ch haction hdown
    | modify =>
        simp only [OrderBook.processRequest, haction, BookImpl.replaceOrder,
          VectorBook.replaceOrder_eq]
        exact hrep.replaceWith_refused _ ch haction hdown

/-- Two of the five shares of an ask are withdrawn from either book. -/
theorem cancels_exact_rejections_atomic_example :
    (∃ s, OrderBook.run MapLevels ScanPool 4 1
        [.make .new 1 0 1 .goodTillCancel .sell 100 5] = .ok s ∧
      SucceedsWith
        (s.1.processRequest s.2
          (.make .cancel 1 0 1 .goodTillCancel .sell 100 2))
        fun s' => Exact s.1 s.2
          (.make .cancel 1 0 1 .goodTillCancel .sell 100 2) s'.1 s'.2) ∧
    ∃ s, OrderBook.run VectorLevels ScanPool 4 1
        [.make .new 1 0 1 .goodTillCancel .sell 100 5] = .ok s ∧
      SucceedsWith
        (s.1.processRequest s.2
          (.make .cancel 1 0 1 .goodTillCancel .sell 100 2))
        fun s' => Exact s.1 s.2
          (.make .cancel 1 0 1 .goodTillCancel .sell 100 2) s'.1 s'.2 := by
  have hfresh : FreshKeys [.make .new 1 0 1 .goodTillCancel .sell 100 5] := by
    decide
  obtain ⟨hmap, hvector⟩ := cancels_exact_rejections_atomic ScanPool 4 1 hfresh
    (show (MEClientRequest.make .cancel 1 0 1 .goodTillCancel .sell 100
      2).action ≠ .new by decide) (fun h => absurd rfl h)
  exact ⟨⟨_, rfl, hmap _ _ rfl⟩, _, rfl, hvector (by decide) _ _ rfl⟩

end NanoExchange
