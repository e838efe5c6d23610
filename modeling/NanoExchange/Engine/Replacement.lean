import NanoExchange.Engine.Cancels
import NanoExchange.Engine.Deeds

/-!
# A replacement is a cancel and a new order

`replaceOrder` of the map book takes the old order out and enters the new one
with text of its own.  The two paths are compared step by step: they leave the
same book, pool and addresses included, and draw the same match ids.

They differ in what they write to the old order before it is destroyed, in when
the id counter is advanced, and in the messages around the sweep.  None of it
matters to the sweep, which never reads the channel (`matchOrder_oblivious`).
-/

namespace NanoExchange

open Lib

namespace Heap

/-- The two heaps differ at most in what the order at `p` is. -/
structure SameOff (p : Ptr) (h h' : Heap) : Prop where
  off : ∀ q, q ≠ p → h q = h' q
  left : ∃ o, h p = some o
  right : ∃ o, h' p = some o

namespace SameOff

variable {p : Ptr} {h h' : Heap}

/-- The order at `p` is overwritten. -/
theorem write {o : MEOrder} (hread : h p = some o) (o' : MEOrder) :
    SameOff p (h.write p o') h where
  off _ hq := Function.update_of_ne hq _ _
  left := ⟨o', Function.update_self p _ h⟩
  right := ⟨o, hread⟩

/-- A link of an order is changed in both heaps. -/
theorem relink
    {σ : Type} (hs : SameOff p h h') (q : Ptr) (f : MEOrder → MEOrder)
    (x : σ) :
    Alike (fun s s' : Heap × σ => SameOff p s.1 s'.1 ∧ s.2 = s'.2)
      (h.read q >>= fun o => .ok (h.write q (f o), x))
      (h'.read q >>= fun o => .ok (h'.write q (f o), x)) := by
  by_cases hq : q = p
  · subst hq
    obtain ⟨o, ho⟩ := hs.left
    obtain ⟨o', ho'⟩ := hs.right
    simp only [read, ho, ho', ok_bind]
    refine .ok ⟨⟨fun r hr => ?_, ?_, ?_⟩, rfl⟩
    · simp only [Heap.write, Function.update_of_ne hr]
      exact hs.off r hr
    · exact ⟨f o, Function.update_self q _ h⟩
    · exact ⟨f o', Function.update_self q _ h'⟩
  · simp only [read, ← hs.off q hq]
    cases h q with
    | none => exact .error _
    | some o =>
        have hp : p ≠ q := fun e => hq e.symm
        refine .ok ⟨⟨fun r hr => ?_, ?_, ?_⟩, rfl⟩
        · by_cases hrq : r = q
          · subst hrq
            simp only [Heap.write, Function.update_self]
          · simp only [Heap.write, Function.update_of_ne hrq]
            exact hs.off r hr
        · simpa only [Heap.write, Function.update_of_ne hp] using hs.left
        · simpa only [Heap.write, Function.update_of_ne hp] using hs.right

theorem unlinkPrev
    (hs : SameOff p h h') (level : PriceLevel) {o o' : MEOrder}
    (hprev : o.prev = o'.prev) (hnext : o.next = o'.next) :
    Alike (fun s s' => SameOff p s.1 s'.1 ∧ s.2 = s'.2)
      (OrderBook.unlinkPrev h level o) (OrderBook.unlinkPrev h' level o') := by
  unfold OrderBook.unlinkPrev
  rw [hprev, hnext]
  cases o'.prev with
  | none => exact .ok ⟨hs, rfl⟩
  | some q => exact hs.relink q _ level

theorem unlinkNext
    (hs : SameOff p h h') (level : PriceLevel) {o o' : MEOrder}
    (hprev : o.prev = o'.prev) (hnext : o.next = o'.next) :
    Alike (fun s s' => SameOff p s.1 s'.1 ∧ s.2 = s'.2)
      (OrderBook.unlinkNext h level o) (OrderBook.unlinkNext h' level o') := by
  unfold OrderBook.unlinkNext
  rw [hprev, hnext]
  cases o'.next with
  | none => exact .ok ⟨hs, rfl⟩
  | some q => exact hs.relink q _ level

/-- The two heaps are the same when the order is destroyed. -/
theorem free (hs : SameOff p h h') : h.free p = h'.free p := by
  funext q
  by_cases hq : q = p
  · subst hq
    simp only [Heap.free, Function.update_self]
  · simp only [Heap.free, Function.update_of_ne hq]
    exact hs.off q hq

end SameOff

end Heap

namespace OrderBook

variable {Lv P : Type} [LevelTable Lv] [ObjectPool P]

/-- What is left of an order does not matter to its removal. -/
theorem remove_write
    (b : OrderBook Lv P) {p : Ptr} {order : MEOrder}
    (hread : b.heap p = some order) (q : Quantity) :
    remove { b with
        heap := b.heap.write p
          { order with info := order.info.withRemaining q } } p =
      b.remove p := by
  have hread' : b.heap.write p
      { order with info := order.info.withRemaining q } p =
        some { order with info := order.info.withRemaining q } :=
    Function.update_self p _ _
  apply Alike.eq
  simp only [remove, Heap.read_ok hread, Heap.read_ok hread', ok_bind,
    OrderInfo.withRemaining_side, OrderInfo.withRemaining_price]
  refine Alike.after _ fun level => ?_
  have hs := Heap.SameOff.write hread
    { order with info := order.info.withRemaining q }
  refine (hs.unlinkPrev level rfl rfl).bind ?_
  rintro ⟨h₁, level₁⟩ ⟨h₁', _⟩ ⟨hs₁, rfl⟩
  refine (hs₁.unlinkNext level₁ rfl rfl).bind ?_
  rintro ⟨h₂, level₂⟩ ⟨h₂', _⟩ ⟨hs₂, rfl⟩
  refine .ok ?_
  simp only [hs₂.free]
  rfl

/-- The id counter is not read by a removal, which leaves it alone. -/
theorem remove_bump (b : OrderBook Lv P) (p : Ptr) :
    Alike (fun b₁ b₂ => b₁ = b₂.bumpMarketOrderId ∧
        b₂.nextMarketOrderId = b.nextMarketOrderId)
      (b.bumpMarketOrderId.remove p) (b.remove p) := by
  simp only [remove, bumpMarketOrderId]
  refine Alike.after _ fun order => ?_
  refine Alike.after _ fun level => ?_
  refine Alike.after _ fun s₁ => ?_
  refine Alike.after _ fun s₂ => ?_
  exact .ok ⟨rfl, rfl⟩

end OrderBook

/-- A message about fills, or about the killed remainder of the order that
client `c` entered as `i`. -/
def Output.OfEntry (c : ClientId) (i : OrderId) : Output → Prop
  | .response r =>
      r.status = .executed ∨
        r.status = .canceled ∧ r.clientId = c ∧ r.clientOrderId = i
  | .update u => u.type = .trade

instance (c : ClientId) (i : OrderId) : DecidablePred (Output.OfEntry c i)
  | .response r =>
      inferInstanceAs (Decidable (r.status = .executed ∨
        r.status = .canceled ∧ r.clientId = c ∧ r.clientOrderId = i))
  | .update u => inferInstanceAs (Decidable (u.type = .trade))

namespace Channel

/-- The channels have drawn the same match ids, and have been sent the same
messages of the kind `Q`. -/
structure SameOf (Q : Output → Prop) [DecidablePred Q] (ch ch' : Channel) :
    Prop where
  matchIds : ch.matchIds = ch'.matchIds
  outputs : ch.outputs.filter Q = ch'.outputs.filter Q

namespace SameOf

variable {Q : Output → Prop} [DecidablePred Q] {ch ch' : Channel}

theorem refl (ch : Channel) : SameOf Q ch ch :=
  ⟨rfl, rfl⟩

/-- Both do the same. -/
theorem perform (h : SameOf Q ch ch') (d : Deed) :
    SameOf Q (ch.perform d) (ch'.perform d) := by
  cases d with
  | send o =>
      refine ⟨h.matchIds, ?_⟩
      simp only [Channel.perform, List.filter_append, h.outputs]
  | fill drafts =>
      refine ⟨?_, ?_⟩
      · simp only [Channel.perform, h.matchIds]
      · simp only [Channel.perform, List.filter_append, h.outputs, h.matchIds]

theorem performs (h : SameOf Q ch ch') (ds : List Deed) :
    SameOf Q (ds.foldl Channel.perform ch) (ds.foldl Channel.perform ch') := by
  induction ds generalizing ch ch' with
  | nil => exact h
  | cons d ds ih => exact ih (h.perform d)

theorem sendClientResponse (h : SameOf Q ch ch') (r : MEClientResponse) :
    SameOf Q (ch.sendClientResponse r) (ch'.sendClientResponse r) :=
  h.perform (.send (.response r))

/-- One of them sends a message of another kind. -/
theorem left
    (h : SameOf Q ch ch') {o : Output} (ho : ¬ Q o) :
    SameOf Q (ch.perform (.send o)) ch' := by
  refine ⟨h.matchIds, ?_⟩
  simp [Channel.perform, List.filter_append, h.outputs, ho]

theorem symm (h : SameOf Q ch ch') : SameOf Q ch' ch :=
  ⟨h.matchIds.symm, h.outputs.symm⟩

theorem right
    (h : SameOf Q ch ch') {o : Output} (ho : ¬ Q o) :
    SameOf Q ch (ch'.perform (.send o)) :=
  (h.symm.left ho).symm

/-- A program that does not read the channel keeps the channels the same, and
does not tell them apart. -/
theorem oblivious
    {α β : Type} {t : TickerId} {put : α → Channel → β}
    {f : Channel → Except Fault β} (h : SameOf Q ch ch')
    (hf : ObliviousOf t put f) :
    Alike (fun y y' => ∃ a ch₁ ch₁', y = put a ch₁ ∧ y' = put a ch₁' ∧
      SameOf Q ch₁ ch₁') (f ch) (f ch') := by
  rcases hf with ⟨e, he⟩ | ⟨a, ds, hok⟩
  · rw [he, he]
    exact .error e
  · have hds : ∀ c : Channel,
        ds.foldl (fun c d => c.perform d.1) c =
          (ds.map Subtype.val).foldl Channel.perform c := fun c =>
      List.foldl_map.symm
    rw [hok, hok, hds, hds]
    exact .ok ⟨a, _, _, rfl, rfl, h.performs _⟩

end SameOf

end Channel

section Paths

variable {P : Type} [ObjectPool P]

/-- What becomes of the remainder is the same in the two paths. -/
theorem MapBook.rest_alike
    (a : OrderArgs) (b : MapBook P) {ch ch' : Channel} (q : Quantity)
    {c : ClientId} {i : OrderId} (h : ch.SameOf (Output.OfEntry c i) ch') :
    Alike (fun s s' => s.1 = s'.1 ∧ s.2.SameOf (Output.OfEntry c i) s'.2)
      (MapBook.rest a (b, ch, q))
      (if q > 0 then
        match a.orderType with
        | .goodTillCancel => do
            let b ← b.insert { a with initialQuantity := q }
            .ok (b, ch'.sendMarketUpdate (addUpdate a q))
        | .fillAndKill =>
            .ok (b, ch'.sendClientResponse (killedResponse a q))
      else .ok (b, ch')) := by
  unfold MapBook.rest
  dsimp only
  by_cases hq : q = 0
  · subst hq
    rw [if_pos rfl, if_neg (Nat.lt_irrefl 0)]
    exact .ok ⟨rfl, h⟩
  · rw [if_neg hq, if_pos (Nat.pos_of_ne_zero hq)]
    cases a.orderType with
    | goodTillCancel =>
        refine Alike.after _ fun b₁ => ?_
        exact .ok ⟨rfl, h.right (o := .update _) (by simp [Output.OfEntry,
          addUpdate])⟩
    | fillAndKill =>
        refine .ok ⟨rfl, ?_⟩
        exact (h.sendClientResponse (killedResponse a q)).left
          (o := .update _) (by simp [Output.OfEntry, cancelUpdate])

/-- The messages before the two sweeps are of no interest. -/
theorem Channel.sameOf_before_sweep
    (ch : Channel) (a : OrderArgs) {i : OrderId} (o : OrderInfo)
    (q : Quantity) (hi : i ≠ a.clientOrderId) :
    Channel.SameOf (Output.OfEntry a.clientId a.clientOrderId)
      ((ch.sendClientResponse (modifiedResponse a)).sendMarketUpdate
        (modifyUpdate a o.marketOrderId))
      (((ch.sendMarketUpdate (cancelUpdate a.tickerId o.marketOrderId o.side
        o.price q)).sendClientResponse
          (canceledResponse a.tickerId a.clientId i (o.withRemaining 0)
            q)).sendClientResponse (acceptedResponse a)) := by
  have hmodified : ¬ Output.OfEntry a.clientId a.clientOrderId
      (.response (modifiedResponse a)) := by
    simp [Output.OfEntry, modifiedResponse]
  have hmodify : ¬ Output.OfEntry a.clientId a.clientOrderId
      (.update (modifyUpdate a o.marketOrderId)) := by
    simp [Output.OfEntry, modifyUpdate]
  have hcancel : ¬ Output.OfEntry a.clientId a.clientOrderId
      (.update (cancelUpdate a.tickerId o.marketOrderId o.side o.price q)) := by
    simp [Output.OfEntry, cancelUpdate]
  have hcanceled : ¬ Output.OfEntry a.clientId a.clientOrderId
      (.response (canceledResponse a.tickerId a.clientId i
        (o.withRemaining 0) q)) := by
    simp [Output.OfEntry, canceledResponse, hi]
  have haccepted : ¬ Output.OfEntry a.clientId a.clientOrderId
      (.response (acceptedResponse a)) := by
    simp [Output.OfEntry, acceptedResponse]
  exact ((((Channel.SameOf.refl ch).left hmodified).left hmodify).right
    hcancel).right hcanceled |>.right haccepted

/-- **The two paths of the map book**, from a resting order of the client that
is found under its id. -/
theorem MapBook.replaceOrder_alike
    (b : MapBook P) (ch : Channel) (t : TickerId) {c : ClientId}
    {i j : OrderId} (type : OrderType) (price : Price) {qty : Quantity}
    (token token' : OrderToken) {client : Finmap fun _ : OrderId => Ptr}
    {p : Ptr} {order : MEOrder} (hc : b.orders.lookup c = some client)
    (hi : client.lookup i = some p) (hread : b.heap p = some order)
    (hj : j ≠ 0) (hqty : qty ≠ 0) (hij : i ≠ j) :
    Alike (fun s s' => s.1 = s'.1 ∧ s.2.SameOf (Output.OfEntry c j) s'.2)
      (b.replaceOrder ch t c i j type price qty token)
      (b.cancelOrder ch t c i 0 token' >>= fun s =>
        s.1.addOrder s.2 t c j type price qty order.info.side token) := by
  have hgood : ¬ (j = 0 ∨ qty = 0) := by simp [hj, hqty]
  rw [MapBook.replaceOrder_eq, MapBook.cancelOrder_eq]
  simp only [OrderBook.replaceWith, OrderBook.cancelWith, hc, hi,
    Heap.read_ok hread, ok_bind, if_neg hgood, if_true,
    if_neg (Nat.lt_irrefl order.info.remainingQuantity),
    subQuantity_of_le (Nat.le_refl order.info.remainingQuantity),
    Nat.sub_self, b.remove_write hread 0, bind_assoc]
  refine (b.remove_bump p).bind ?_
  rintro _ b₁ ⟨rfl, hnext⟩
  simp only [OrderBook.addOrder, hnext]
  have hstart := ch.sameOf_before_sweep
    { tickerId := t, clientId := c, clientOrderId := j,
      marketOrderId := b.nextMarketOrderId, orderType := type, price,
      initialQuantity := qty, side := order.info.side, orderToken := token }
    order.info order.info.remainingQuantity hij
  refine (hstart.oblivious (OrderBook.matchOrder_oblivious _ _)).bind ?_
  rintro _ _ ⟨⟨b₂, q⟩, ch₁, ch₁', rfl, rfl, hch⟩
  exact MapBook.rest_alike _ b₂ q hch

/-- **A replacement is a cancel of the old order and a new order.**  In every
book that a run has led to, for every resting order and every new id of its
client: either both paths find the pool out of objects, or both lead to the
same book and the same match counter, and have sent the same EXECUTED
responses, TRADE updates and CANCELED responses for the new order. -/
theorem replace_is_cancel_then_new
    (P : Type) [ObjectPool P] (size : Nat) (n : OrderId)
    {rs : List MEClientRequest} (hfresh : FreshKeys rs) {b : MapBook P}
    {ch : Channel} (hrun : OrderBook.run MapLevels P size n rs = .ok (b, ch))
    {s : Side} {k : Price} {o : OrderInfo} (ho : b.Rests s k o) (t : TickerId)
    {j : OrderId} (hj : j ≠ 0)
    (hnew : (o.clientId, j) ∉ rs.filterMap MEClientRequest.newKey)
    (type : OrderType) (price : Price) {qty : Quantity} (hqty : qty ≠ 0)
    (token token' : OrderToken) :
    let replaced := b.replaceOrder ch t o.clientId o.clientOrderId j type price
      qty token
    let entered := b.cancelOrder ch t o.clientId o.clientOrderId 0 token' >>=
      fun s => s.1.addOrder s.2 t o.clientId j type price qty o.side token
    (replaced = .error .poolExhausted ∧ entered = .error .poolExhausted) ∨
      ∃ b' ch₁ ch₂, replaced = .ok (b', ch₁) ∧ entered = .ok (b', ch₂) ∧
        ch₁.matchIds = ch₂.matchIds ∧
        ch₁.outputs.filter (Output.OfEntry o.clientId j) =
          ch₂.outputs.filter (Output.OfEntry o.clientId j) := by
  intro replaced entered
  let r : MEClientRequest :=
    { clientId := o.clientId, clientOrderId := o.clientOrderId,
      newClientOrderId := j, price, tickerId := t, qty, action := .modify,
      type, side := o.side, orderToken := token }
  have hfresh' : FreshKeys (rs ++ [r]) := by
    unfold FreshKeys
    rw [List.filterMap_append]
    exact List.nodup_append'.mpr ⟨hfresh, List.nodup_singleton _,
      List.disjoint_singleton.mpr hnew⟩
  have hunused := Ladder.run_fresh n hfresh'
  have hwf := Ladder.run_wf n hfresh
  obtain ⟨hrep, -⟩ := (MapBook.run_refines P size n hfresh).of_ok hrun
  have hmem := Ladder.mem_orders_of_side (hrep.mem_of_rests ho).1
  have hfind := Ladder.find?_of_mem hmem fun o' ho' => hwf.key_unique ho' hmem
  have hij : o.clientOrderId ≠ j := fun e =>
    hunused (o.clientId, j) rfl o hmem (by rw [OrderInfo.key, e])
  rcases hrep.lookup_cases o.clientId o.clientOrderId with
    ⟨-, hnone⟩ | ⟨-, -, -, hnone⟩ | ⟨client, p, order, hc, hi, -, hread, hsome⟩
  · cases hfind.symm.trans hnone
  · cases hfind.symm.trans hnone
  · obtain rfl : o = order.info := Option.some.inj (hfind.symm.trans hsome)
    have halike : Alike _ replaced entered := b.replaceOrder_alike ch t type
      price token token' hc hi hread hj hqty hij
    -- no path faults but for an empty pool, since the first one does not
    have hperforms : Performs Dialect.map ch replaced _ :=
      hrep.processRequest hwf ch (r := r) (fun _ => trivial) hunused
    generalize replaced = x at halike hperforms ⊢
    generalize entered = y at halike ⊢
    cases halike with
    | error e =>
        rcases hperforms with hfull | ⟨s, hs, -⟩
        · obtain rfl := Except.error.inj hfull
          exact .inl ⟨rfl, rfl⟩
        · cases hs
    | @ok s s' h =>
        obtain ⟨b₁, ch₁⟩ := s
        obtain ⟨b₂, ch₂⟩ := s'
        obtain ⟨rfl, hch⟩ := h
        exact .inr ⟨b₁, ch₁, ch₂, rfl, rfl, hch.matchIds, hch.outputs⟩

section Quoted

/-- Two asks and a bid below them. -/
def quotedBook : List MEClientRequest :=
  [.make .new 1 0 1 .goodTillCancel .sell 100 5,
    .make .new 1 0 2 .goodTillCancel .sell 101 5,
    .make .new 2 0 1 .goodTillCancel .buy 99 5]

/-- The bid. -/
def quotedBid : OrderInfo where
  clientId := 2
  clientOrderId := 1
  marketOrderId := 3
  price := 99
  tickerId := 0
  initialQuantity := 5
  remainingQuantity := 5
  orderType := .goodTillCancel
  side := .buy
  orderToken := OrderToken.zero

/-- The bid is replaced by one that takes the first ask, and whose remainder is
killed. -/
theorem replace_is_cancel_then_new_example :
    ∃ (b : MapBook ScanPool) (ch : Channel),
      OrderBook.run MapLevels ScanPool 4 1 quotedBook = .ok (b, ch) ∧
      b.Rests .buy 99 quotedBid ∧
      let replaced := b.replaceOrder ch 0 2 1 2 .fillAndKill 100 7
        OrderToken.zero
      let entered := b.cancelOrder ch 0 2 1 0 OrderToken.zero >>= fun s =>
        s.1.addOrder s.2 0 2 2 .fillAndKill 100 7 .buy OrderToken.zero
      replaced.isOk = true ∧
      ((replaced = .error .poolExhausted ∧ entered = .error .poolExhausted) ∨
        ∃ b' ch₁ ch₂, replaced = .ok (b', ch₁) ∧ entered = .ok (b', ch₂) ∧
          ch₁.matchIds = ch₂.matchIds ∧
          ch₁.outputs.filter (Output.OfEntry 2 2) =
            ch₂.outputs.filter (Output.OfEntry 2 2)) := by
  have hfresh : FreshKeys quotedBook := by decide
  obtain ⟨s, hs⟩ : ∃ s,
      OrderBook.run MapLevels ScanPool 4 1 quotedBook = .ok s := ⟨_, rfl⟩
  obtain ⟨hrep, -⟩ := (MapBook.run_refines ScanPool 4 1 hfresh).of_ok hs
  have hrests : s.1.Rests .buy 99 quotedBid :=
    hrep.rests_iff.mpr ⟨by decide, rfl⟩
  refine ⟨s.1, s.2, hs, hrests, ?_, ?_⟩
  · obtain rfl := Except.ok.inj hs
    rfl
  · exact replace_is_cancel_then_new ScanPool 4 1 hfresh hs hrests 0
      (by decide) (by decide) .fillAndKill 100 (by decide) OrderToken.zero
      OrderToken.zero

end Quoted

end Paths

end NanoExchange
