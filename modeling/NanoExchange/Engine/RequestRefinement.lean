import NanoExchange.Engine.Book
import NanoExchange.Engine.BookRefinement
import NanoExchange.Engine.MapLevelsLaws
import NanoExchange.Engine.VectorLevelsLaws

/-!
# Both books perform every request as the ladder does

`LawfulBook` says that an implementation performs CANCEL and MODIFY requests as
the ladder says, in its own dialect; NEW requests are common text.  It holds of
the map book and of the vector book, so that everything proved of the ladder
carries over to both.

`OrderBook.run_refines` is the statement for whole runs.
-/

namespace NanoExchange

open Lib

/-- An implementation that performs requests as the ladder does. -/
class LawfulBook (Lv : Type) [LevelTable Lv] [LawfulLevels Lv]
    [BookImpl Lv] where
  dialect : Dialect
  trades : TradesIn Lv dialect
  cancelOrder_ok : ∀ {P : Type} [ObjectPool P] {b : OrderBook Lv P}
    {A : Ladder} (ch : Channel) {r : MEClientRequest},
    Rep b A → A.WF → r.action = .cancel →
      Performs dialect ch
        (BookImpl.cancelOrder b ch r.tickerId r.clientId r.clientOrderId r.qty
          r.orderToken)
        (A.step ch.matchIds r)
  replaceOrder_ok : ∀ {P : Type} [ObjectPool P] {b : OrderBook Lv P}
    {A : Ladder} (ch : Channel) {r : MEClientRequest},
    Rep b A → A.WF → r.action = .modify → LawfulLevels.Valid Lv r.price →
    A.Fresh r →
      Performs dialect ch
        (BookImpl.replaceOrder b ch r.tickerId r.clientId r.clientOrderId
          r.newClientOrderId r.type r.price r.qty r.orderToken)
        (A.step ch.matchIds r)

namespace Rep

variable {Lv P : Type} [LevelTable Lv] [LawfulLevels Lv] [ObjectPool P]
variable {b : OrderBook Lv P} {A : Ladder}

theorem next (h : Rep b A) : b.nextMarketOrderId = A.nextMarketOrderId := by
  obtain ⟨L, -, -, hnext⟩ := h
  exact hnext.symm

/-- The two-step lookup of a client's order, with what the ladder has. -/
theorem lookup_cases
    (h : Rep b A) (c : ClientId) (i : OrderId) :
    (b.orders.lookup c = none ∧ A.find? (c, i) = none) ∨
    (∃ m, b.orders.lookup c = some m ∧ m.lookup i = none ∧
      A.find? (c, i) = none) ∨
    ∃ m p mo, b.orders.lookup c = some m ∧ m.lookup i = some p ∧
      b.orders.find c i = some p ∧ b.heap p = some mo ∧
      A.find? (c, i) = some mo.info := by
  cases hc : b.orders.lookup c with
  | none =>
      refine .inl ⟨rfl, h.find_none ?_⟩
      simp [NestedIndex.find, hc]
  | some m =>
      cases hi : m.lookup i with
      | none =>
          refine .inr (.inl ⟨m, rfl, hi, h.find_none ?_⟩)
          simp [NestedIndex.find, hc, hi]
      | some p =>
          have hf : b.orders.find c i = some p := by
            simp [NestedIndex.find, hc, hi]
          obtain ⟨mo, hmo, hfind⟩ := h.find_some hf
          exact .inr (.inr ⟨m, p, mo, rfl, hi, hf, hmo, hfind⟩)

end Rep

namespace Ladder

variable {A : Ladder} {r : MEClientRequest}

theorem step_cancel_unknown
    (n : OrderId) (haction : r.action = .cancel)
    (hfind : A.find? (r.clientId, r.clientOrderId) = none) :
    A.step n r = ⟨A, n, [rejection r]⟩ := by
  simp only [step, haction, hfind]

theorem step_cancel_found
    (n : OrderId) (haction : r.action = .cancel) {o : OrderInfo}
    (hfind : A.find? (r.clientId, r.clientOrderId) = some o) :
    A.step n r =
      if canceledQty r o > o.remainingQuantity then
        ⟨A, n, [.excessive r.tickerId o]⟩
      else
        ⟨A.withdraw o (canceledQty r o), n,
          [.canceled r.tickerId o (canceledQty r o)]⟩ := by
  simp only [step, haction, hfind]

/-- A cancel of all that is left takes the order out. -/
theorem step_cancel_all
    (h : A.WF) (n : OrderId) {o : OrderInfo} (ho : o ∈ A.orders)
    (haction : r.action = .cancel)
    (hkey : o.key = (r.clientId, r.clientOrderId)) (hqty : r.qty = 0) :
    (A.step n r).ladder = A.erase o.key := by
  cases hfind : A.find? (r.clientId, r.clientOrderId) with
  | none => exact absurd hkey (find?_eq_none.mp hfind o ho)
  | some o' =>
      obtain ⟨ho', hkey'⟩ := mem_of_find? hfind
      obtain rfl := h.key_unique ho ho' (hkey.trans hkey'.symm)
      rw [step_cancel_found _ haction hfind, canceledQty,
        if_pos hqty, if_neg (Nat.lt_irrefl _), withdraw, Nat.sub_self,
        if_pos rfl]

theorem step_modify_unknown
    (n : OrderId) (haction : r.action = .modify)
    (hfind : A.find? (r.clientId, r.clientOrderId) = none) :
    A.step n r = ⟨A, n, [rejection r]⟩ := by
  simp only [step, haction, hfind]

theorem step_modify_found
    (n : OrderId) (haction : r.action = .modify) {o : OrderInfo}
    (hfind : A.find? (r.clientId, r.clientOrderId) = some o) :
    A.step n r =
      if r.newClientOrderId = 0 ∨ r.qty = 0 then ⟨A, n, [rejection r]⟩
      else
        { (A.erase o.key).bump.enter n true (A.replacementArgs r o.side) with
          events := .modified (A.replacementArgs r o.side) o ::
            ((A.erase o.key).bump.enter n true
              (A.replacementArgs r o.side)).events } := by
  simp only [step, haction, hfind]

end Ladder

/-- Reporting one event, without touching the book. -/
theorem Rep.reports
    {Lv P : Type} [LevelTable Lv] [LawfulLevels Lv] [ObjectPool P]
    {b : OrderBook Lv P} {A : Ladder} (h : Rep b A) (d : Dialect)
    (ch : Channel) (e : Event) :
    Performs d ch (.ok (b, ch.report d ch.matchIds [e]))
      ⟨A, ch.matchIds, [e]⟩ :=
  .inr ⟨b, rfl, h⟩

theorem Channel.report_rejection (ch : Channel) (d : Dialect)
    (r : MEClientRequest) :
    ch.report d ch.matchIds [Ladder.rejection r] =
      ch.sendClientResponse (rejectedResponse r.tickerId r.clientId
        r.clientOrderId r.orderToken) := by
  simp [report, sendClientResponse, Ladder.rejection, Event.outputs]

theorem Channel.report_excessive (ch : Channel) (d : Dialect)
    (tickerId : TickerId) (o : OrderInfo) :
    ch.report d ch.matchIds [.excessive tickerId o] =
      ch.sendClientResponse (excessiveResponse tickerId o.clientId
        o.clientOrderId o) := by
  simp [report, sendClientResponse, Event.outputs]

theorem Channel.report_modified (ch : Channel) (d : Dialect)
    (a : OrderArgs) (old : OrderInfo) :
    ch.report d ch.matchIds [.modified a old] =
      (ch.sendClientResponse (modifiedResponse a)).sendMarketUpdate
        (modifyUpdate a old.marketOrderId) := by
  simp [report, sendClientResponse, sendMarketUpdate, Event.outputs]

/-- **The common part of `replaceOrder`**: the old order is taken out and the
replacement entered, with what follows the sweep given as a program. -/
theorem Rep.replace
    {Lv P : Type} [LevelTable Lv] [LawfulLevels Lv] [ObjectPool P]
    {b : OrderBook Lv P} {A : Ladder} {d : Dialect} (hd : TradesIn Lv d)
    (h : Rep b A) (hA : A.WF) (ch : Channel) {r : MEClientRequest}
    (haction : r.action = .modify)
    (hgood : ¬ (r.newClientOrderId = 0 ∨ r.qty = 0))
    (hvalid : LawfulLevels.Valid Lv r.price) (hfresh : A.Fresh r)
    {p : Ptr} {old : OrderInfo}
    (hf : b.orders.find r.clientId r.clientOrderId = some p)
    (hfind : A.find? (r.clientId, r.clientOrderId) = some old)
    {k : OrderBook Lv P × Channel × Quantity →
      Except Fault (OrderBook Lv P × Channel)}
    (hfilled : ∀ b' ch', k (b', ch', 0) = .ok (b', ch'))
    (hrest : ∀ b' ch' q, q ≠ 0 → r.type = .goodTillCancel →
      k (b', ch', q) =
        b'.insert { A.replacementArgs r old.side with initialQuantity := q }
          >>= fun b'' => .ok (b'', ch'.report d ch'.matchIds
            [.rested true (A.replacementArgs r old.side) q]))
    (hkill : ∀ b' ch' q, q ≠ 0 → r.type = .fillAndKill →
      k (b', ch', q) = .ok (b', ch'.report d ch'.matchIds
        [.killed true (A.replacementArgs r old.side) q])) :
    Performs d ch
      (b.bumpMarketOrderId.remove p >>= fun b₁ =>
        b₁.matchOrder
          ((ch.sendClientResponse
            (modifiedResponse (A.replacementArgs r old.side))).sendMarketUpdate
            (modifyUpdate (A.replacementArgs r old.side) old.marketOrderId))
          (A.replacementArgs r old.side) >>= k)
      (A.step ch.matchIds r) := by
  have hkey := (Ladder.mem_of_find? hfind).2
  obtain ⟨b₁, hb₁, hrep⟩ := h.bump.remove hf
  have htrims : A.Trims (A.bump.erase (r.clientId, r.clientOrderId)) :=
    (Ladder.trims_bump hA).trans
      (Ladder.trims_erase ((Ladder.trims_bump hA).wf hA) _)
  have hnew : (r.clientId, r.newClientOrderId) ∈ r.newKey := by
    simp [MEClientRequest.newKey, haction]
  have hfresh₁ : ∀ o ∈ (A.bump.erase (r.clientId, r.clientOrderId)).orders,
      o.key ≠ (r.clientId, r.newClientOrderId) := by
    intro o ho
    obtain ⟨o', ho', x, -, -, rfl⟩ := htrims.orders.shrinks o ho
    exact hfresh _ hnew o' ho'
  rw [hb₁, ok_bind, Ladder.step_modify_found _ haction hfind, if_neg hgood,
    hkey, ← ch.report_modified d]
  exact (hrep.enter hd (htrims.wf hA)
    (ch.report d ch.matchIds [.modified (A.replacementArgs r old.side) old])
    (A.replacementArgs r old.side) true hvalid hfresh₁ hfilled hrest
    hkill).cons

/-- What is left of a replacement rests or is dropped, and is reported in the
dialect. -/
structure Settles {Lv P : Type} [LevelTable Lv] [ObjectPool P] (d : Dialect)
    (k : OrderArgs → OrderBook Lv P × Channel × Quantity →
      Except Fault (OrderBook Lv P × Channel)) : Prop where
  filled : ∀ a b ch, k a (b, ch, 0) = .ok (b, ch)
  rested : ∀ a b ch q, q ≠ 0 → a.orderType = .goodTillCancel →
    k a (b, ch, q) = b.insert { a with initialQuantity := q } >>= fun b' =>
      .ok (b', ch.report d ch.matchIds [.rested true a q])
  killed : ∀ a b ch q, q ≠ 0 → a.orderType = .fillAndKill →
    k a (b, ch, q) = .ok (b, ch.report d ch.matchIds [.killed true a q])

namespace Rep

variable {Lv P : Type} [LevelTable Lv] [LawfulLevels Lv] [ObjectPool P]
variable {b : OrderBook Lv P} {A : Ladder}

/-- A cancel takes no object from the pool. -/
theorem cancelWith_succeeds
    (h : Rep b A) (d : Dialect) (ch : Channel) {r : MEClientRequest}
    (haction : r.action = .cancel) :
    ∃ b', b.cancelWith d.cancelLeaves ch r.tickerId r.clientId r.clientOrderId r.qty
        r.orderToken = .ok (b', ch.report d (A.step ch.matchIds r).matchIds
          (A.step ch.matchIds r).events) ∧
      Rep b' (A.step ch.matchIds r).ladder := by
  rcases h.lookup_cases r.clientId r.clientOrderId with
    ⟨hc, hfind⟩ | ⟨m, hc, hi, hfind⟩ | ⟨m, p, mo, hc, hi, hf, hmo, hfind⟩
  · rw [Ladder.step_cancel_unknown _ haction hfind]
    simp only [OrderBook.cancelWith, hc, ← ch.report_rejection d r]
    exact ⟨b, rfl, h⟩
  · rw [Ladder.step_cancel_unknown _ haction hfind]
    simp only [OrderBook.cancelWith, hc, hi, ← ch.report_rejection d r]
    exact ⟨b, rfl, h⟩
  · have hkey := (Ladder.mem_of_find? hfind).2
    obtain ⟨hcl, hoi⟩ : mo.info.clientId = r.clientId ∧
        mo.info.clientOrderId = r.clientOrderId := Prod.ext_iff.mp hkey
    rw [Ladder.step_cancel_found _ haction hfind]
    generalize hcq : Ladder.canceledQty r mo.info = qty
    simp only [Ladder.canceledQty] at hcq
    simp only [OrderBook.cancelWith, hc, hi, Heap.read_ok hmo, ok_bind, hcq]
    by_cases hqty : qty > mo.info.remainingQuantity
    · rw [if_pos hqty, if_pos hqty, ← hcl, ← hoi, ← ch.report_excessive d]
      exact ⟨b, rfl, h⟩
    · rw [if_neg hqty, if_neg hqty, subQuantity_of_le (not_lt.mp hqty), ok_bind]
      obtain ⟨b', hb', hrep⟩ := h.withdraw hf hmo hkey qty
      refine ⟨b', ?_, hrep⟩
      refine (ite_bind_ok _ _ _ fun b => .ok (b, _)).trans ?_
      rw [hb', ok_bind]
      simp [Channel.report, Channel.sendMarketUpdate,
        Channel.sendClientResponse, Event.outputs, hcl, hoi,
        canceledResponse, OrderInfo.withRemaining]

theorem replaceWith_ok
    (h : Rep b A) (hA : A.WF) {d : Dialect} (hd : TradesIn Lv d)
    {k : OrderArgs → OrderBook Lv P × Channel × Quantity →
      Except Fault (OrderBook Lv P × Channel)} (hk : Settles d k)
    (ch : Channel) {r : MEClientRequest} (haction : r.action = .modify)
    (hvalid : LawfulLevels.Valid Lv r.price) (hfresh : A.Fresh r) :
    Performs d ch
      (b.replaceWith k ch r.tickerId r.clientId r.clientOrderId
        r.newClientOrderId r.type r.price r.qty r.orderToken)
      (A.step ch.matchIds r) := by
  rcases h.lookup_cases r.clientId r.clientOrderId with
    ⟨hc, hfind⟩ | ⟨m, hc, hi, hfind⟩ | ⟨m, p, mo, hc, hi, hf, hmo, hfind⟩
  · rw [Ladder.step_modify_unknown _ haction hfind]
    simp only [OrderBook.replaceWith, hc, ← ch.report_rejection d r]
    exact h.reports _ _ _
  · rw [Ladder.step_modify_unknown _ haction hfind]
    simp only [OrderBook.replaceWith, hc, hi, ← ch.report_rejection d r]
    exact h.reports _ _ _
  · by_cases hbad : r.newClientOrderId = 0 ∨ r.qty = 0
    · rw [Ladder.step_modify_found _ haction hfind, if_pos hbad]
      simp only [OrderBook.replaceWith, hc, hi, if_pos hbad,
        ← ch.report_rejection d r]
      exact h.reports _ _ _
    · simp only [OrderBook.replaceWith, hc, hi, if_neg hbad, Heap.read_ok hmo,
        ok_bind, h.next]
      let a := A.replacementArgs r mo.info.side
      exact h.replace hd hA ch haction hbad hvalid hfresh hf hfind
        (hk.filled a) (hk.rested a) (hk.killed a)

end Rep

namespace MapBook

theorem trades : TradesIn MapLevels Dialect.map := by
  intro tickerId o fill matchId
  rfl

variable {P : Type} [ObjectPool P] {b : MapBook P} {A : Ladder}

theorem settles_rest : Settles Dialect.map (rest (P := P)) where
  filled a b ch := rfl
  rested a b ch q hq htype := by
    simp [rest, hq, htype, Channel.report, Event.outputs]
  killed a b ch q hq htype := by
    simp [rest, hq, htype, Channel.report, Channel.sendClientResponse,
      Channel.sendMarketUpdate, Event.outputs, Dialect.map]

theorem cancelOrder_succeeds
    (ch : Channel) {r : MEClientRequest} (h : Rep b A)
    (haction : r.action = .cancel) :
    ∃ b', cancelOrder b ch r.tickerId r.clientId r.clientOrderId r.qty
        r.orderToken = .ok (b', ch.report Dialect.map
          (A.step ch.matchIds r).matchIds (A.step ch.matchIds r).events) ∧
      Rep b' (A.step ch.matchIds r).ladder := by
  rw [cancelOrder_eq]
  exact h.cancelWith_succeeds Dialect.map ch haction

end MapBook

namespace VectorBook

theorem trades : TradesIn VectorLevels Dialect.vector := by
  intro tickerId o fill matchId
  rfl

theorem settles_rest {P : Type} [ObjectPool P] :
    Settles Dialect.vector (rest (P := P)) where
  filled a b ch := by simp [rest]
  rested a b ch q hq htype := by
    simp [rest, Nat.pos_of_ne_zero hq, htype, Channel.report, Event.outputs]
  killed a b ch q hq htype := by
    simp [rest, htype, Channel.report, Event.outputs, Dialect.vector]

end VectorBook

instance : LawfulBook MapLevels where
  dialect := Dialect.map
  trades := MapBook.trades
  cancelOrder_ok ch _ h _ haction :=
    .inr (MapBook.cancelOrder_succeeds ch h haction)
  replaceOrder_ok ch _ h hA haction hvalid hfresh :=
    h.replaceWith_ok hA MapBook.trades MapBook.settles_rest ch haction hvalid
      hfresh

instance : LawfulBook VectorLevels where
  dialect := Dialect.vector
  trades := VectorBook.trades
  cancelOrder_ok ch _ h _ haction :=
    .inr (h.cancelWith_succeeds Dialect.vector ch haction)
  replaceOrder_ok ch _ h hA haction hvalid hfresh :=
    h.replaceWith_ok hA VectorBook.trades VectorBook.settles_rest ch haction
      hvalid hfresh

section Requests

variable {Lv P : Type} [LevelTable Lv] [LawfulLevels Lv] [BookImpl Lv]
variable [LawfulBook Lv] [ObjectPool P]

/-- The price of a request that may bring an order into the book is one that
the level table can hold. -/
def Priced (Lv : Type) [LevelTable Lv] [LawfulLevels Lv]
    (r : MEClientRequest) : Prop :=
  r.action ≠ .cancel → LawfulLevels.Valid Lv r.price

/-- **A book performs every request as its ladder does.** -/
theorem Rep.processRequest
    {b : OrderBook Lv P} {A : Ladder} (h : Rep b A) (hA : A.WF) (ch : Channel)
    {r : MEClientRequest} (hprice : Priced Lv r) (hfresh : A.Fresh r) :
    Performs (LawfulBook.dialect Lv) ch (b.processRequest ch r)
      (A.step ch.matchIds r) := by
  cases haction : r.action with
  | new =>
      simp only [OrderBook.processRequest, haction]
      exact h.addOrder LawfulBook.trades hA ch haction
        (hprice (by simp [haction])) hfresh
  | cancel =>
      simp only [OrderBook.processRequest, haction]
      exact LawfulBook.cancelOrder_ok ch h hA haction
  | modify =>
      simp only [OrderBook.processRequest, haction]
      exact LawfulBook.replaceOrder_ok ch h hA haction
        (hprice (by simp [haction])) hfresh

end Requests

end NanoExchange
