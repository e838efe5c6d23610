import NanoExchange.Engine.Runs
import NanoExchange.Variants.BitmapLevels

/-!
# The order books of the benchmark

`tests/ob_variants.h` has order books with a small interface: `addOrder`,
`cancelOrder`, and no messages to clients or to the market.  Two of them are
modelled here, over their tables of levels: `MEOrderBook_StdMap`, which is the
map book without its messages, and `MEOrderBook_BitmapVector`.  They keep the
orders of a level, the pool and the client index as the engine's books do, so
`insert` and `remove` are those of `OrderBook`; `match`, `addOrder` and
`cancelOrder` are written out.

A call of a variant does what the engine's book does on the same request, and
so performs a step of the ladder.
-/

namespace NanoExchange

open Lib

/-- `MEOrderBook_StdMap` -/
abbrev StdMapBook (P : Type) := OrderBook MapLevels P

/-- `MEOrderBook_BitmapVector` -/
abbrev BitmapVectorBook (P : Type) := OrderBook BitmapLevels P

/-- A call of the interface of the variants. -/
inductive VariantCall where
  | addOrder (tickerId : TickerId) (clientId : ClientId)
      (clientOrderId : OrderId) (orderType : OrderType) (price : Price)
      (quantity : Quantity) (side : Side)
  | cancelOrder (tickerId : TickerId) (clientId : ClientId)
      (clientOrderId : OrderId)
deriving DecidableEq

/-- The request on which the engine makes the same call.  A cancel names all
that is left of its order. -/
def VariantCall.request : VariantCall → MEClientRequest
  | .addOrder tickerId clientId clientOrderId orderType price quantity side =>
      .make .new clientId tickerId clientOrderId orderType side price quantity
  | .cancelOrder tickerId clientId clientOrderId =>
      .make .cancel clientId tickerId clientOrderId .goodTillCancel .buy 0 0

namespace VariantBook

section Operations

variable {Lv P : Type} [LevelTable Lv] [ObjectPool P]

/-- The inner loop of `match`. -/
def matchLevel (side : Side) (level : Price) :
    Nat → OrderBook Lv P → Quantity → Except Fault (OrderBook Lv P × Quantity)
  | 0, _, _ => .error .outOfFuel
  | fuel + 1, b, remaining => do
      match ← LevelTable.loopHead b.levels side.opposite level with
      | none => .ok (b, remaining)
      | some p =>
          if remaining = 0 then .ok (b, remaining)
          else do
            let resting ← b.heap.read p
            let fill := min remaining resting.info.remainingQuantity
            let remaining ← subQuantity remaining fill
            let left ← subQuantity resting.info.remainingQuantity fill
            let info := resting.info.withRemaining left
            let b := { b with heap := b.heap.write p { resting with info := info } }
            let b ← if left = 0 then b.remove p else .ok b
            matchLevel side level fuel b remaining

/-- The outer loop of `match`. -/
def matchAgainst (price : Price) (side : Side) :
    Nat → OrderBook Lv P → Quantity → Except Fault (OrderBook Lv P × Quantity)
  | 0, _, _ => .error .outOfFuel
  | fuel + 1, b, remaining =>
      match LevelTable.best b.levels side.opposite with
      | none => .ok (b, remaining)
      | some level =>
          if remaining = 0 then .ok (b, remaining)
          else if side.crosses price
              (LevelTable.levelPrice b.levels side.opposite level) then do
            let (b, remaining) ←
              matchLevel side level (remaining + 1) b remaining
            matchAgainst price side fuel b remaining
          else .ok (b, remaining)

/-- `match`: returns the unfilled quantity. -/
def matchOrder (b : OrderBook Lv P) (price : Price) (quantity : Quantity)
    (side : Side) : Except Fault (OrderBook Lv P × Quantity) :=
  matchAgainst price side (quantity + 1) b quantity

def addOrder (b : OrderBook Lv P) (tickerId : TickerId) (clientId : ClientId)
    (clientOrderId : OrderId) (orderType : OrderType) (price : Price)
    (quantity : Quantity) (side : Side) : Except Fault (OrderBook Lv P) := do
  let marketOrderId := b.nextMarketOrderId
  let (b, remaining) ← matchOrder b.bumpMarketOrderId price quantity side
  if remaining > 0 ∧ orderType = .goodTillCancel then
    b.insert
      { tickerId, clientId, clientOrderId, marketOrderId, orderType, price,
        initialQuantity := remaining, side, orderToken := OrderToken.zero }
  else .ok b

def cancelOrder (b : OrderBook Lv P) (_ : TickerId) (clientId : ClientId)
    (clientOrderId : OrderId) : Except Fault (OrderBook Lv P) :=
  match b.orders.lookup clientId with
  | none => .ok b
  | some client =>
      match client.lookup clientOrderId with
      | none => .ok b
      | some p => b.remove p

/-- Make one call. -/
def call (b : OrderBook Lv P) : VariantCall → Except Fault (OrderBook Lv P)
  | .addOrder tickerId clientId clientOrderId orderType price quantity side =>
      addOrder b tickerId clientId clientOrderId orderType price quantity side
  | .cancelOrder tickerId clientId clientOrderId =>
      cancelOrder b tickerId clientId clientOrderId

/-- Make calls one after the other on a new book. -/
def run (Lv P : Type) [LevelTable Lv] [ObjectPool P] (size : Nat)
    (calls : List VariantCall) : Except Fault (OrderBook Lv P) :=
  calls.foldlM call (OrderBook.init size)

end Operations

section Silent

variable {Lv P : Type} [LevelTable Lv] [ObjectPool P]

/-- The loop of the variant is that of the book, without the messages. -/
theorem matchLevel_alike
    (a : OrderArgs) (level : Price) (fuel : Nat) (b : OrderBook Lv P)
    (ch : Channel) (q : Quantity) :
    Alike (fun x y => x = (y.1, y.2.2)) (matchLevel a.side level fuel b q)
      (OrderBook.matchLevel a level fuel b ch q) := by
  induction fuel generalizing b ch q with
  | zero => exact .error _
  | succ fuel ih =>
      refine Alike.after _ fun head => ?_
      cases head with
      | none => exact .ok rfl
      | some p =>
          refine Alike.ite _ (fun _ => .ok rfl) fun _ => ?_
          refine Alike.after _ fun resting => ?_
          refine Alike.after _ fun remaining => ?_
          refine Alike.after _ fun left => ?_
          refine Alike.ite _ (fun _ => ?_) fun _ => ?_
          · exact Alike.after _ fun b' => ih b' _ remaining
          · exact Alike.after _ fun b' => ih b' _ remaining

theorem matchAgainst_alike
    (a : OrderArgs) (fuel : Nat) (b : OrderBook Lv P) (ch : Channel)
    (q : Quantity) :
    Alike (fun x y => x = (y.1, y.2.2)) (matchAgainst a.price a.side fuel b q)
      (OrderBook.matchAgainst a fuel b ch q) := by
  induction fuel generalizing b ch q with
  | zero => exact .error _
  | succ fuel ih =>
      unfold matchAgainst OrderBook.matchAgainst
      cases LevelTable.best b.levels a.side.opposite with
      | none => exact .ok rfl
      | some level =>
          refine Alike.ite _ (fun _ => .ok rfl) fun _ => ?_
          refine Alike.ite _ (fun _ => ?_) fun _ => .ok rfl
          refine (matchLevel_alike a level (q + 1) b ch q).bind ?_
          rintro _ ⟨b', ch', q'⟩ rfl
          exact ih b' ch' q'

/-- `addOrder` of the variant leaves the book that the engine's `addOrder`
leaves. -/
theorem addOrder_alike
    (b : OrderBook Lv P) (ch : Channel) (t : TickerId) (c : ClientId)
    (i : OrderId) (type : OrderType) (price : Price) (quantity : Quantity)
    (side : Side) :
    Alike (fun x y => x = y.1) (addOrder b t c i type price quantity side)
      (b.addOrder ch t c i type price quantity side OrderToken.zero) := by
  let a : OrderArgs :=
    { tickerId := t, clientId := c, clientOrderId := i, orderType := type,
      price, initialQuantity := quantity, side,
      orderToken := OrderToken.zero, marketOrderId := b.nextMarketOrderId }
  refine (matchAgainst_alike a (quantity + 1) b.bumpMarketOrderId
    (ch.sendClientResponse (acceptedResponse a)) quantity).bind ?_
  rintro _ ⟨b', ch', remaining⟩ rfl
  by_cases hremaining : remaining > 0
  · cases type with
    | goodTillCancel =>
        simp only [hremaining, and_self, if_true]
        exact Alike.extend _ fun _ => rfl
    | fillAndKill =>
        simp only [hremaining, if_true]
        exact .ok rfl
  · simp only [hremaining, false_and, if_false]
    exact .ok rfl

end Silent

section Refinement

variable {Lv P : Type} [LevelTable Lv] [LawfulLevels Lv] [ObjectPool P]
variable {b : OrderBook Lv P} {A : Ladder}

theorem addOrder_refines
    {d : Dialect} (hd : TradesIn Lv d) (h : Rep b A) (hA : A.WF) (n : OrderId)
    {t : TickerId} {c : ClientId} {i : OrderId} {type : OrderType}
    {price : Price} {quantity : Quantity} {side : Side}
    (hvalid : LawfulLevels.Valid Lv price)
    (hfresh : A.Fresh (.make .new c t i type side price quantity)) :
    SucceedsWith (addOrder b t c i type price quantity side) fun b' =>
      Rep b' (A.step n (.make .new c t i type side price quantity)).ladder := by
  have halike := addOrder_alike b { matchIds := n } t c i type price quantity side
  have hperforms : Performs d { matchIds := n }
      (b.addOrder { matchIds := n } t c i type price quantity side
        OrderToken.zero)
      (A.step n (.make .new c t i type side price quantity)) :=
    h.addOrder hd hA { matchIds := n } rfl hvalid hfresh
  rcases hperforms with hfull | ⟨b', hb', hrep⟩
  · rw [hfull] at halike
    exact .inl halike.of_error
  · rw [hb'] at halike
    obtain ⟨b₁, hb₁, heq⟩ := halike.of_ok
    exact .inr ⟨b₁, hb₁, heq ▸ hrep⟩

theorem cancelOrder_refines
    (h : Rep b A) (hA : A.WF) (n : OrderId) (t : TickerId) (c : ClientId)
    (i : OrderId) :
    ∃ b', cancelOrder b t c i = .ok b' ∧
      Rep b'
        (A.step n (.make .cancel c t i .goodTillCancel .buy 0 0)).ladder := by
  rcases h.lookup_cases c i with
    ⟨hc, hfind⟩ | ⟨m, hc, hi, hfind⟩ | ⟨m, p, mo, hc, hi, hf, hmo, hfind⟩
  · rw [Ladder.step_cancel_unknown n rfl hfind]
    exact ⟨b, by simp only [cancelOrder, hc], h⟩
  · rw [Ladder.step_cancel_unknown n rfl hfind]
    exact ⟨b, by simp only [cancelOrder, hc, hi], h⟩
  · obtain ⟨hmem, hkey⟩ := Ladder.mem_of_find? hfind
    obtain ⟨b', hb', hrep⟩ := h.remove hf
    refine ⟨b', by simp only [cancelOrder, hc, hi, hb'], ?_⟩
    rw [Ladder.step_cancel_all hA n hmem rfl hkey rfl, hkey]
    exact hrep

/-- **A call performs the step of its request.** -/
theorem call_refines
    {d : Dialect} (hd : TradesIn Lv d) (h : Rep b A) (hA : A.WF) (n : OrderId)
    {c : VariantCall} (hpriced : Priced Lv c.request)
    (hfresh : A.Fresh c.request) :
    SucceedsWith (call b c) fun b' => Rep b' (A.step n c.request).ladder := by
  cases c with
  | addOrder t c i type price quantity side =>
      have hnew : ClientRequestType.new ≠ .cancel := fun hne => by cases hne
      exact addOrder_refines hd h hA n (hpriced hnew) hfresh
  | cancelOrder t c i => exact .inr (cancelOrder_refines h hA n t c i)

/-- **Every run of a variant is a run of the ladder** on the requests of its
calls. -/
theorem run_refines
    {d : Dialect} (hd : TradesIn Lv d) (size : Nat) (n : OrderId)
    {calls : List VariantCall}
    (hfresh : FreshKeys (calls.map VariantCall.request))
    (hprice : ∀ r ∈ calls.map VariantCall.request, Priced Lv r) :
    SucceedsWith (run Lv P size calls) fun b =>
      Rep b (Ladder.run n (calls.map VariantCall.request)).ladder := by
  have hsim := run_simulation (f := @call Lv P _ _)
    (g := fun t c => StepResult.next t c.request)
    (fun b t => Rep b t.ladder)
    (fun t l => (t.ladder.WF ∧ t.ladder.Admits (l.map VariantCall.request)) ∧
      ∀ r ∈ l.map VariantCall.request, Priced Lv r)
    Fault.poolExhausted ?_
    (s := OrderBook.init size) (t := StepResult.start n) (l := calls)
    ⟨_, LRep.init size, fun _ => rfl, rfl⟩
    ⟨⟨Ladder.WF.empty, Ladder.Admits.empty hfresh⟩, hprice⟩
  · rw [Ladder.run, List.foldl_map]
    rcases hsim with hfull | ⟨b, hb, hrep, -⟩
    · exact .inl hfull
    · exact .inr ⟨b, hb, hrep⟩
  · rintro b t c l hrep ⟨⟨hwf, hadm⟩, hpriced⟩
    rw [List.map_cons] at hadm hpriced
    rcases call_refines hd hrep hwf t.matchIds
        (hpriced _ List.mem_cons_self) hadm.head with hfull | ⟨b', hb', hrep'⟩
    · exact .inl hfull
    · exact .inr ⟨b', hb', hrep',
        ⟨Ladder.step_wf hwf _ hadm.head, hadm.step hwf _⟩,
        fun r hr => hpriced r (List.mem_cons_of_mem _ hr)⟩

end Refinement

end VariantBook

end NanoExchange
