import NanoExchange.Engine.Book
import NanoExchange.Lib.Oblivious

/-!
# What a book does to the channel

All books of an engine send through one channel and draw match ids from one
counter, but none of them ever reads what is in the channel, and match ids are
only handed on.  What an operation does to the channel is a list of `Deed`s,
the same in every channel.
-/

namespace NanoExchange

open Lib

def Output.tickerId : Output → TickerId
  | .response r => r.tickerId
  | .update u => u.tickerId

/-- A message that the engine may send about a ticker: the updates are those
that go out on the incremental feed. -/
def Output.About (t : TickerId) : Output → Prop
  | .response r => r.tickerId = t
  | .update u => u.tickerId = t ∧ u.type.Incremental

theorem Output.About.tickerId_eq {t : TickerId} {o : Output} (h : o.About t) :
    o.tickerId = t := by
  cases o with
  | response r => exact h
  | update u => exact h.1

/-- The message under another match id. -/
def Output.withMatchId (m : OrderId) : Output → Output
  | .response r => .response { r with matchId := m }
  | .update u => .update { u with matchId := m }

/-- A message of a fill, which may be numbered with the match id. -/
inductive Draft where
  | fixed (o : Output)
  | numbered (o : Output)

namespace Draft

def output : Draft → Output
  | .fixed o | .numbered o => o

/-- The message of a fill with match id `m`. -/
def stamp (m : OrderId) : Draft → Output
  | .fixed o => o
  | .numbered o => o.withMatchId m

end Draft

/-- What a book does to the channel: it sends a message, or it draws a match id
and sends the messages of a fill. -/
inductive Deed where
  | send (o : Output)
  | fill (drafts : List Draft)

/-- The deed is about a ticker. -/
def Deed.About (t : TickerId) : Deed → Prop
  | .send o => o.About t
  | .fill drafts => ∀ d ∈ drafts, d.output.About t

/-- A deed about a ticker. -/
abbrev TickerDeed (t : TickerId) := { d : Deed // d.About t }

namespace Channel

/-- Do a deed. -/
def perform (ch : Channel) : Deed → Channel
  | .send o => { ch with outputs := ch.outputs ++ [o] }
  | .fill drafts =>
      { matchIds := (ch.matchIds + 1) % wordSize
        outputs := ch.outputs ++ drafts.map (Draft.stamp ch.matchIds) }

end Channel

/-- The program only does deeds about the ticker `t`, the same in every
channel. -/
abbrev ObliviousOf {α β : Type} (t : TickerId) (put : α → Channel → β)
    (f : Channel → Except Fault β) : Prop :=
  Oblivious (fun (ch : Channel) (d : TickerDeed t) => ch.perform d.1) put f

namespace ObliviousOf

variable {α β : Type} {t : TickerId} {put : α → Channel → β}
variable {f : Channel → Except Fault β}

theorem sendClientResponse
    {r : MEClientResponse} (hr : r.tickerId = t) (h : ObliviousOf t put f) :
    ObliviousOf t put fun ch => f (ch.sendClientResponse r) :=
  Oblivious.perform (⟨.send (.response r), hr⟩ : TickerDeed t) h

theorem sendMarketUpdate
    {u : MEMarketUpdate} (hu : (Output.update u).About t)
    (h : ObliviousOf t put f) :
    ObliviousOf t put fun ch => f (ch.sendMarketUpdate u) :=
  Oblivious.perform (⟨.send (.update u), hu⟩ : TickerDeed t) h

/-- A result, after a response. -/
theorem respond
    {ρ : Type} (b : ρ) {r : MEClientResponse} (hr : r.tickerId = t) :
    ObliviousOf t Prod.mk fun ch => .ok (b, ch.sendClientResponse r) :=
  sendClientResponse (f := fun ch => .ok (b, ch)) hr (.pure b)

/-- A result, after a market update. -/
theorem publish
    {ρ : Type} (b : ρ) {u : MEMarketUpdate} (hu : (Output.update u).About t) :
    ObliviousOf t Prod.mk fun ch => .ok (b, ch.sendMarketUpdate u) :=
  sendMarketUpdate (f := fun ch => .ok (b, ch)) hu (.pure b)

theorem publish_respond
    {ρ : Type} (b : ρ) {u : MEMarketUpdate} {r : MEClientResponse}
    (hu : (Output.update u).About t) (hr : r.tickerId = t) :
    ObliviousOf t Prod.mk
      fun ch => .ok (b, (ch.sendMarketUpdate u).sendClientResponse r) :=
  sendMarketUpdate (f := fun ch => .ok (b, ch.sendClientResponse r)) hu
    (respond b hr)

theorem respond_publish
    {ρ : Type} (b : ρ) {u : MEMarketUpdate} {r : MEClientResponse}
    (hu : (Output.update u).About t) (hr : r.tickerId = t) :
    ObliviousOf t Prod.mk
      fun ch => .ok (b, (ch.sendClientResponse r).sendMarketUpdate u) :=
  sendClientResponse (f := fun ch => .ok (b, ch.sendMarketUpdate u)) hr
    (publish b hu)

end ObliviousOf

/-- The TRADE update of a fill carries the match id of the fill or none. -/
class DraftsTrades (Lv : Type) [LevelTable Lv] : Prop where
  draft : ∀ (t : TickerId) (o : OrderInfo) (fill : Quantity),
    ∃ d : Draft, d.output.About t ∧
      ∀ m, d.stamp m = .update (LevelTable.tradeUpdate Lv t o fill m)

instance : DraftsTrades MapLevels where
  draft t o fill :=
    ⟨.numbered (.update (LevelTable.tradeUpdate MapLevels t o fill 0)),
      ⟨rfl, trivial⟩, fun _ => rfl⟩

instance : DraftsTrades VectorLevels where
  draft t o fill :=
    ⟨.fixed (.update (LevelTable.tradeUpdate VectorLevels t o fill 0)),
      ⟨rfl, trivial⟩, fun _ => rfl⟩

/-- The report of a fill is one deed. -/
theorem ObliviousOf.fill
    {Lv α β : Type} [LevelTable Lv] [DraftsTrades Lv] {a : OrderArgs}
    {put : α → Channel → β} {f : Channel → Except Fault β} (o : OrderInfo)
    (fill : Quantity) (price : Price) (remaining : Quantity)
    (h : ObliviousOf a.tickerId put f) :
    ObliviousOf a.tickerId put fun ch =>
      f (((ch.nextMatchId.sendClientResponse
        (restingResponse a.tickerId o fill price ch.peekMatchId)
          ).sendClientResponse
        (aggressiveResponse a fill price remaining ch.peekMatchId)
          ).sendMarketUpdate
        (LevelTable.tradeUpdate Lv a.tickerId o fill ch.peekMatchId)) := by
  obtain ⟨d, hd, hstamp⟩ :=
    (inferInstance : DraftsTrades Lv).draft a.tickerId o fill
  have habout : (Deed.fill
      [.numbered (.response (restingResponse a.tickerId o fill price 0)),
        .numbered (.response (aggressiveResponse a fill price remaining 0)),
        d]).About a.tickerId := by
    simp only [Deed.About, List.forall_mem_cons]
    exact ⟨rfl, rfl, hd, List.forall_mem_nil _⟩
  refine (Oblivious.perform (⟨_, habout⟩ : TickerDeed a.tickerId) h).congr ?_
  intro ch
  simp only [Channel.perform, Channel.sendMarketUpdate,
    Channel.sendClientResponse, List.map_cons, hstamp, List.append_assoc]
  rfl

namespace OrderBook

variable {Lv P : Type} [LevelTable Lv] [ObjectPool P] [DraftsTrades Lv]

/-- The results of the loops of `match`. -/
abbrev matched (s : OrderBook Lv P × Quantity) (ch : Channel) :
    OrderBook Lv P × Channel × Quantity :=
  (s.1, ch, s.2)

theorem matchLevel_oblivious
    (a : OrderArgs) (level : Price) (fuel : Nat) (b : OrderBook Lv P)
    (remaining : Quantity) :
    ObliviousOf a.tickerId matched
      fun ch => matchLevel a level fuel b ch remaining := by
  induction fuel generalizing b remaining with
  | zero => exact .error _
  | succ fuel ih =>
      simp only [matchLevel]
      refine .lift _ fun head => ?_
      cases head with
      | none => exact .pure (b, remaining)
      | some p =>
          refine .ite _ (fun _ => .pure (b, remaining)) fun _ => ?_
          refine .lift _ fun resting => .lift _ fun left => .lift _ fun rest => ?_
          refine .ite _ (fun _ => .lift _ fun b' => ?_)
            fun _ => .lift _ fun b' => ?_
          all_goals exact ObliviousOf.fill _ _ _ _ (ih b' left)

theorem matchAgainst_oblivious
    (a : OrderArgs) (fuel : Nat) (b : OrderBook Lv P) (remaining : Quantity) :
    ObliviousOf a.tickerId matched
      fun ch => matchAgainst a fuel b ch remaining := by
  induction fuel generalizing b remaining with
  | zero => exact .error _
  | succ fuel ih =>
      simp only [matchAgainst]
      cases LevelTable.best b.levels a.side.opposite with
      | none => exact .pure (b, remaining)
      | some level =>
          refine .ite _ (fun _ => .pure (b, remaining)) fun _ => ?_
          refine .ite _ (fun _ => ?_) fun _ => .pure (b, remaining)
          exact .bind (matchLevel_oblivious a level _ b remaining)
            fun s => ih s.1 s.2

theorem matchOrder_oblivious (b : OrderBook Lv P) (a : OrderArgs) :
    ObliviousOf a.tickerId matched fun ch => b.matchOrder ch a :=
  matchAgainst_oblivious a _ b _

theorem addOrder_oblivious
    (b : OrderBook Lv P) (t : TickerId) (c : ClientId) (i : OrderId)
    (type : OrderType) (price : Price) (qty : Quantity) (side : Side)
    (token : OrderToken) :
    ObliviousOf t Prod.mk
      fun ch => b.addOrder ch t c i type price qty side token := by
  have hmatch : ∀ a : OrderArgs, ObliviousOf a.tickerId matched fun ch =>
      b.bumpMarketOrderId.matchOrder
        (ch.sendClientResponse (acceptedResponse a)) a :=
    fun a => ObliviousOf.sendClientResponse
      (f := fun ch => b.bumpMarketOrderId.matchOrder ch a) rfl
      (matchOrder_oblivious _ a)
  simp only [addOrder]
  refine .bind (hmatch _) fun s => ?_
  dsimp only [matched]
  refine .ite (s.2 > 0) (fun _ => ?_) fun _ => .pure s.1
  cases type with
  | goodTillCancel =>
      refine .lift _ fun b' => ?_
      exact ObliviousOf.publish b' ⟨rfl, trivial⟩
  | fillAndKill =>
      exact ObliviousOf.respond s.1 rfl

/-- A replacement is reported, and then matched. -/
theorem matchReplacement_oblivious
    (b : OrderBook Lv P) (a : OrderArgs) (m : OrderId) :
    ObliviousOf a.tickerId matched fun ch =>
      b.matchOrder ((ch.sendClientResponse (modifiedResponse a)
        ).sendMarketUpdate (modifyUpdate a m)) a :=
  ObliviousOf.sendClientResponse
    (f := fun ch => b.matchOrder (ch.sendMarketUpdate (modifyUpdate a m)) a) rfl
    (ObliviousOf.sendMarketUpdate (f := fun ch => b.matchOrder ch a)
      ⟨rfl, trivial⟩ (matchOrder_oblivious b a))

end OrderBook

/-- The operations that the books write out separately do not read the channel
either. -/
class ObliviousBook (Lv : Type) [LevelTable Lv] [BookImpl Lv] : Prop extends
    DraftsTrades Lv where
  cancelOrder : ∀ {P : Type} [ObjectPool P] (b : OrderBook Lv P)
    (t : TickerId) (c : ClientId) (i : OrderId) (qty : Quantity)
    (token : OrderToken), ObliviousOf t Prod.mk
      fun ch => BookImpl.cancelOrder b ch t c i qty token
  replaceOrder : ∀ {P : Type} [ObjectPool P] (b : OrderBook Lv P)
    (t : TickerId) (c : ClientId) (i j : OrderId) (type : OrderType)
    (price : Price) (qty : Quantity) (token : OrderToken),
      ObliviousOf t Prod.mk
        fun ch => BookImpl.replaceOrder b ch t c i j type price qty token

section Requests

variable {Lv P : Type} [LevelTable Lv] [DraftsTrades Lv] [ObjectPool P]
variable (b : OrderBook Lv P) (t : TickerId) (c : ClientId) (i : OrderId)
variable (qty : Quantity) (token : OrderToken)

omit [DraftsTrades Lv] in
theorem OrderBook.cancelWith_oblivious
    (leaves : Quantity → Quantity → Quantity) :
    ObliviousOf t Prod.mk
      fun ch => b.cancelWith leaves ch t c i qty token := by
  cases hc : b.orders.lookup c with
  | none =>
      simp only [cancelWith, hc]
      exact ObliviousOf.respond b rfl
  | some client =>
      cases hi : client.lookup i with
      | none =>
          simp only [cancelWith, hc, hi]
          exact ObliviousOf.respond b rfl
      | some p =>
          simp only [cancelWith, hc, hi]
          refine .lift _ fun order => ?_
          refine .ite _ (fun _ => ObliviousOf.respond b rfl) fun _ => ?_
          refine .lift _ fun left => ?_
          refine .ite _ (fun _ => .lift _ fun b' => ?_)
            fun _ => .lift _ fun b' => ?_
          all_goals exact ObliviousOf.publish_respond b' ⟨rfl, trivial⟩ rfl

theorem OrderBook.replaceWith_oblivious
    (j : OrderId) (type : OrderType) (price : Price)
    {k : OrderArgs → OrderBook Lv P × Channel × Quantity →
      Except Fault (OrderBook Lv P × Channel)}
    (hk : ∀ a (s : OrderBook Lv P × Quantity), a.tickerId = t →
      ObliviousOf t Prod.mk fun ch => k a (matched s ch)) :
    ObliviousOf t Prod.mk
      fun ch => b.replaceWith k ch t c i j type price qty token := by
  cases hc : b.orders.lookup c with
  | none =>
      simp only [replaceWith, hc]
      exact ObliviousOf.respond b rfl
  | some client =>
      cases hi : client.lookup i with
      | none =>
          simp only [replaceWith, hc, hi]
          exact ObliviousOf.respond b rfl
      | some p =>
          simp only [replaceWith, hc, hi]
          refine .ite _ (fun _ => ObliviousOf.respond b rfl) fun _ => ?_
          refine .lift _ fun old => .lift _ fun b' => ?_
          exact .bind (matchReplacement_oblivious b' _ _) fun s => hk _ s rfl

end Requests

theorem MapBook.rest_oblivious
    {P : Type} [ObjectPool P] (a : OrderArgs) (s : MapBook P × Quantity) :
    ObliviousOf a.tickerId Prod.mk
      fun ch => rest a (OrderBook.matched s ch) := by
  dsimp only [rest, OrderBook.matched]
  refine .ite (s.2 = 0) (fun _ => .pure s.1) fun _ => ?_
  cases a.orderType with
  | goodTillCancel => exact .lift _ fun b => .pure b
  | fillAndKill => exact ObliviousOf.respond_publish s.1 ⟨rfl, trivial⟩ rfl

theorem VectorBook.rest_oblivious
    {P : Type} [ObjectPool P] (a : OrderArgs) (s : VectorBook P × Quantity) :
    ObliviousOf a.tickerId Prod.mk
      fun ch => rest a (OrderBook.matched s ch) := by
  dsimp only [rest, OrderBook.matched]
  exact .ite (s.2 > 0 ∧ a.orderType = .goodTillCancel)
    (fun _ => .lift _ fun b => .pure b) fun _ => .pure s.1

instance : ObliviousBook MapLevels where
  cancelOrder b t c i qty token :=
    b.cancelWith_oblivious t c i qty token fun canceled _ => canceled
  replaceOrder b t c i j type price qty token :=
    b.replaceWith_oblivious t c i qty token j type price (k := MapBook.rest)
      fun a s ht => ht ▸ MapBook.rest_oblivious a s

instance : ObliviousBook VectorLevels where
  cancelOrder b t c i qty token :=
    b.cancelWith_oblivious t c i qty token fun _ left => left
  replaceOrder b t c i j type price qty token :=
    b.replaceWith_oblivious t c i qty token j type price (k := VectorBook.rest)
      fun a s ht => ht ▸ VectorBook.rest_oblivious a s

/-- **What a request makes a book do does not depend on the channel.** -/
theorem OrderBook.processRequest_oblivious
    {Lv P : Type} [LevelTable Lv] [BookImpl Lv] [ObliviousBook Lv]
    [ObjectPool P] (b : OrderBook Lv P) (r : MEClientRequest) :
    ObliviousOf r.tickerId Prod.mk fun ch => b.processRequest ch r := by
  unfold OrderBook.processRequest
  cases r.action with
  | new => exact addOrder_oblivious ..
  | cancel => exact ObliviousBook.cancelOrder ..
  | modify => exact ObliviousBook.replaceOrder ..

end NanoExchange
