import NanoExchange.Gateway.Sent
import NanoExchange.Lib.Directory

/-!
# What a client knows of its orders

A client sees of the exchange what the messages to it say: that an order has
been accepted or has taken another one's place, how many of its shares have been
executed or canceled, and that a request has been turned down.  A `Reply` is what
a message says, a `ClientView` the orders of a client as it knows them, by their
tokens, and `ClientView.read` what the client makes of a reply.

An `OrderReplaced` message does not name the order that is gone, so the client
has to remember which token it has asked to replace: `replaced` is its memory.

The responses to a request take the view of the orders in a ladder before it to
the view of those after it (`Ladder.step_tells`), whatever is traded, canceled
or replaced; so a client that gives each of its orders a token of its own knows
all of them at any time (`Market.run_tells`).  During a sweep the incoming order
is looked at as if it were resting, with the shares that it still wants.
-/

namespace NanoExchange

open Lib

/-- What is known of an order. -/
structure Working where
  stock : Nat
  side : Side
  price : Price
  shares : Quantity
deriving DecidableEq

/-- An order without shares is gone. -/
def Working.live (w : Working) : Option Working :=
  if w.shares = 0 then none else some w

/-- Some shares of an order are gone. -/
theorem Working.live_bind (w : Working) (q : Quantity) :
    (w.live.bind fun w => live { w with shares := w.shares - q }) =
      live { w with shares := w.shares - q } := by
  unfold live
  by_cases hzero : w.shares = 0
  · simp [hzero]
  · rw [if_neg hzero, Option.bind_some]

def OrderInfo.working (o : OrderInfo) : Working :=
  ⟨o.tickerId, o.side, o.price, o.remainingQuantity⟩

/-- What a message to a client says. -/
inductive Reply where
  | accepted (token : OrderToken) (w : Working)
  /-- The token is that of the replacement. -/
  | replaced (token : OrderToken) (w : Working)
  | executed (token : OrderToken) (shares : Quantity)
  | canceled (token : OrderToken) (shares : Quantity)
  | rejected (token : OrderToken)
deriving DecidableEq

/-- What the message for a response says. -/
def MEClientResponse.reply (x : MEClientResponse) : Reply :=
  match x.status with
  | .accepted => .accepted x.orderToken ⟨x.tickerId, x.side, x.price, x.qty⟩
  | .modified => .replaced x.orderToken ⟨x.tickerId, x.side, x.price, x.qty⟩
  | .executed => .executed x.orderToken x.executedQty
  | .canceled => .canceled x.orderToken x.leavesQty
  | .cancelRejected => .rejected x.orderToken

/-- The orders of a client, by their tokens. -/
abbrev ClientView := OrderToken → Option Working

namespace ClientView

def put (V : ClientView) (token : OrderToken) (w : Working) : ClientView :=
  Function.update V token w.live

/-- An order has lost some shares. -/
def reduce (V : ClientView) (token : OrderToken) (shares : Quantity) :
    ClientView :=
  Function.update V token ((V token).bind fun w =>
    Working.live { w with shares := w.shares - shares })

/-- What a client makes of a reply. -/
def read (replaced : OrderToken → OrderToken) (V : ClientView) :
    Reply → ClientView
  | .accepted token w => V.put token w
  | .replaced token w =>
      ClientView.put (Function.update V (replaced token) none) token w
  | .executed token shares | .canceled token shares => V.reduce token shares
  | .rejected _ => V

end ClientView

/-- The client hears of the responses that are for it. -/
def hear (c : ClientId) (replaced : OrderToken → OrderToken) (V : ClientView)
    (x : MEClientResponse) : ClientView :=
  if x.clientId = c then V.read replaced x.reply else V

/-- The client hears of the responses to some events. -/
def hearAll (c : ClientId) (replaced : OrderToken → OrderToken)
    (V : ClientView) (es : List Event) : ClientView :=
  (es.flatMap (Event.responses Dialect.map)).foldl (hear c replaced) V

/-- The token under which a client knows an order, if it is its own. -/
def OrderInfo.tokenFor (c : ClientId) (o : OrderInfo) : Option OrderToken :=
  if o.clientId = c then some o.orderToken else none

/-- What a client should know of some orders. -/
def clientView (c : ClientId) (l : List OrderInfo) : ClientView :=
  directory (OrderInfo.tokenFor c) (fun o => o.working.live) l

/-- The client can tell its orders apart. -/
def TokensApart (c : ClientId) (l : List OrderInfo) : Prop :=
  (l.filterMap (OrderInfo.tokenFor c)).Nodup

section View

variable {c : ClientId} {replaced : OrderToken → OrderToken} {o : OrderInfo}
  {l l' : List OrderInfo}

theorem TokensApart.perm (h : TokensApart c l) (hperm : l.Perm l') :
    TokensApart c l' :=
  (hperm.filterMap _).nodup_iff.mp h

theorem TokensApart.tail (h : TokensApart c (o :: l)) : TokensApart c l :=
  List.Nodup.sublist ((List.sublist_cons_self o l).filterMap _) h

theorem clientView_perm (hperm : l.Perm l') (h : TokensApart c l) :
    clientView c l = clientView c l' :=
  directory_perm hperm h

theorem clientView_cons_own (h : o.clientId = c) :
    clientView c (o :: l) = (clientView c l).put o.orderToken o.working :=
  directory_cons_listed (if_pos h)

theorem clientView_cons_other (h : o.clientId ≠ c) :
    clientView c (o :: l) = clientView c l :=
  directory_cons_unlisted (if_neg h)

/-- The token of an order is not that of another one. -/
theorem TokensApart.head (h : TokensApart c (o :: l)) (ho : o.clientId = c) :
    clientView c l o.orderToken = none := by
  have htoken : o.tokenFor c = some o.orderToken := if_pos ho
  rw [TokensApart, List.filterMap_cons_some htoken, List.nodup_cons] at h
  exact directory_eq_none h.1

/-- What is known of an order does not depend on the rest of it. -/
theorem clientView_congr
    {o' : OrderInfo} (hclient : o.clientId = o'.clientId)
    (htoken : o.orderToken = o'.orderToken) (hworking : o.working = o'.working)
    (l : List OrderInfo) :
    clientView c (o :: l) = clientView c (o' :: l) := by
  by_cases ho : o.clientId = c
  · rw [clientView_cons_own ho, clientView_cons_own (hclient ▸ ho), htoken,
      hworking]
  · rw [clientView_cons_other ho, clientView_cons_other (hclient ▸ ho)]

/-- An order without shares is not known. -/
theorem clientView_spent
    (h : TokensApart c (o :: l)) (hspent : o.remainingQuantity = 0) :
    clientView c (o :: l) = clientView c l := by
  by_cases ho : o.clientId = c
  · have hlive : o.working.live = none := if_pos hspent
    rw [clientView_cons_own ho, ClientView.put, hlive, ← h.head ho,
      Function.update_eq_self]
  · exact clientView_cons_other ho

variable (replaced)

/-- **An order of which some shares are executed or canceled.** -/
theorem hear_reduces
    {x : MEClientResponse} {q : Quantity} (hclient : x.clientId = o.clientId)
    (hreply : x.reply = .executed o.orderToken q ∨
      x.reply = .canceled o.orderToken q) :
    hear c replaced (clientView c (o :: l)) x =
      clientView c (o.withRemaining (o.remainingQuantity - q) :: l) := by
  have hread : ∀ V : ClientView,
      V.read replaced x.reply = V.reduce o.orderToken q := by
    intro V
    rcases hreply with hreply | hreply <;> rw [hreply] <;> rfl
  by_cases ho : o.clientId = c
  · have hless : (o.working.live.bind fun w =>
        Working.live { w with shares := w.shares - q }) =
          (o.withRemaining (o.remainingQuantity - q)).working.live :=
      o.working.live_bind q
    have ho' : (o.withRemaining (o.remainingQuantity - q)).clientId = c := ho
    rw [hear, if_pos (hclient.trans ho), hread, clientView_cons_own ho,
      clientView_cons_own ho', ClientView.reduce, ClientView.put,
      ClientView.put, Function.update_self, hless, Function.update_idem]
    rfl
  · have ho' : (o.withRemaining (o.remainingQuantity - q)).clientId ≠ c := ho
    rw [hear, if_neg (hclient.trans_ne ho), clientView_cons_other ho,
      clientView_cons_other ho']

/-- A response that turns a request down tells nothing. -/
theorem hear_rejected
    (V : ClientView) {x : MEClientResponse} {token : OrderToken}
    (hreply : x.reply = .rejected token) :
    hear c replaced V x = V := by
  unfold hear
  split_ifs
  · rw [hreply]
    rfl
  · rfl

theorem hearAll_append (V : ClientView) (es es' : List Event) :
    hearAll c replaced V (es ++ es') =
      hearAll c replaced (hearAll c replaced V es) es' := by
  rw [hearAll, List.flatMap_append, List.foldl_append]
  rfl

theorem hearAll_cons (V : ClientView) (e : Event) (es : List Event) :
    hearAll c replaced V (e :: es) =
      hearAll c replaced (hearAll c replaced V [e]) es :=
  hearAll_append replaced V [e] es

/-- The two responses to a fill: the resting order and the incoming one lose the
same shares. -/
theorem hear_filled
    {a : OrderArgs} (h : TokensApart c (a.toInfo :: o :: l))
    (q fill remaining : Quantity) (n : OrderId) :
    hearAll c replaced (clientView c (a.toInfo.withRemaining q :: o :: l))
        [.filled a (o.withRemaining (o.remainingQuantity - fill)) fill
          remaining n] =
      clientView c (a.toInfo.withRemaining (q - fill) ::
        o.withRemaining (o.remainingQuantity - fill) :: l) := by
  let o' := o.withRemaining (o.remainingQuantity - fill)
  have hbefore : TokensApart c (a.toInfo.withRemaining q :: o :: l) := h
  have hswap : TokensApart c (o :: a.toInfo.withRemaining q :: l) :=
    hbefore.perm (.swap o _ l)
  have hafter : TokensApart c (o' :: a.toInfo.withRemaining q :: l) := hswap
  have hresting : hear c replaced
      (clientView c (o :: a.toInfo.withRemaining q :: l))
      (restingResponse a.tickerId o' fill o'.price n) =
        clientView c (o' :: a.toInfo.withRemaining q :: l) :=
    hear_reduces replaced rfl (.inl rfl)
  have hincoming : hear c replaced
      (clientView c (a.toInfo.withRemaining q :: o' :: l))
      (aggressiveResponse a fill o'.price remaining n) =
        clientView c (a.toInfo.withRemaining (q - fill) :: o' :: l) :=
    hear_reduces replaced rfl (.inl rfl)
  show hear c replaced (hear c replaced _
    (restingResponse a.tickerId o' fill o'.price n))
    (aggressiveResponse a fill o'.price remaining n) = _
  rw [clientView_perm (.swap o _ l) hbefore, hresting,
    clientView_perm (.swap _ o' l) hafter, hincoming]

/-- **The responses to a sweep**: `c` hears of the incoming order and of the
orders on the side that it may meet; `ctx` are all the others. -/
theorem sweep_tells
    {R : Price → Prop} [DecidablePred R] {a : OrderArgs} (n : OrderId)
    (q : Quantity) {l ctx : List OrderInfo}
    (h : TokensApart c (a.toInfo :: (l ++ ctx))) :
    hearAll c replaced
        (clientView c (a.toInfo.withRemaining q :: (l ++ ctx)))
        (sweep R a n q l).fills =
      clientView c (a.toInfo.withRemaining (sweep R a n q l).remaining ::
        ((sweep R a n q l).resting ++ ctx)) ∧
    TokensApart c (a.toInfo :: ((sweep R a n q l).resting ++ ctx)) := by
  refine sweep_invariant (R := R) (a := a)
    (fun es q' l' =>
      hearAll c replaced
          (clientView c (a.toInfo.withRemaining q :: (l ++ ctx))) es =
        clientView c (a.toInfo.withRemaining q' :: (l' ++ ctx)) ∧
      TokensApart c (a.toInfo :: (l' ++ ctx))) ?_ ?_ [] n ⟨rfl, h⟩
  · rintro es n q' o l' - - ⟨htold, hapart⟩
    rw [List.cons_append] at htold hapart
    have hfilled := hear_filled replaced hapart q'
      o.remainingQuantity (q' - o.remainingQuantity) n
    have hswap : TokensApart c (o :: a.toInfo :: (l' ++ ctx)) :=
      hapart.perm (.swap o a.toInfo (l' ++ ctx))
    have hspent : TokensApart c (o.withRemaining 0 ::
        a.toInfo.withRemaining (q' - o.remainingQuantity) :: (l' ++ ctx)) :=
      hswap
    have hbefore : TokensApart c (a.toInfo.withRemaining
        (q' - o.remainingQuantity) :: o.withRemaining 0 :: (l' ++ ctx)) :=
      hapart
    rw [Nat.sub_self] at hfilled
    refine ⟨?_, hspent.tail⟩
    rw [hearAll_append, htold, hfilled,
      clientView_perm (.swap (o.withRemaining 0) _ _) hbefore,
      clientView_spent hspent rfl]
  · rintro es n q' o l' - - ⟨htold, hapart⟩
    rw [List.cons_append] at htold hapart
    have hfilled := hear_filled replaced hapart q' q' 0 n
    rw [Nat.sub_self] at hfilled
    refine ⟨?_, hapart⟩
    rw [hearAll_append, htold, hfilled]
    rfl

/-- A new order is acknowledged. -/
theorem hear_accepted (a : OrderArgs) (l : List OrderInfo) :
    hear c replaced (clientView c l) (acceptedResponse a) =
      clientView c (a.toInfo :: l) := by
  by_cases ha : a.clientId = c
  · have ha' : a.toInfo.clientId = c := ha
    rw [hear, if_pos (by exact ha), clientView_cons_own ha']
    rfl
  · have ha' : a.toInfo.clientId ≠ c := ha
    rw [hear, if_neg (by exact ha), clientView_cons_other ha']

/-- A replacement is acknowledged. -/
theorem hear_modified
    {a : OrderArgs} (h : TokensApart c (o :: l))
    (hclient : o.clientId = a.clientId)
    (hreplaced : a.clientId = c → replaced a.orderToken = o.orderToken) :
    hear c replaced (clientView c (o :: l)) (modifiedResponse a) =
      clientView c (a.toInfo :: l) := by
  by_cases ha : a.clientId = c
  · have ha' : a.toInfo.clientId = c := ha
    have ho : o.clientId = c := hclient.trans ha
    have hgone : Function.update (clientView c (o :: l)) o.orderToken none =
        clientView c l := by
      rw [clientView_cons_own ho, ClientView.put, Function.update_idem,
        ← h.head ho, Function.update_eq_self]
    rw [hear, if_pos (by exact ha), clientView_cons_own ha']
    show ClientView.put (Function.update _ (replaced a.orderToken) none)
      a.orderToken a.toInfo.working = _
    rw [hreplaced ha, hgone]
    rfl
  · have ha' : a.toInfo.clientId ≠ c := ha
    have ho : o.clientId ≠ c := hclient.trans_ne ha
    rw [hear, if_neg (by exact ha), clientView_cons_other ha',
      clientView_cons_other ho]

/-- An order under a token that is not in use. -/
theorem TokensApart.cons
    (h : TokensApart c l)
    (hnew : ∀ t, o.tokenFor c = some t →
      t ∉ l.filterMap (OrderInfo.tokenFor c)) :
    TokensApart c (o :: l) := by
  unfold TokensApart at *
  cases ho : o.tokenFor c with
  | none => rwa [List.filterMap_cons_none ho]
  | some t =>
      rw [List.filterMap_cons_some ho]
      exact List.nodup_cons.mpr ⟨hnew t ho, h⟩

/-- Taking orders or shares away leaves the tokens apart. -/
theorem TokensApart.trims
    {ctx : List OrderInfo} (h : TokensApart c (l ++ ctx))
    (htrims : Trims l l') : TokensApart c (l' ++ ctx) := by
  have hterms : ∀ k : List OrderInfo,
      (k.map OrderInfo.terms).filterMap (OrderInfo.tokenFor c) =
        k.filterMap (OrderInfo.tokenFor c) :=
    fun k => List.filterMap_map
  have hsub := htrims.sub.filterMap (OrderInfo.tokenFor c)
  rw [hterms, hterms] at hsub
  unfold TokensApart at *
  rw [List.filterMap_append] at h ⊢
  exact h.sublist (hsub.append_right _)

end View

/-- The token that a request of the client brings. -/
def MEClientRequest.newToken (c : ClientId) (r : MEClientRequest) :
    Option OrderToken :=
  if r.clientId = c ∧ r.action ≠ .cancel then some r.orderToken else none

theorem MEClientRequest.newToken_of_ne
    {r : MEClientRequest} (h : r.action ≠ .cancel) (c : ClientId) :
    r.newToken c = if r.clientId = c then some r.orderToken else none := by
  simp [newToken, h]

/-- What the client remembers of a replacement is the token of the order that
the request names. -/
def Remembers (c : ClientId) (replaced : OrderToken → OrderToken) (A : Ladder)
    (r : MEClientRequest) : Prop :=
  r.clientId = c → r.action = .modify →
    ∀ old, A.find? (r.clientId, r.clientOrderId) = some old →
      replaced r.orderToken = old.orderToken

namespace Ladder

variable {c : ClientId} (replaced : OrderToken → OrderToken) {A : Ladder}
  {ctx : List OrderInfo}

/-- The responses to the fills of an incoming order. -/
theorem swept_tells
    (n : OrderId) {a : OrderArgs}
    (h : TokensApart c (a.toInfo :: (A.orders ++ ctx))) :
    hearAll c replaced (clientView c (a.toInfo :: (A.orders ++ ctx)))
        (A.sweepBy n a).fills =
      clientView c (a.toInfo.withRemaining (A.sweepBy n a).remaining ::
        ((A.swept n a).orders ++ ctx)) ∧
    TokensApart c (a.toInfo :: ((A.swept n a).orders ++ ctx)) := by
  have hperm : ∀ B : Ladder, (B.orders ++ ctx).Perm
      (B.side a.side.opposite ++ (B.side a.side ++ ctx)) := by
    intro B
    rw [← List.append_assoc]
    exact (B.orders_perm a.side).append_right ctx
  have hbefore := hperm A
  have hafter := hperm (A.swept n a)
  rw [swept_side_opposite, swept_side_self] at hafter
  obtain ⟨htold, hleft⟩ := sweep_tells replaced (R := a.side.crosses a.price)
    n a.initialQuantity (h.perm (hbefore.cons _))
  have hleft' : TokensApart c
      (a.toInfo.withRemaining (A.sweepBy n a).remaining ::
        ((A.sweepBy n a).resting ++ (A.side a.side ++ ctx))) := hleft
  refine ⟨?_, hleft.perm (hafter.symm.cons _)⟩
  rw [clientView_perm (hbefore.cons _) h]
  exact htold.trans (clientView_perm (hafter.symm.cons _) hleft')

/-- The responses to an order that is entered, when it is known already. -/
theorem enter_tells
    (n : OrderId) (replacing : Bool) {a : OrderArgs}
    (h : TokensApart c (a.toInfo :: (A.orders ++ ctx))) :
    hearAll c replaced (clientView c (a.toInfo :: (A.orders ++ ctx)))
        (A.enter n replacing a).events =
      clientView c ((A.enter n replacing a).ladder.orders ++ ctx) ∧
    TokensApart c ((A.enter n replacing a).ladder.orders ++ ctx) := by
  obtain ⟨htold, hleft⟩ := swept_tells replaced n h
  have hspent : clientView c (a.toInfo.withRemaining 0 ::
      ((A.swept n a).orders ++ ctx)) =
        clientView c ((A.swept n a).orders ++ ctx) :=
    clientView_spent (by exact hleft) rfl
  rcases A.enter_cases n replacing a with
    ⟨hrem, heq⟩ | ⟨-, -, heq⟩ | ⟨-, -, heq⟩
  · rw [heq]
    rw [hrem, hspent] at htold
    exact ⟨htold, hleft.tail⟩
  · rw [heq]
    have hperm := ((A.swept n a).insert_orders_perm
      { a with initialQuantity := (A.sweepBy n a).remaining }.toInfo
      ).append_right ctx
    have hrests : TokensApart c
        ({ a with initialQuantity := (A.sweepBy n a).remaining }.toInfo ::
          ((A.swept n a).orders ++ ctx)) := hleft
    refine ⟨?_, hrests.perm hperm.symm⟩
    have hsilent : ∀ V : ClientView, hearAll c replaced V
        [.rested replacing a (A.sweepBy n a).remaining] = V := by
      intro V
      cases replacing <;> rfl
    dsimp only
    rw [hearAll_append, htold, hsilent,
      clientView_perm hperm (hrests.perm hperm.symm), List.cons_append]
    exact clientView_congr (by rfl) (by rfl) (by rfl) _
  · rw [heq]
    have hkilled : hearAll c replaced
        (clientView c (a.toInfo.withRemaining (A.sweepBy n a).remaining ::
          ((A.swept n a).orders ++ ctx)))
        [.killed replacing a (A.sweepBy n a).remaining] =
          clientView c (a.toInfo.withRemaining 0 ::
            ((A.swept n a).orders ++ ctx)) := by
      have hreduced := hear_reduces replaced (c := c)
        (o := a.toInfo.withRemaining (A.sweepBy n a).remaining)
        (l := (A.swept n a).orders ++ ctx)
        (x := killedResponse a (A.sweepBy n a).remaining)
        (q := (A.sweepBy n a).remaining) rfl (.inr rfl)
      rw [OrderInfo.withRemaining_remaining, Nat.sub_self] at hreduced
      cases replacing <;> exact hreduced
    dsimp only
    rw [hearAll_append, htold, hkilled, hspent]
    exact ⟨rfl, hleft.tail⟩

/-- **The responses to an incoming order**, which is acknowledged first. -/
theorem acknowledged_tells
    {V : ClientView} {e : Event} {a : OrderArgs} (n : OrderId)
    (replacing : Bool)
    (hack : hearAll c replaced V [e] =
      clientView c (a.toInfo :: (A.orders ++ ctx)))
    (h : TokensApart c (a.toInfo :: (A.orders ++ ctx))) :
    hearAll c replaced V (e :: (A.enter n replacing a).events) =
      clientView c ((A.enter n replacing a).ladder.orders ++ ctx) ∧
    TokensApart c ((A.enter n replacing a).ladder.orders ++ ctx) := by
  rw [hearAll_cons, hack]
  exact enter_tells replaced n replacing h

/-- The response to a withdrawal. -/
theorem withdraw_tells
    (hwf : A.WF) {o : OrderInfo} (ho : o ∈ A.orders) (tickerId : TickerId)
    (qty : Quantity) (h : TokensApart c (A.orders ++ ctx)) :
    hearAll c replaced (clientView c (A.orders ++ ctx))
        [.canceled tickerId o qty] =
      clientView c ((A.withdraw o qty).orders ++ ctx) := by
  obtain ⟨l₁, l₂, heq, herase, hset⟩ := orders_split hwf ho
  have hperm : ∀ x, (l₁ ++ x :: l₂ ++ ctx).Perm (x :: (l₁ ++ l₂ ++ ctx)) :=
    fun x => List.perm_middle.append_right ctx
  rw [heq] at h
  have hapart : TokensApart c (o :: (l₁ ++ l₂ ++ ctx)) := h.perm (hperm o)
  have hleft : ∀ q, TokensApart c (o.withRemaining q :: (l₁ ++ l₂ ++ ctx)) :=
    fun _ => hapart
  have hreduced : hear c replaced (clientView c (o :: (l₁ ++ l₂ ++ ctx)))
      (canceledResponse tickerId o.clientId o.clientOrderId o qty) =
        clientView c (o.withRemaining (o.remainingQuantity - qty) ::
          (l₁ ++ l₂ ++ ctx)) :=
    hear_reduces replaced rfl (.inr rfl)
  rw [heq, clientView_perm (hperm o) h]
  refine hreduced.trans ?_
  unfold withdraw
  split_ifs with hzero
  · rw [herase]
    exact clientView_spent (hleft _) hzero
  · rw [hset]
    exact clientView_perm (hperm _).symm (hleft _)

/-- **The responses to a request take the view of the orders before it to the
view of those after it**, if the token of the order that it brings is not in use
and the client remembers which order it has asked to replace. -/
theorem step_tells
    (hwf : A.WF) (n : OrderId) {r : MEClientRequest}
    (h : TokensApart c (A.orders ++ ctx))
    (hnew : ∀ t, r.newToken c = some t →
      t ∉ (A.orders ++ ctx).filterMap (OrderInfo.tokenFor c))
    (hremembers : Remembers c replaced A r) :
    hearAll c replaced (clientView c (A.orders ++ ctx)) (A.step n r).events =
      clientView c ((A.step n r).ladder.orders ++ ctx) ∧
    TokensApart c ((A.step n r).ladder.orders ++ ctx) := by
  rcases A.step_shapes n r with
    ⟨e, -, heq, he⟩ | ⟨o, -, hfind, -, heq⟩ | ⟨haction, heq⟩ |
      ⟨old, haction, hfind, -, heq⟩
  · rw [heq]
    refine ⟨?_, h⟩
    rcases he with rfl | ⟨o, -, rfl⟩
    · exact hear_rejected replaced _
        (x := rejectedResponse _ _ _ r.orderToken) rfl
    · exact hear_rejected replaced _ (x := excessiveResponse _ _ _ o) rfl
  · rw [heq]
    obtain ⟨ho, -⟩ := mem_of_find? hfind
    exact ⟨withdraw_tells replaced hwf ho r.tickerId _ h,
      h.trims (trims_withdraw hwf ho _).orders⟩
  · rw [heq]
    have hapart : TokensApart c ((A.newArgs r).toInfo ::
        (A.bump.orders ++ ctx)) :=
      h.cons fun t ht => hnew t (by
        rw [MEClientRequest.newToken_of_ne (by rw [haction]; nofun)]
        exact ht)
    exact acknowledged_tells replaced n false
      (hear_accepted replaced (A.newArgs r) (A.bump.orders ++ ctx)) hapart
  · rw [heq]
    obtain ⟨ho, hkey⟩ := mem_of_find? hfind
    obtain ⟨l₁, l₂, horders, herase, -⟩ := orders_split hwf ho
    have hperm : (A.orders ++ ctx).Perm
        (old :: ((A.erase old.key).bump.orders ++ ctx)) := by
      show List.Perm _ (old :: ((A.erase old.key).orders ++ ctx))
      rw [horders, herase]
      exact List.perm_middle.append_right ctx
    have hclient : old.clientId = r.clientId := (Prod.ext_iff.mp hkey).1
    have hapart : TokensApart c ((A.replacementArgs r old.side).toInfo ::
        ((A.erase old.key).bump.orders ++ ctx)) := by
      refine (h.perm hperm).tail.cons fun t ht hmem => hnew t ?_ ?_
      · rw [MEClientRequest.newToken_of_ne (by rw [haction]; nofun)]
        exact ht
      · refine (hperm.filterMap _).mem_iff.mpr ?_
        exact ((List.sublist_cons_self old _).filterMap _).subset hmem
    have hmodified := hear_modified replaced
      (a := A.replacementArgs r old.side) (h.perm hperm) hclient
      fun hc => hremembers hc haction old hfind
    rw [clientView_perm hperm h]
    exact acknowledged_tells replaced n true hmodified hapart

end Ladder

/-- The order that a request brings has the token of the request. -/
theorem MEClientRequest.Brings.newToken
    {r : MEClientRequest} {o : OrderInfo} (h : r.Brings o) (c : ClientId) :
    r.newToken c = o.tokenFor c := by
  have hid := h.identity
  have hne : r.action ≠ .cancel := by
    intro hcancel
    simp [newIdentity, newKey, hcancel] at hid
  obtain ⟨hkey, htoken, hclient⟩ := newKey_of_newIdentity hid
  have htoken' : o.orderToken = r.orderToken := htoken
  have hclient' : o.clientId = r.clientId := hclient
  rw [newToken_of_ne hne, OrderInfo.tokenFor, htoken', hclient']

namespace Market

variable {c : ClientId} (replaced : OrderToken → OrderToken) {n : Nat}
  {rs : List MEClientRequest}

/-- The orders that rest in the first `n` books. -/
def orders (M : Market) (n : Nat) : List OrderInfo :=
  (List.range n).flatMap fun t => (M.ladder t).orders

theorem mem_orders {M : Market} {o : OrderInfo} :
    o ∈ M.orders n ↔ ∃ t, t < n ∧ o ∈ (M.ladder t).orders := by
  simp [orders]

/-- The orders before and after a request: those of its book, and the
others. -/
theorem orders_next
    (M : Market) {r : MEClientRequest} (hticker : r.tickerId < n) :
    ∃ ctx, (M.orders n).Perm ((M.ladder r.tickerId).orders ++ ctx) ∧
      ((M.next r).orders n).Perm ((M.respond r).ladder.orders ++ ctx) := by
  obtain ⟨l₁, l₂, heq⟩ := List.append_of_mem (List.mem_range.mpr hticker)
  have hnodup : (l₁ ++ r.tickerId :: l₂).Nodup := heq ▸ List.nodup_range
  rw [List.nodup_middle, List.nodup_cons] at hnodup
  have hsplit : ∀ M' : Market, (M'.orders n).Perm
      ((M'.ladder r.tickerId).orders ++
        (l₁ ++ l₂).flatMap fun t => (M'.ladder t).orders) := by
    intro M'
    rw [orders, heq, List.flatMap_append, List.flatMap_cons,
      List.flatMap_append]
    exact List.perm_append_comm_assoc _ _ _
  have hothers : ((l₁ ++ l₂).flatMap fun t => ((M.next r).ladder t).orders) =
      (l₁ ++ l₂).flatMap fun t => (M.ladder t).orders := by
    refine List.flatMap_congr fun t ht => ?_
    rw [next_ladder_of_ne M fun e => hnodup.1 (e ▸ ht)]
  have hnext := hsplit (M.next r)
  rw [next_ladder_self, hothers] at hnext
  exact ⟨_, hsplit M, hnext⟩

/-- **A client that hears of all responses to it knows its orders**, if it gives
each of them a token of its own and remembers what it has asked to replace. -/
theorem run_tells
    (hfresh : FreshKeys rs) (htickers : TickersInRange n rs)
    (hdistinct : (rs.filterMap (MEClientRequest.newToken c)).Nodup)
    (hremembers : EachStep (Remembers c replaced) rs) :
    ((run rs).sent Dialect.map).responses.foldl (hear c replaced)
        (fun _ => none) = clientView c ((run rs).orders n) ∧
      TokensApart c ((run rs).orders n) := by
  induction rs using List.reverseRecOn with
  | nil =>
      have hnone : (run []).orders n = [] :=
        List.flatMap_eq_nil_iff.mpr fun t ht => rfl
      rw [hnone]
      exact ⟨rfl, List.nodup_nil⟩
  | append_singleton rs r ih =>
      have hfresh' : FreshKeys rs := hfresh.left
      rw [List.filterMap_append] at hdistinct
      obtain ⟨hdistinct', -, hother⟩ := List.nodup_append.mp hdistinct
      obtain ⟨htold, hapart⟩ := ih hfresh'
        (fun r' hr' => htickers r' (List.mem_append_left _ hr')) hdistinct'
        (by
          rintro pre r' post rfl
          exact hremembers pre r' (post ++ [r]) (by simp))
      obtain ⟨ctx, hbefore, hafter⟩ :=
        (run rs).orders_next (htickers r (by simp))
      have hnew : ∀ t, r.newToken c = some t →
          t ∉ (((run rs).ladder r.tickerId).orders ++ ctx).filterMap
            (OrderInfo.tokenFor c) := by
        intro t ht hmem
        rw [← (hbefore.filterMap _).mem_iff, List.mem_filterMap] at hmem
        obtain ⟨o, ho, hto⟩ := hmem
        obtain ⟨t', -, ho⟩ := mem_orders.mp ho
        obtain ⟨r', hr', hbrings, -⟩ := run_brings hfresh' ho
        refine hother t (List.mem_filterMap.mpr ⟨r', hr', ?_⟩) t ?_ rfl
        · rw [hbrings.newToken, hto]
        · simp [ht]
      obtain ⟨hstep, hstep'⟩ := Ladder.step_tells replaced
        (run_wf hfresh' r.tickerId) (run rs).matchIds (hapart.perm hbefore)
        hnew (hremembers rs r [] rfl)
      refine ⟨?_, hstep'.perm ?_⟩
      · rw [run_append, sent_responses, next, List.flatMap_append,
          ← sent_responses, List.foldl_append, htold,
          clientView_perm hbefore hapart]
        exact hstep.trans (clientView_perm hafter.symm hstep')
      · rw [run_append]
        exact hafter.symm

/-- **What the client knows then**: its resting orders, and nothing else. -/
theorem clientView_orders
    (hfresh : FreshKeys rs) (hapart : TokensApart c ((run rs).orders n))
    {token : OrderToken} {w : Working} :
    clientView c ((run rs).orders n) token = some w ↔
      ∃ t o, t < n ∧ o ∈ ((run rs).ladder t).orders ∧ o.clientId = c ∧
        o.orderToken = token ∧ o.working = w := by
  have htoken : ∀ o : OrderInfo, o.tokenFor c = some token ↔
      o.clientId = c ∧ o.orderToken = token := by
    intro o
    unfold OrderInfo.tokenFor
    split_ifs with ho <;> simp [ho]
  have hlive : ∀ o ∈ (run rs).orders n, o.working.live = some o.working := by
    intro o ho
    obtain ⟨t, -, ho⟩ := mem_orders.mp ho
    exact if_neg ((run_wf hfresh t).quantity o ho).1.ne'
  rw [clientView, directory_eq_some hapart]
  constructor
  · rintro ⟨o, ho, hkey, hval⟩
    rw [hlive o ho] at hval
    obtain ⟨hclient, htok⟩ := (htoken o).mp hkey
    obtain ⟨t, ht, ho⟩ := mem_orders.mp ho
    exact ⟨t, o, ht, ho, hclient, htok, Option.some.inj hval⟩
  · rintro ⟨t, o, ht, ho, hclient, htok, rfl⟩
    have ho' : o ∈ (run rs).orders n := mem_orders.mpr ⟨t, ht, ho⟩
    exact ⟨o, ho', (htoken o).mpr ⟨hclient, htok⟩, hlive o ho'⟩

end Market

end NanoExchange
