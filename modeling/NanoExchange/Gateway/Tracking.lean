import NanoExchange.Gateway.Departed
import NanoExchange.Gateway.ReplyMessages

/-!
# A client follows its orders

The other end of a connection.  A client cuts the bytes that it receives into
messages, reads each of them and keeps a view of its orders.

Which order a replacement has replaced is known from the request only.  The
gateway resolves the existing token of a REPLACE_ORDER when it decodes the
message, and the engine looks the order up when it takes the request; `Resolved`
says that the order found then has the token that the message names.

So the messages on the connection of a client, and those that wait to be sent,
tell it its resting orders (`client_follows_orders`).
-/

namespace NanoExchange

open Lib

/-- A decoded replacement names the slot of the order whose token is in the
message. -/
theorem OuchLayout.decodeOuch_modify
    {L : OuchLayout} {data : List UInt8} {c : ClientId}
    {m : OrderTokenManager} (hm : m.Sound) {r : MEClientRequest}
    (h : (L.decodeOuch data c m).1 = some r) (hmodify : r.action = .modify) :
    (L.decodeOuch data c m).2.Holds r.clientOrderId
      ⟨tokenAt data L.replaceExistingToken, r.tickerId, r.clientId⟩ := by
  rcases L.decodeOuch_cases data c hm with
    heq | ⟨r', -, heq, -, haction, -⟩ | ⟨r', -, heq, haction, -⟩ |
      ⟨r', -, heq, -, -, hclient, hid, hne, -, -, hticker⟩ <;> rw [heq] at h ⊢
  · cases h
  · obtain rfl := Option.some.inj h
    cases hmodify.symm.trans haction
  · obtain rfl := Option.some.inj h
    cases hmodify.symm.trans haction
  · obtain rfl := Option.some.inj h
    rw [hticker, hclient, hid]
    exact (hm.holds_getID (hid ▸ hne)).registerNewToken _ _ _

namespace OrderServer

variable {L : OuchLayout} {env : Surroundings} {s s' : OrderServer}

/-- The replacements that have been decoded name the slots of the orders whose
tokens are in their messages. -/
def NamesExisting (L : OuchLayout) (s : OrderServer) : Prop :=
  ∀ x ∈ s.decoded, x.request.action = .modify →
    s.tokenManager.Holds x.request.clientOrderId
      ⟨tokenAt x.message L.replaceExistingToken, x.request.tickerId,
        x.request.clientId⟩

theorem NamesExisting.recv
    (h : NamesExisting L s) (hfits : s.fifo.Fits)
    (htokens : s.tokenManager.Sound) {fd : Nat} {bytes : List UInt8}
    {kernelTime : Nat}
    (hs' : s.step L env (.recv fd bytes kernelTime) = .ok s') :
    NamesExisting L s' := by
  let I : OrderServer → Prop := fun t =>
    t.fifo.Fits ∧ t.tokenManager.Sound ∧ NamesExisting L t
  have hsockets : ∀ t t', SameRequests t t' → I t → I t' := by
    rintro t t' hsame ⟨hfits, htokens, hnames⟩
    refine ⟨hsame.fifo ▸ hfits, hsame.tokenManager ▸ htokens, ?_⟩
    unfold NamesExisting
    rw [hsame.decoded, hsame.tokenManager]
    exact hnames
  have hmessage : ∀ t message, I t →
      ∃ t', t.onMessage L env (s.clientOf fd) kernelTime message = .ok t' ∧
        I t' := by
    rintro t message ⟨hfits, htokens, hnames⟩
    obtain ⟨hsound, hholds, -⟩ :=
      L.decodeOuch_registers message (s.clientOf fd) htokens
    rcases onMessage_cases env L hfits (s.clientOf fd) kernelTime message with
      ⟨t', ht', -, rfl⟩ | ⟨t', r, capacity, ht', hr, rfl, hfits', -⟩
    · exact ⟨_, ht', hfits, hsound,
        fun x hx hmodify => hholds _ _ (hnames x hx hmodify)⟩
    · refine ⟨_, ht', hfits', hsound, fun x hx hmodify => ?_⟩
      rcases List.mem_append.mp hx with hx | hx
      · exact hholds _ _ (hnames x hx hmodify)
      · obtain rfl := List.mem_singleton.mp hx
        exact OuchLayout.decodeOuch_modify htokens hr hmodify
  obtain ⟨t, ht, -, -, hnames⟩ :=
    recv_invariant I hsockets hmessage ⟨hfits, htokens, h⟩ bytes
  obtain rfl := Except.ok.inj (ht.symm.trans hs')
  exact hnames

end OrderServer

namespace Exchange

variable {P : Type} [ObjectPool P] {n : Nat} {L : OuchLayout}
  {R : OuchReplies} {env : Surroundings} {e e' : Exchange P}

/-- **The engine takes the decoded requests, and replacements name what their
messages name.** -/
structure Resolved (L : OuchLayout) (e : Exchange P) : Prop where
  taken : e.desk.processed = e.server.handled.map RecvClientRequest.request
  names : e.server.NamesExisting L

namespace Resolved

omit [ObjectPool P] in
theorem of_same
    (h : Resolved L e) (hanswers : e'.answers = e.answers)
    (hsame : OrderServer.SameRequests e.server e'.server) :
    Resolved L e' where
  taken := by
    rw [hsame.handled, ← h.taken]
    exact congrArg (List.map Prod.fst) hanswers
  names := by
    unfold OrderServer.NamesExisting
    rw [hsame.decoded, hsame.tokenManager]
    exact h.names

/-- **Every step keeps it.** -/
theorem step
    (h : Resolved L e) (hinv : Inv n e) {i : ExchangeInput}
    (he' : e.step L R env i = .ok e') : Resolved L e' := by
  have htied : Desk.Tied n e.desk := hinv.works.tied
  cases i with
  | recv fd bytes kernelTime =>
      obtain ⟨s, hs, rfl⟩ := onRecv_ok he'
      refine ⟨?_, h.names.recv hinv.works.fits htied.tokens hs⟩
      rw [OrderServer.recv_handled hinv.works.fits hs]
      exact h.taken
  | publish =>
      obtain rfl := Except.ok.inj he'
      exact ⟨h.taken, h.names⟩
  | disconnect fd =>
      obtain rfl := Except.ok.inj he'
      exact h.of_same rfl (OrderServer.onDisconnect_sameRequests e.server fd)
  | process =>
      rcases process_cases he' with
        ⟨-, rfl⟩ | ⟨x, q, engine, responses, -, -, -, rfl⟩
      · exact h
      · refine ⟨?_, h.names⟩
        have htaken : e.answers.map Prod.fst =
            e.server.handled.map RecvClientRequest.request := h.taken
        show (e.answers ++ [(x.request, responses)]).map Prod.fst =
          (e.server.handled ++ [x]).map RecvClientRequest.request
        rw [List.map_append, List.map_append, htaken]
        rfl
  | drain clock =>
      obtain rfl := Except.ok.inj he'
      obtain ⟨outbound, more, heq, -⟩ :=
        deliverAll_eq (R := R) clock 0 e.responseQ e
      unfold drainResponses
      rw [heq]
      exact ⟨h.taken, h.names⟩

end Resolved

variable {books poolSize fifoPending tokenPoolSz : Nat}

theorem run_resolved
    {inputs : List ExchangeInput}
    (he : run L R env P books poolSize fifoPending tokenPoolSz inputs =
      .ok e) : Resolved L e := by
  induction inputs using List.reverseRecOn generalizing e with
  | nil =>
      obtain rfl := Except.ok.inj he
      exact ⟨rfl, nofun⟩
  | append_singleton inputs i ih =>
      obtain ⟨e₀, he₀, hlast⟩ := foldlM_append_ok he
      have hstep : e₀.step L R env i = .ok e := by
        simpa using hlast
      exact (ih he₀).step (run_inv he₀).1 hstep

/-- **What a client has to do** to follow its orders: give each of them a token
of its own, and remember which token it has asked to replace. -/
structure Careful (L : OuchLayout) (c : ClientId)
    (replaced : OrderToken → OrderToken) (e : Exchange P) : Prop where
  distinct : ((e.server.decoded.map RecvClientRequest.request).filterMap
    (MEClientRequest.newToken c)).Nodup
  remembers : ∀ x ∈ e.server.decoded, x.request.clientId = c →
    x.request.action = .modify →
      replaced x.request.orderToken = tokenAt x.message L.replaceExistingToken

namespace Careful

variable {c : ClientId} {replaced : OrderToken → OrderToken}

/-- The tokens of the orders that the engine has got are distinct. -/
theorem processed_distinct
    (h : Careful L c replaced e) (hinv : Inv n e) (hres : Resolved L e) :
    (e.desk.processed.filterMap (MEClientRequest.newToken c)).Nodup := by
  have hperm := (hinv.works.conserved.map RecvClientRequest.request).filterMap
    (MEClientRequest.newToken c)
  have hnodup := hperm.nodup_iff.mpr h.distinct
  rw [List.map_append, ← hres.taken, List.filterMap_append] at hnodup
  exact hnodup.of_append_left

/-- The order that a replacement finds has the token that its client
remembers. -/
theorem eachStep
    (h : Careful L c replaced e) (hinv : Inv n e) (hres : Resolved L e)
    (hrec : Recorded L e) :
    Market.EachStep (Remembers c replaced) e.desk.processed := by
  have htied : Desk.Tied n e.desk := hinv.works.tied
  intro pre r post hsplit hclient hmodify old hfind
  have hr : r ∈ e.desk.processed := by
    rw [hsplit]
    exact List.mem_append_right _ List.mem_cons_self
  obtain ⟨p, hp, rfl⟩ := List.mem_map.mp hr
  obtain ⟨x, hx, hrequest⟩ := hrec.answered p hp
  rw [← hrequest] at hclient hmodify hfind ⊢
  have hnamed : e.desk.tokens.Holds x.request.clientOrderId _ :=
    hres.names x hx hmodify
  -- the order that is found has been registered too
  obtain ⟨hold, hkey⟩ := Ladder.mem_of_find? hfind
  have hpre : FreshKeys pre := by
    have hfresh := hinv.freshKeys
    rw [hsplit] at hfresh
    exact hfresh.left
  obtain ⟨r', hr', hbrings, -⟩ := Market.run_brings hpre hold
  have hregistered := htied.requests r' (by
    rw [hsplit]
    simp [hr'])
  have hslot := (hregistered.newIdentity hbrings.identity).slot
  have hid : old.clientOrderId = x.request.clientOrderId :=
    (Prod.ext_iff.mp hkey).2
  have htoken : old.identity.2.1 = x.request.clientOrderId := hid
  rw [htoken, hnamed.slot] at hslot
  rw [h.remembers x hx hclient hmodify]
  exact congrArg TokenInfo.token hslot

end Careful

end Exchange

/-- What a client makes of a message. -/
def OuchReplies.readMessage (R : OuchReplies)
    (replaced : OrderToken → OrderToken) (V : ClientView)
    (message : List UInt8) : ClientView :=
  match R.decodeReply message with
  | some reply => V.read replaced reply
  | none => V

/-- **From the messages for its responses a client learns what the responses
say.** -/
theorem OuchReplies.Encodes.read
    {R : OuchReplies} {size : UInt8 → Nat} {l : List MEClientResponse}
    {ms : List (List UInt8)} (h : R.Encodes l ms) (hsize : R.Readable size)
    (htypes : Function.Injective R.typeByte)
    (hfits : ∀ x ∈ l, x.reply.Fits) (replaced : OrderToken → OrderToken)
    (V : ClientView) :
    ms.foldl (R.readMessage replaced) V =
      l.foldl (fun V x => V.read replaced x.reply) V := by
  induction h with
  | nil => rfl
  | concat h x now ih =>
      obtain ⟨hl, hx⟩ := List.forall_mem_append.mp hfits
      have hdecoded := decodeReply_encodeOuch hsize htypes
        (hx x List.mem_cons_self) now
      rw [List.foldl_append, List.foldl_append, ih hl, List.foldl_cons,
        List.foldl_nil, List.foldl_cons, List.foldl_nil, readMessage,
        hdecoded]

/-- A client hears of the responses to it only. -/
theorem foldl_hear
    (c : ClientId) (replaced : OrderToken → OrderToken)
    (l : List MEClientResponse) (V : ClientView) :
    l.foldl (hear c replaced) V =
      (Exchange.ofClient c l).foldl
        (fun V x => V.read replaced x.reply) V := by
  rw [Exchange.ofClient, List.foldl_filter]
  simp only [decide_eq_true_eq]
  rfl

namespace Exchange

variable {P : Type} [ObjectPool P] {L : OuchLayout} {R : OuchReplies}
  {env : Surroundings} {books poolSize fifoPending tokenPoolSz : Nat}
  {inputs : List ExchangeInput} {e : Exchange P} {size : UInt8 → Nat}
  {fd : Nat} {c : ClientId} {replaced : OrderToken → OrderToken}

/-- **A connected client can follow its orders**, in every run in which at most
`2^64` connections have got a client id.  It reads the messages that have been
put on its socket; with the responses that wait in the queue it knows the orders
of its own that rest in the books, and no others: their stock, side, price and
remaining shares. -/
theorem client_follows_orders
    (he : run L R env P books poolSize fifoPending tokenPoolSz inputs =
      .ok e)
    (hbooks : books ≤ wordSize) (hcount : e.registered.length ≤ wordSize)
    (K : L.PackedFields) (hsize : R.Readable size)
    (htypes : Function.Injective R.typeByte)
    (hfd : e.server.fdToClientId fd = some c)
    (hclient : Careful L c replaced e) :
    ∃ messages, Framing.frames size (e.outbound fd) = (messages, []) ∧
      ∀ token w,
        e.responseQ.foldl (hear c replaced)
            (messages.foldl (R.readMessage replaced) fun _ => none) token =
          some w ↔
        ∃ t o, e.desk.Resting t o ∧ o.clientId = c ∧ o.orderToken = token ∧
          o.working = w := by
  have hinv := (run_inv he).1
  have hrec := run_recorded he
  have hres := run_resolved he
  have htied : Desk.Tied books e.desk := hinv.works.tied
  have htickers := run_tickers he
  obtain ⟨popped, hkeeps⟩ := run_keeps he hcount
  -- the responses of the engine are those of the market
  have hsent : e.engine.channel.responses =
      (e.desk.market.sent Dialect.map).responses :=
    congrArg Channel.responses htied.engine.sent
  have hfits : ∀ x ∈ ofClient c popped, x.reply.Fits := by
    intro x hx
    refine Market.run_fits hinv.freshKeys hbooks htickers
      (fun r hr => hrec.narrow K hr) x ?_
    show x ∈ (e.desk.market.sent Dialect.map).responses
    rw [← hsent, hkeeps.queue]
    exact List.mem_append_left _ (List.mem_of_mem_filter hx)
  obtain ⟨messages, hencodes, hbytes⟩ := hkeeps.delivers.bytes fd
  rw [hkeeps.delivers.stream fd c hfd] at hencodes
  obtain ⟨htold, hapart⟩ := Market.run_tells replaced hinv.freshKeys htickers
    (hclient.processed_distinct hinv hres) (hclient.eachStep hinv hres hrec)
  have hview : e.responseQ.foldl (hear c replaced)
      (messages.foldl (R.readMessage replaced) fun _ => none) =
        clientView c (e.desk.market.orders books) := by
    rw [hencodes.read hsize htypes hfits, ← foldl_hear, ← List.foldl_append,
      ← hkeeps.queue, hsent]
    exact htold
  refine ⟨messages, ?_, fun token w => ?_⟩
  · rw [hbytes]
    exact hencodes.frames hsize
  · rw [hview]
    refine (Market.clientView_orders hinv.freshKeys hapart).trans ?_
    simp only [htied.resting_iff, and_assoc]
    rfl

/-- A buy order is met by a sell order and replaced, and the replacement is met
by another sell order. -/
def trackedBuyer : List ExchangeInput :=
  [.recv 7 (enterOrderMessage 0) 1, .recv 8 (sellOrderMessage 66) 2, .publish,
    .process, .process, .drain fun _ => 3,
    .recv 7 (replaceOrderMessage 65 67 3) 4, .publish, .process,
    .drain fun _ => 5, .recv 8 (sellOrderMessage 67) 6, .publish, .process]

/-- The token that the buyer has asked to replace. -/
def firstToken : OrderToken :=
  Vector.replicate ouchTokenLen 65

/-- The buyer has not yet been told of the second trade. -/
theorem client_follows_orders_example :
    ∃ e : Exchange ScanPool,
      run OuchLayout.packed OuchReplies.packed Surroundings.roomy ScanPool
        1 4 16 16 trackedBuyer = .ok e ∧
      (ofClient 1 e.engine.channel.responses).map MEClientResponse.status =
        [.accepted, .executed, .modified, .executed] ∧
      e.responseQ.length = 3 ∧
      ∃ messages,
        Framing.frames OuchReplies.packedSize (e.outbound 7) =
          (messages, []) ∧
        ∀ token w,
          e.responseQ.foldl (hear 1 fun _ => firstToken)
              (messages.foldl (OuchReplies.packed.readMessage
                fun _ => firstToken) fun _ => none) token =
            some w ↔
          ∃ t o, e.desk.Resting t o ∧ o.clientId = 1 ∧
            o.orderToken = token ∧ o.working = w := by
  have hobserved : ((run OuchLayout.packed OuchReplies.packed
      Surroundings.roomy ScanPool 1 4 16 16 trackedBuyer).toOption.map
        fun e => (decide (((e.server.decoded.map
            RecvClientRequest.request).filterMap
              (MEClientRequest.newToken 1)).Nodup ∧
            ∀ x ∈ e.server.decoded, x.request.action = .modify →
              firstToken = tokenAt x.message
                OuchLayout.packed.replaceExistingToken),
          e.registered.length, e.server.fdToClientId 7,
          (ofClient 1 e.engine.channel.responses).map MEClientResponse.status,
          e.responseQ.length)) =
      some (true, 2, some 1, [.accepted, .executed, .modified, .executed],
        3) := by
    decide +kernel
  obtain ⟨e, he, hobserved⟩ := exists_of_toOption_map hobserved
  obtain ⟨hclient, hobserved⟩ := Prod.mk.inj hobserved
  obtain ⟨hcount, hobserved⟩ := Prod.mk.inj hobserved
  obtain ⟨hfd, hobserved⟩ := Prod.mk.inj hobserved
  obtain ⟨hstatus, hqueue⟩ := Prod.mk.inj hobserved
  obtain ⟨hdistinct, hremembers⟩ := of_decide_eq_true hclient
  have hsize : OuchReplies.packed.Readable OuchReplies.packedSize :=
    ⟨fun s => by cases s <;> rfl, fun s => by cases s <;> rfl⟩
  have htypes : Function.Injective OuchReplies.packed.typeByte := by
    intro s s' heq
    cases s <;> cases s' <;> first | rfl | cases heq
  refine ⟨e, he, hstatus, hqueue, client_follows_orders he (by decide) ?_
    OuchLayout.packedFields hsize htypes hfd ⟨hdistinct, ?_⟩⟩
  · rw [hcount]
    decide
  · exact fun x hx _ => hremembers x hx

end Exchange

end NanoExchange
