import NanoExchange.Gateway.Tokens
import NanoExchange.Gateway.ClientOrder

/-!
# The exchange with its sockets

The gateway, a matching engine with map books, and the two queues between them.
Clients connect, send bytes and disconnect; the engine takes requests;
`drainResponses` puts the responses into the send buffers of sockets.

A socket may be used again after a disconnect, so a `Connection` is a socket
with the number of connections that it had before.  `registered`, `arrived` and
`staged` are the history of a run: the connections that have got a client id,
the requests that have been decoded with the connections they have arrived on,
and the responses that have been staged with the connections of their sockets.

`Inv` says where the requests under way, the orders in the books and the
responses come from.
-/

namespace NanoExchange

open Lib

/-- A socket, and the number of its earlier connections. -/
abbrev Connection := Nat × Nat

structure Exchange (P : Type) where
  server : OrderServer
  engine : MatchingEngine MapLevels P
  responseQ : List MEClientResponse := []
  /-- The bytes in the send buffer of each socket. -/
  outbound : Nat → List UInt8 := fun _ => []
  /-- The connections that each socket has had and lost. -/
  sessions : Nat → Nat := fun _ => 0
  /-- The connections for which `registerClient` has been called. -/
  registered : List Connection := []
  arrived : List (Connection × RecvClientRequest) := []
  staged : List (Connection × MEClientResponse) := []
  /-- The requests that the engine has taken, with the responses to each. -/
  answers : List (MEClientRequest × List MEClientResponse) := []

inductive ExchangeInput where
  /-- Bytes arrive on a socket. -/
  | recv (fd : Nat) (bytes : List UInt8) (kernelTime : Nat)
  /-- `onRecvFinished`, or the retry in the run loop. -/
  | publish
  | disconnect (fd : Nat)
  /-- The engine takes the next request. -/
  | process
  /-- `drainResponses`; `clock` is what it reads the time from. -/
  | drain (clock : Nat → Nat)

namespace Exchange

variable {P : Type} [ObjectPool P]

def init (books poolSize fifoPending tokenPoolSz : Nat) : Exchange P where
  server := .init fifoPending tokenPoolSz
  engine := .init books poolSize

/-- The connection that a socket has, if it has one. -/
def connection (e : Exchange P) (fd : Nat) : Connection :=
  (fd, e.sessions fd)

section Steps

variable (L : OuchLayout) (R : OuchReplies) (env : Surroundings)

def onRecv (e : Exchange P) (fd : Nat) (bytes : List UInt8)
    (kernelTime : Nat) : Except Fault (Exchange P) := do
  let server ← e.server.step L env (.recv fd bytes kernelTime)
  let requests := server.decoded.drop e.server.decoded.length
  .ok { e with
    server := server
    registered :=
      if e.server.fdToClientId fd = none then
        e.registered ++ [e.connection fd]
      else e.registered
    arrived := e.arrived ++ requests.map fun x => (e.connection fd, x) }

def onDisconnect (e : Exchange P) (fd : Nat) : Exchange P :=
  { e with
    server := e.server.onDisconnect fd
    outbound := Function.update e.outbound fd []
    sessions := Function.update e.sessions fd (e.sessions fd + 1) }

/-- The engine takes the first request of the queue. -/
def process (e : Exchange P) : Except Fault (Exchange P) :=
  match e.server.requestQ with
  | [] => .ok e
  | x :: q => do
      let engine ← e.engine.processClientRequest x.request
      let responses := engine.channel.responses.drop
        e.engine.channel.responses.length
      .ok { e with
        server := { e.server with
          requestQ := q
          handled := e.server.handled ++ [x] }
        engine := engine
        responseQ := e.responseQ ++ responses
        answers := e.answers ++ [(x.request, responses)] }

/-- One turn of the loop of `drainResponses`. -/
def deliver (e : Exchange P) (resp : MEClientResponse) (now : Nat) :
    Exchange P :=
  match e.server.clientToSocket resp.clientId with
  | none => e
  | some fd =>
      let buf := R.encodeOuch resp now
      if 0 < buf.length then
        { e with
          outbound := Function.update e.outbound fd (e.outbound fd ++ buf)
          staged := e.staged ++ [(e.connection fd, resp)] }
      else e

/-- The loop of `drainResponses`, from its `k`-th turn on. -/
def deliverAll (clock : Nat → Nat) :
    Nat → List MEClientResponse → Exchange P → Exchange P
  | _, [], e => e
  | k, resp :: q, e => deliverAll clock (k + 1) q (e.deliver R resp (clock k))

def drainResponses (e : Exchange P) (clock : Nat → Nat) : Exchange P :=
  { deliverAll R clock 0 e.responseQ e with responseQ := [] }

def step (e : Exchange P) : ExchangeInput → Except Fault (Exchange P)
  | .recv fd bytes kernelTime => e.onRecv L env fd bytes kernelTime
  | .publish => .ok { e with server := e.server.publishPendingOrders env }
  | .disconnect fd => .ok (e.onDisconnect fd)
  | .process => e.process
  | .drain clock => .ok (e.drainResponses R clock)

/-- A run of a fresh exchange. -/
def run (P : Type) [ObjectPool P]
    (books poolSize fifoPending tokenPoolSz : Nat)
    (inputs : List ExchangeInput) : Except Fault (Exchange P) :=
  inputs.foldlM (step L R env) (init books poolSize fifoPending tokenPoolSz)

end Steps

/-- The registry and the engine of an exchange, with what is under way between
them. -/
def desk (e : Exchange P) : Desk P where
  tokens := e.server.tokenManager
  engine := e.engine
  inFlight := e.server.underway.map RecvClientRequest.request
  answers := e.answers

end Exchange

/-- The response is about the order that the request brings, or about the
request itself. -/
def MEClientRequest.Concerns (r : MEClientRequest) (x : MEClientResponse) :
    Prop :=
  r.newIdentity = some x.identity ∨ r.identity = x.identity

namespace Exchange

variable {P : Type} [ObjectPool P] {n : Nat} {L : OuchLayout}
  {R : OuchReplies} {env : Surroundings} {e e' : Exchange P}

/-- The desk of an exchange in which the gateway is at `s`. -/
def deskAt (e : Exchange P) (s : OrderServer) : Desk P where
  tokens := s.tokenManager
  engine := e.engine
  inFlight := s.underway.map RecvClientRequest.request
  answers := e.answers

/-- The gateway `s` of an exchange keeps all requests, and its registry fits
the engine. -/
structure Works (n : Nat) (e : Exchange P) (s : OrderServer) : Prop where
  fits : s.fifo.Fits
  conserved : (s.handled ++ s.underway).Perm s.decoded
  tied : Desk.Tied n (e.deskAt s)

namespace Works

variable {s s' : OrderServer}

theorem of_same
    (h : Works n e s) (hsame : OrderServer.SameRequests s s') :
    Works n e s' := by
  have hunderway : s'.underway = s.underway := by
    rw [OrderServer.underway, OrderServer.underway, hsame.requestQ, hsame.fifo]
  refine ⟨hsame.fifo ▸ h.fits, ?_, ?_⟩
  · rw [hsame.handled, hunderway, hsame.decoded]
    exact h.conserved
  · rw [deskAt, hsame.tokenManager, hunderway]
    exact h.tied

/-- Requests are moved from the sequencer to the queue. -/
theorem moves
    (h : Works n e s) (hmoves : OrderServer.Moves s s' []) :
    Works n e s' := by
  have hperm := hmoves.underway
  rw [List.append_nil] at hperm
  refine ⟨hmoves.fits, ?_, ?_⟩
  · rw [hmoves.handled, hmoves.decoded]
    exact (hperm.append_left _).trans h.conserved
  · rw [deskAt, hmoves.tokenManager]
    exact h.tied.perm (hperm.map RecvClientRequest.request)

variable (L env) in
/-- One message. -/
theorem onMessage
    (h : Works n e s) (cid : ClientId) (kernelTime : Nat)
    (message : List UInt8) :
    ∃ s' G, s.onMessage L env cid kernelTime message = .ok s' ∧
      Works n e s' ∧ s'.decoded = s.decoded ++ G ∧
      ∀ x ∈ G, x.request.clientId = cid := by
  obtain ⟨d, hd, htied⟩ := h.tied.decode (L := L) cid message
  obtain rfl := Except.ok.inj hd
  have hclient := (L.decodeOuch_registers message cid h.tied.tokens).2.2.2.1
  unfold OrderServer.onMessage
  dsimp only [deskAt] at htied hclient ⊢
  cases hres : (L.decodeOuch message cid s.tokenManager).1 with
  | none =>
      rw [hres] at htied
      refine ⟨_, [], rfl, ⟨h.fits, h.conserved, ?_⟩,
        (List.append_nil _).symm, nofun⟩
      exact htied.perm (by rw [Option.toList_none, List.append_nil]; rfl)
  | some r =>
      rw [hres] at htied
      dsimp only
      generalize hs₁ : ({ s with
        tokenManager := (L.decodeOuch message cid s.tokenManager).2
        decoded := s.decoded ++ [⟨kernelTime, r, message⟩] } :
          OrderServer) = s₁
      obtain ⟨s', hs', hmoves⟩ := OrderServer.stage_ok env
        (show s₁.fifo.Fits by rw [← hs₁]; exact h.fits)
        ⟨kernelTime, r, message⟩
      have hperm : s'.underway.Perm
          (s.underway ++ [⟨kernelTime, r, message⟩]) := by
        rw [← hs₁] at hmoves
        exact hmoves.underway
      have htokens : s'.tokenManager =
          (L.decodeOuch message cid s.tokenManager).2 := by
        rw [hmoves.tokenManager, ← hs₁]
      have hdecoded : s'.decoded =
          s.decoded ++ [⟨kernelTime, r, message⟩] := by
        rw [hmoves.decoded, ← hs₁]
      have hhandled : s'.handled = s.handled := by
        rw [hmoves.handled, ← hs₁]
      refine ⟨s', [⟨kernelTime, r, message⟩], hs', ⟨hmoves.fits, ?_, ?_⟩,
        hdecoded, ?_⟩
      · rw [hhandled, hdecoded]
        refine (hperm.append_left _).trans ?_
        rw [← List.append_assoc]
        exact h.conserved.append_right _
      · have hdesk := htied.perm
          (l := s'.underway.map RecvClientRequest.request) (by
            have hmap := hperm.map RecvClientRequest.request
            rwa [List.map_append] at hmap)
        rw [deskAt, htokens]
        exact hdesk
      · intro x hx
        rw [List.mem_singleton.mp hx]
        exact (hclient r hres).2.1

/-- A call of `onRecv` decodes requests of the client of the socket. -/
theorem recv
    (h : Works n e s) {fd : Nat} {bytes : List UInt8} {kernelTime : Nat}
    (hs' : s.step L env (.recv fd bytes kernelTime) = .ok s') :
    Works n e s' ∧ ∃ G, s'.decoded = s.decoded ++ G ∧
      ∀ x ∈ G, x.request.clientId = s.clientOf fd := by
  let I : OrderServer → Prop := fun t => Works n e t ∧
    ∃ G, t.decoded = s.decoded ++ G ∧
      ∀ x ∈ G, x.request.clientId = s.clientOf fd
  have hsockets : ∀ t t', OrderServer.SameRequests t t' → I t → I t' := by
    rintro t t' hsame ⟨ht, hG⟩
    exact ⟨ht.of_same hsame, by rwa [hsame.decoded]⟩
  have hmessage : ∀ t message, I t →
      ∃ t', t.onMessage L env (s.clientOf fd) kernelTime message = .ok t' ∧
        I t' := by
    rintro t message ⟨ht, G, hdecoded, hclient⟩
    obtain ⟨t', G', ht', hworks, hdecoded', hclient'⟩ :=
      ht.onMessage L env (s.clientOf fd) kernelTime message
    refine ⟨t', ht', hworks, G ++ G', ?_, ?_⟩
    · rw [hdecoded', hdecoded, List.append_assoc]
    · intro x hx
      rcases List.mem_append.mp hx with hx | hx
      · exact hclient x hx
      · exact hclient' x hx
  obtain ⟨t, ht, hI⟩ := OrderServer.recv_invariant I hsockets hmessage
    ⟨h, [], (List.append_nil _).symm, nofun⟩ bytes
  obtain rfl := Except.ok.inj (ht.symm.trans hs')
  exact hI

end Works

omit [ObjectPool P] in
/-- The gateway's part of a call of `onRecv`, and the history. -/
theorem onRecv_ok
    {fd : Nat} {bytes : List UInt8} {kernelTime : Nat}
    (h : e.onRecv L env fd bytes kernelTime = .ok e') :
    ∃ s, e.server.step L env (.recv fd bytes kernelTime) = .ok s ∧
      e' = { e with
        server := s
        registered :=
          if e.server.fdToClientId fd = none then
            e.registered ++ [e.connection fd]
          else e.registered
        arrived := e.arrived ++
          (s.decoded.drop e.server.decoded.length).map
            fun x => (e.connection fd, x) } := by
  unfold onRecv at h
  cases hs : e.server.step L env (.recv fd bytes kernelTime) with
  | error f =>
      rw [hs] at h
      cases h
  | ok s =>
      rw [hs, ok_bind] at h
      exact ⟨s, rfl, (Except.ok.inj h).symm⟩

/-- The engine takes the first request of the queue, if there is one. -/
theorem process_cases (h : e.process = .ok e') :
    (e.server.requestQ = [] ∧ e' = e) ∨
    ∃ x q engine responses, e.server.requestQ = x :: q ∧
      e.engine.processClientRequest x.request = .ok engine ∧
      responses = engine.channel.responses.drop
        e.engine.channel.responses.length ∧
      e' = { e with
        server := { e.server with
          requestQ := q
          handled := e.server.handled ++ [x] }
        engine := engine
        responseQ := e.responseQ ++ responses
        answers := e.answers ++ [(x.request, responses)] } := by
  unfold process at h
  cases hq : e.server.requestQ with
  | nil =>
      rw [hq] at h
      exact .inl ⟨rfl, (Except.ok.inj h).symm⟩
  | cons x q =>
      rw [hq] at h
      dsimp only at h
      cases hengine : e.engine.processClientRequest x.request with
      | error f =>
          rw [hengine] at h
          cases h
      | ok engine =>
          rw [hengine, ok_bind] at h
          exact .inr ⟨x, q, engine, _, rfl, hengine, rfl,
            (Except.ok.inj h).symm⟩

omit [ObjectPool P] in
/-- Responses are staged on the sockets of their clients. -/
theorem deliverAll_eq
    (clock : Nat → Nat) (k : Nat) (q : List MEClientResponse)
    (e : Exchange P) :
    ∃ outbound more, deliverAll R clock k q e = { e with
        outbound := outbound
        staged := e.staged ++ more } ∧
      ∀ conn y, (conn, y) ∈ more → y ∈ q ∧
        ∃ fd, e.server.clientToSocket y.clientId = some fd ∧
          conn = e.connection fd := by
  induction q generalizing k e with
  | nil =>
      refine ⟨e.outbound, [], ?_, nofun⟩
      rw [List.append_nil]
      rfl
  | cons resp q ih =>
      obtain ⟨outbound₁, more₁, heq₁, hmore₁⟩ : ∃ outbound more,
          e.deliver R resp (clock k) = { e with
            outbound := outbound
            staged := e.staged ++ more } ∧
          ∀ conn y, (conn, y) ∈ more → y = resp ∧
            ∃ fd, e.server.clientToSocket resp.clientId = some fd ∧
              conn = e.connection fd := by
        unfold deliver
        cases hfd : e.server.clientToSocket resp.clientId with
        | none =>
            refine ⟨e.outbound, [], ?_, nofun⟩
            rw [List.append_nil]
        | some fd =>
            dsimp only
            split_ifs
            · refine ⟨_, [(e.connection fd, resp)], rfl, fun conn y hy => ?_⟩
              obtain ⟨rfl, rfl⟩ := Prod.mk.inj (List.mem_singleton.mp hy)
              exact ⟨rfl, fd, rfl, rfl⟩
            · refine ⟨e.outbound, [], ?_, nofun⟩
              rw [List.append_nil]
      obtain ⟨outbound, more, heq, hmore⟩ :=
        ih (k + 1) (e.deliver R resp (clock k))
      refine ⟨outbound, more₁ ++ more, ?_, fun conn y hy => ?_⟩
      · rw [deliverAll, heq, heq₁, List.append_assoc]
      · rcases List.mem_append.mp hy with hy | hy
        · obtain ⟨rfl, hfd⟩ := hmore₁ conn y hy
          exact ⟨List.mem_cons_self, hfd⟩
        · obtain ⟨hmem, hfd⟩ := hmore conn y hy
          rw [heq₁] at hfd
          exact ⟨List.mem_cons_of_mem _ hmem, hfd⟩

/-- **Where requests, orders and responses come from**, for `n` books. -/
structure Inv (n : Nat) (e : Exchange P) : Prop where
  works : Works n e e.server
  history : e.arrived.map Prod.snd = e.server.decoded
  created : ∀ t, ∀ o ∈ (e.desk.market.ladder t).orders,
    ∃ x ∈ e.server.decoded, x.request.newIdentity = some o.identity
  queued : ∀ y ∈ e.responseQ, ∃ x ∈ e.server.decoded, x.request.Concerns y
  delivered : ∀ conn y, (conn, y) ∈ e.staged →
    ∃ x ∈ e.server.decoded, x.request.Concerns y

namespace Inv

theorem init (n poolSize fifoPending tokenPoolSz : Nat) :
    Inv n (Exchange.init n poolSize fifoPending tokenPoolSz :
      Exchange P) where
  works :=
    { fits := .init fifoPending
      conserved := List.Perm.refl _
      tied := .init n poolSize tokenPoolSz }
  history := rfl
  created _ _ ho := by cases ho
  queued := nofun
  delivered := nofun

/-- A request that has been decoded has arrived on some connection. -/
theorem arrived
    (h : Inv n e) {x : RecvClientRequest} (hx : x ∈ e.server.decoded) :
    ∃ conn, (conn, x) ∈ e.arrived := by
  rw [← h.history] at hx
  obtain ⟨⟨conn, y⟩, hp, rfl⟩ := List.mem_map.mp hx
  exact ⟨conn, hp⟩

theorem onRecv
    (h : Inv n e) {fd : Nat} {bytes : List UInt8} {kernelTime : Nat}
    (he' : e.onRecv L env fd bytes kernelTime = .ok e') : Inv n e' := by
  obtain ⟨s, hs, rfl⟩ := onRecv_ok he'
  obtain ⟨hworks, G, hdecoded, -⟩ := h.works.recv hs
  have hsub : e.server.decoded ⊆ s.decoded := by
    rw [hdecoded]
    exact List.subset_append_left _ _
  refine ⟨⟨hworks.fits, hworks.conserved, hworks.tied⟩, ?_, ?_, ?_, ?_⟩
  · dsimp only
    rw [hdecoded, List.drop_left, List.map_append, List.map_map, h.history]
    exact congrArg _ (List.map_id G)
  · intro t o ho
    obtain ⟨x, hx, hnew⟩ := h.created t o ho
    exact ⟨x, hsub hx, hnew⟩
  · intro y hy
    obtain ⟨x, hx, hconcerns⟩ := h.queued y hy
    exact ⟨x, hsub hx, hconcerns⟩
  · intro conn y hy
    obtain ⟨x, hx, hconcerns⟩ := h.delivered conn y hy
    exact ⟨x, hsub hx, hconcerns⟩

theorem publish
    (h : Inv n e) :
    Inv n { e with server := e.server.publishPendingOrders env } where
  works :=
    let moved := h.works.moves
      (OrderServer.publishPendingOrders_moves env h.works.fits)
    ⟨moved.fits, moved.conserved, moved.tied⟩
  history := h.history
  created := h.created
  queued := h.queued
  delivered := h.delivered

theorem onDisconnect (h : Inv n e) (fd : Nat) : Inv n (e.onDisconnect fd) := by
  have hsame := OrderServer.onDisconnect_sameRequests e.server fd
  have hworks := h.works.of_same hsame
  refine ⟨⟨hworks.fits, hworks.conserved, hworks.tied⟩, ?_, ?_, ?_, ?_⟩
  · exact h.history.trans hsame.decoded.symm
  · exact fun t o ho => hsame.decoded ▸ h.created t o ho
  · exact fun y hy => hsame.decoded ▸ h.queued y hy
  · exact fun conn y hy => hsame.decoded ▸ h.delivered conn y hy

/-- **What the engine does with the first request of the queue.** -/
theorem take
    (h : Inv n e) {x : RecvClientRequest} {q : List RecvClientRequest}
    (hq : e.server.requestQ = x :: q) (he' : e.process = .ok e') :
    x ∈ e.server.decoded ∧ Works n e' e'.server ∧
      e'.server.decoded = e.server.decoded ∧ e'.arrived = e.arrived ∧
      e'.staged = e.staged ∧
      e'.desk.market = e.desk.market.next x.request ∧
      e'.responseQ = e.responseQ ++
        (e.desk.market.respond x.request).events.flatMap
          (Event.responses Dialect.map) := by
  rcases process_cases he' with ⟨hnil, -⟩ |
    ⟨x', q', engine, responses, hq', hengine, hresponses, heq⟩
  · cases hnil.symm.trans hq
  obtain ⟨rfl, rfl⟩ := List.cons.inj (hq.symm.trans hq')
  have hconserved := h.works.conserved
  rw [OrderServer.underway, hq] at hconserved
  have htied : Desk.Tied n e.desk := h.works.tied
  have hflight : e.desk.inFlight = x.request ::
      (q ++ e.server.fifo.pending).map RecvClientRequest.request := by
    rw [desk, OrderServer.underway, hq]
    rfl
  have hfirst : e.desk.inFlight[0]? = some x.request := by
    rw [hflight]
    rfl
  -- the layout of messages plays no part in this step
  have hstep : e.desk.step OuchLayout.packed (.process 0) = .ok e'.desk := by
    have hengine : e.desk.engine.processClientRequest x.request =
        .ok engine := hengine
    simp only [Desk.step, hfirst, hengine, ok_bind]
    rw [hflight, heq, hresponses]
    rfl
  have hticker : x.request.tickerId < n := by
    rw [← htied.engine.books]
    exact MatchingEngine.tickerId_lt_of_ok hengine
  obtain ⟨htied', -, hmarket, -, hanswers⟩ :=
    (htied.take hfirst hticker).of_ok hstep
  have hanswers : e'.answers = e.answers ++
      [(x.request, (e.desk.market.respond x.request).events.flatMap
        (Event.responses Dialect.map))] := hanswers
  rw [heq] at hanswers
  have hlast := List.append_cancel_left hanswers
  obtain ⟨-, hsent⟩ := Prod.mk.inj (List.cons.inj hlast).1
  rw [← hsent]
  refine ⟨?_, ⟨?_, ?_, htied'⟩, ?_, ?_, ?_, hmarket, ?_⟩
  · exact hconserved.subset
      (List.mem_append_right _ (List.mem_append_left _ List.mem_cons_self))
  · rw [heq]
    exact h.works.fits
  · rw [heq]
    simpa [OrderServer.underway] using hconserved
  · rw [heq]
  · rw [heq]
  · rw [heq]
  · rw [heq]

theorem process
    (h : Inv n e) (he' : e.process = .ok e') : Inv n e' := by
  cases hq : e.server.requestQ with
  | nil =>
      rcases process_cases he' with ⟨-, rfl⟩ | ⟨x, q, engine, responses, hq', -⟩
      · exact h
      · cases hq.symm.trans hq'
  | cons x q =>
      obtain ⟨hx, hworks, hdecoded, harrived, hstaged, hmarket, hresponses⟩ :=
        h.take hq he'
      have htied : Desk.Tied n e.desk := h.works.tied
      have hperm : e.desk.inFlight.Perm (x.request ::
          (q ++ e.server.fifo.pending).map RecvClientRequest.request) := by
        rw [desk, OrderServer.underway, hq]
        rfl
      have hready := htied.ready hperm
      refine ⟨hworks, ?_, ?_, ?_, ?_⟩
      · rw [harrived, hdecoded]
        exact h.history
      · rw [hmarket, hdecoded]
        intro t o ho
        rcases Market.identity_next hready ho with ⟨o', ho', hid⟩ | ⟨-, hnew⟩
        · rw [hid]
          exact h.created t o' ho'
        · exact ⟨x, hx, hnew⟩
      · rw [hresponses, hdecoded]
        intro y hy
        rcases List.mem_append.mp hy with hy | hy
        · exact h.queued y hy
        obtain ⟨event, hevent, hy⟩ := List.mem_flatMap.mp hy
        rcases Ladder.step_events_identity _ x.request hevent
            (Event.identity_of_mem_responses hy) with
          ⟨⟨o, ho, hid⟩, -⟩ | ⟨hnew, -⟩ | ⟨hid, -⟩
        · obtain ⟨z, hz, hnew⟩ := h.created _ o ho
          exact ⟨z, hz, .inl (hid ▸ hnew)⟩
        · exact ⟨x, hx, .inl hnew⟩
        · exact ⟨x, hx, .inr hid.symm⟩
      · rw [hstaged, hdecoded]
        exact h.delivered

theorem drain
    (h : Inv n e) (clock : Nat → Nat) : Inv n (e.drainResponses R clock) := by
  obtain ⟨outbound, more, heq, hmore⟩ :=
    deliverAll_eq (R := R) clock 0 e.responseQ e
  unfold drainResponses
  rw [heq]
  refine ⟨⟨h.works.fits, h.works.conserved, h.works.tied⟩, h.history,
    h.created, nofun, fun conn y hy => ?_⟩
  rcases List.mem_append.mp hy with hy | hy
  · exact h.delivered conn y hy
  · exact h.queued y (hmore conn y hy).1

/-- **Every step keeps the invariant.** -/
theorem step
    (h : Inv n e) {i : ExchangeInput} (he' : e.step L R env i = .ok e') :
    Inv n e' := by
  cases i with
  | recv fd bytes kernelTime => exact h.onRecv he'
  | publish =>
      obtain rfl := Except.ok.inj he'
      exact h.publish
  | disconnect fd =>
      obtain rfl := Except.ok.inj he'
      exact h.onDisconnect fd
  | process => exact h.process he'
  | drain clock =>
      obtain rfl := Except.ok.inj he'
      exact h.drain clock

end Inv

end Exchange

end NanoExchange
